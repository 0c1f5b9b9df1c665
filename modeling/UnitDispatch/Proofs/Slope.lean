import UnitDispatch.Proofs.LookAhead

/-! # The slope of the base

However many reviews an advance goes through, committed power and reserve together change no faster
on the way than the ramp limits allow, as long as those are finite and the rate in progress keeps to
them. Nothing is asked of what has been done to the generator before: a plan left behind by limits
that were negative once will do.
-/

namespace UnitDispatch

open Quantity Exact

namespace Generator

variable {K : Type} [Field K] [LinearOrder K] {g h k : Generator (Exact K)} {u d x n t : K}

/-- From one state to another the base has moved within the limits `u` and `d`. -/
def Climbs (u d : K) (g h : Generator (Exact K)) : Prop :=
  ∃ n n' b b', g.now = fin n ∧ h.now = fin n' ∧ g.base = fin b ∧ h.base = fin b' ∧
    b' - b ∈ Set.Icc (-d * (n' - n)) (u * (n' - n))

/-- A generator whose ramp limits are the numbers `u` and `d`, none of them negative, and whose rate
keeps to them. -/
structure Paced (u d x : K) (g : Generator (Exact K)) : Prop where
  sound : g.Sound x
  called : g.reserve.Called
  ramps : g.Ramps u d
  up : 0 ≤ u
  down : 0 ≤ d
  limitUp : 0 ≤ g.rampLimitUp
  rated : g.Rated

variable [IsStrictOrderedRing K]

theorem Climbs.trans (one : Climbs u d g h) (two : Climbs u d h k) : Climbs u d g k := by
  obtain ⟨n, m, b, c, now, now', base, base', least, most⟩ := one
  obtain ⟨m', l, c', e, now₂, now₂', base₂, base₂', least', most'⟩ := two
  obtain rfl : m' = m := fin.inj (now₂.symm.trans now')
  obtain rfl : c' = c := fin.inj (base₂.symm.trans base')
  exact ⟨n, l, b, e, now, now₂', base, base₂', by linarith, by linarith⟩

omit [IsStrictOrderedRing K] in
/-- What changes neither clock nor power. -/
theorem Sound.climbs_of_same (sound : g.Sound x) (power : SamePower g h) (now : h.now = g.now) :
    Climbs u d g h := by
  obtain ⟨c, y, carries⟩ := sound.balanced
  obtain ⟨n, _, _, _, stands⟩ := sound.regular.stands
  refine ⟨n, n, c + y, c + y, stands.now, now.trans stands.now, carries.base, ?_, by simp⟩
  unfold Generator.base
  rw [power.committed, power.realized]
  exact carries.base

omit [IsStrictOrderedRing K] in
theorem Paced.of_same (paced : g.Paced u d x) (sound : h.Sound x) (same : SameSettings g h)
    (rated : h.Rated) : h.Paced u d x where
  sound := sound
  called := same.called paced.called
  ramps := paced.ramps.of_same same
  up := paced.up
  down := paced.down
  limitUp := by rw [same.rampLimitUp]; exact paced.limitUp
  rated := rated

/-- A move along the leg. -/
theorem Paced.moveTo (paced : g.Paced u d x) (t : K) :
    (g.moveTo (fin t)).Paced u d x ∧ Climbs u d g (g.moveTo (fin t)) := by
  obtain ⟨n, l, c, ρ, stands⟩ := paced.sound.regular.stands
  rcases lt_or_ge n t with ahead | past
  · obtain ⟨c, y, carries⟩ := paced.sound.balanced
    obtain ⟨q, hq⟩ := isFinite_iff.mp paced.sound.numeric.reserve.requested
    have span : 0 < t - n := sub_pos.mpr ahead
    obtain ⟨z, realized, -, least, most⟩ :=
      reserveAfter_rated paced.sound.proper paced.rated stands.rate carries.realized hq span
    rw [paced.ramps.down, neg_fin, fin_mul, fin_le] at least
    rw [paced.ramps.up, fin_mul, fin_le] at most
    have moved := carries.moveTo stands.now stands.rate ahead realized
    have stood := stands.moveTo ahead.le
    refine ⟨paced.of_same (paced.sound.moveTo t) (moveTo_sameSettings g _) ?_, n, t, c + y, _,
      stands.now, stood.now, carries.base, moved.base, by linarith, by linarith⟩
    exact paced.rated.of_same (moveTo_sameSettings g _) (stood.rate.trans stands.rate.symm)
  · rw [moveTo_of_past stands.now past]
    exact ⟨paced, paced.sound.climbs_of_same ⟨rfl, rfl, rfl⟩ rfl⟩

/-- A revision leaves a rate that keeps within the limits. -/
theorem Paced.replan_rated (paced : g.Paced u d x) : g.replan.Rated := by
  have leeway : g.Leeway := by
    refine ⟨?_, ?_, paced.limitUp, paced.called⟩
    · rw [paced.ramps.up]
      simpa using paced.up
    · rw [paced.ramps.down]
      simpa using paced.down
  have within := leeway.replan (.inl ⟨paced.rated.down, paced.rated.up⟩)
  rw [← (replan_samePlant g).envelope] at within
  exact ⟨within.down, within.up⟩

theorem Paced.replan (paced : g.Paced u d x) :
    g.replan.Paced u d x ∧ Climbs u d g g.replan := by
  have power := paced.ramps.replan_samePower (paced.ramps.limitUp paced.limitUp paced.called)
    paced.sound.regular paced.sound.proper
  exact ⟨paced.of_same paced.sound.replan (replan_sameSettings g) paced.replan_rated,
    paced.sound.climbs_of_same power (replan_samePlant g).now⟩

/-- The clock after a move to a time, which is ignored if it does not lie ahead. -/
theorem Sound.moveTo_now (sound : g.Sound x) (now : g.now = fin n) (t : K) :
    (g.moveTo (fin t)).now = fin (max n t) := by
  obtain ⟨m, _, _, _, stands⟩ := sound.regular.stands
  obtain rfl : n = m := fin.inj (now.symm.trans stands.now)
  rcases le_total n t with ahead | past
  · rw [max_eq_right ahead]
    exact (stands.moveTo ahead).now
  · rw [max_eq_left past, moveTo_of_past now past]
    exact now

/-- Going through reviews, none of which is after `t`. -/
theorem Paced.legsTo (t : K) (fuel : Nat) (paced : g.Paced u d x) (now : g.now = fin n)
    (before : n ≤ t) :
    (legsTo (fin t) fuel g).Paced u d x ∧ Climbs u d g (legsTo (fin t) fuel g) ∧
      ∃ m ≤ t, (legsTo (fin t) fuel g).now = fin m := by
  induction fuel generalizing g n with
  | zero => exact ⟨paced, paced.sound.climbs_of_same ⟨rfl, rfl, rfl⟩ rfl, n, before, now⟩
  | succ fuel ih =>
    unfold Generator.legsTo
    split
    next due =>
      obtain ⟨r, early, leg⟩ := leg_of_due now due
      obtain ⟨moved, climbs⟩ := paced.moveTo r
      obtain ⟨planned, still⟩ := moved.replan
      have reached : g.leg.now = fin (max n r) := by
        rw [leg]
        exact (replan_samePlant _).now.trans (paced.sound.moveTo_now now r)
      have before' := max_le before early
      rw [← leg] at planned still
      dsimp only
      split
      · exact ⟨planned, climbs.trans still, _, before', reached⟩
      · obtain ⟨done, further, m, hm, now'⟩ := ih planned reached before'
        exact ⟨done, (climbs.trans still).trans further, m, hm, now'⟩
    next => exact ⟨paced, paced.sound.climbs_of_same ⟨rfl, rfl, rfl⟩ rfl, n, before, now⟩

/-- Over an advance the base moves within the ramp limits. -/
theorem Paced.advance (paced : g.Paced u d x) (now : g.now = fin n) (ahead : n < t) :
    Climbs u d g (g.advance (fin t)) ∧ (g.advance (fin t)).now = fin t := by
  obtain ⟨arrived, climbs, m, before, reached⟩ := paced.legsTo t g.legBound now ahead.le
  unfold Generator.advance
  rw [if_neg (by simpa [now] using ahead)]
  refine ⟨climbs.trans (arrived.moveTo t).2, ?_⟩
  rw [arrived.sound.moveTo_now reached, max_eq_right before]

end Generator

end UnitDispatch
