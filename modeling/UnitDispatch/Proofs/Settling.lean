import UnitDispatch.Proofs.LookAhead
import UnitDispatch.Proofs.Recovery

/-! # The time to settle

A reserve that is not settled closes at the rate by which the ramp limit toward what is called for
exceeds the leg in progress. `Closing` names that rate, and from it both what the reserve becomes
and the time it reports as left are read off, so that up to the next review the report is what comes
about: `run_settles`. The leg has to keep to the ramp limits for it; a leg that was planned under a
negative limit need not: see `run_unsettled`.
-/

namespace UnitDispatch

open Quantity Exact

namespace Generator

/-- What time to settle is reported comes about, as far as the next review: after it nothing is left
of the gap, at any moment before it something is left in the same direction, and if there is none
the reserve does not move. -/
structure SettlesAsReported {K : Type} [Field K] [LinearOrder K] (g : Generator (Exact K)) :
    Prop where
  /-- There is a time, or there is none. -/
  reported : isFinite g.timeToSettle = true ∨ g.timeToSettle = unbounded
  arrives : isFinite g.timeToSettle = true → g.now + g.timeToSettle ≤ g.review →
    (g.advance (g.now + g.timeToSettle)).reserve.realized = g.reserve.requested
  remains : isFinite g.timeToSettle = true → g.now + g.timeToSettle ≤ g.review →
    ∀ e : K, 0 < e → fin e < g.timeToSettle →
      0 < g.reserve.gap * (g.advance (g.now + fin e)).reserve.gap
  rests : g.timeToSettle = unbounded →
    ∀ t : K, fin t ≤ g.review → (g.advance (fin t)).reserve.realized = g.reserve.realized

variable {K : Type} [Field K] [LinearOrder K] {g : Generator (Exact K)} {n x q v dt t y : K}

/-! ## The rate at which a reserve closes -/

/-- The realized reserve `x` closes on the requested reserve `q` at the rate `v`. -/
structure Closing (g : Generator (Exact K)) (x q v : K) : Prop where
  realized : g.reserve.realized = fin x
  requested : g.reserve.requested = fin q
  apart : q - x ≠ 0
  lead : 0 ≤ v * (q - x)
  /-- Until it arrives, it moves at that rate. -/
  after : ∀ {dt : K}, 0 < dt → v * dt ∈ Set.uIcc 0 (q - x) →
    g.reserveAfter (fin dt) = fin (x + v * dt)
  settle : g.timeToSettle = if v = 0 then unbounded else fin ((q - x) / v)

variable [IsStrictOrderedRing K]

/-- The time a gap takes at a rate that does not lead away from it. -/
theorem closing_time {gap : K} (lead : 0 ≤ v * gap) :
    (if isFinite (fin gap / fin v : Exact K) = true ∧ 0 ≤ (fin gap / fin v : Exact K) then
      fin gap / fin v else unbounded) = if v = 0 then unbounded else fin (gap / v) := by
  by_cases still : v = 0
  · subst still
    have quotient : (fin gap / fin 0 : Exact K) = unboundedBy gap := if_pos rfl
    rw [if_pos rfl, quotient, if_neg]
    rintro ⟨finite, -⟩
    obtain ⟨y, hy⟩ := isFinite_iff.mp finite
    unfold Exact.unboundedBy at hy
    split_ifs at hy
  · have ahead : 0 ≤ gap / v := by
      rw [← mul_div_mul_left gap v still]
      exact div_nonneg lead (mul_self_nonneg v)
    rw [if_neg still, fin_div gap still, if_pos]
    exact ⟨isFinite_fin _, by simpa using ahead⟩

/-- Under ramp limits that are numbers and that the leg keeps to, a gap that counts closes at some
rate, or rests at the rate zero. -/
theorem Sound.closing (sound : g.Sound y) (ramps : g.FiniteRamps) (rated : g.Rated)
    (wide : Reserve.tolerance < magnitude g.reserve.gap) : ∃ x q v, g.Closing x q v := by
  obtain ⟨n, l, c, ρ, stands⟩ := sound.regular.stands
  obtain ⟨-, x, -, realized, -⟩ := sound.balanced
  obtain ⟨q, requested⟩ := isFinite_iff.mp sound.numeric.reserve.requested
  obtain ⟨u, up⟩ := isFinite_iff.mp ramps.up
  obtain ⟨d, down⟩ := isFinite_iff.mp ramps.down
  have narrow : (0 : K) < 1 / 10 ^ 3 := by positivity
  have high : ρ ≤ u := by simpa [stands.rate, up] using rated.up
  have low : -d ≤ ρ := by simpa [stands.rate, down] using rated.down
  have gap : g.reserve.gap = fin (q - x) := by
    unfold Reserve.gap
    rw [requested, realized, fin_sub]
  rw [gap, Reserve.tolerance_eq, magnitude_fin, fin_lt] at wide
  rcases lt_abs.mp wide with short | long
  · have apart : q - x ≠ 0 := (narrow.trans short).ne'
    have lead : 0 ≤ (u - ρ) * (q - x) :=
      mul_nonneg (sub_nonneg.mpr high) (narrow.trans short).le
    refine ⟨x, q, u - ρ, realized, requested, apart, lead, ?_, ?_⟩
    · intro dt ht part
      rw [reserveAfter_eq stands.rate realized requested, if_pos short, up]
      have most : (u - ρ) * dt ≤ q - x := by
        rw [Set.uIcc_of_le (narrow.trans short).le] at part
        exact part.2
      simp only [fin_sub, fin_mul, fin_add, lesser_fin]
      rw [min_eq_left (by linarith)]
    · rw [← closing_time lead]
      unfold timeToSettle
      dsimp only
      rw [gap, Reserve.tolerance_eq, if_pos (fin_lt.mpr short), up, stands.rate, fin_sub]
  · have apart : q - x ≠ 0 := by linarith
    have lead : 0 ≤ (-d - ρ) * (q - x) :=
      mul_nonneg_of_nonpos_of_nonpos (sub_nonpos.mpr low) (by linarith)
    have beyond : ¬ 1 / 10 ^ 3 < q - x := by linarith
    have far : q - x < -(1 / 10 ^ 3) := lt_neg_of_lt_neg long
    refine ⟨x, q, -d - ρ, realized, requested, apart, lead, ?_, ?_⟩
    · intro dt ht part
      rw [reserveAfter_eq stands.rate realized requested, if_neg beyond, if_pos far, down]
      have most : q - x ≤ (-d - ρ) * dt := by
        rw [Set.uIcc_of_ge (by linarith)] at part
        exact part.1
      simp only [neg_fin, fin_sub, fin_mul, fin_add, greater_fin]
      rw [max_eq_left (by linarith)]
    · rw [← closing_time lead]
      unfold timeToSettle
      dsimp only
      rw [gap, Reserve.tolerance_eq, neg_fin, if_neg (mt fin_lt.mp beyond),
        if_pos (fin_lt.mpr far), down, stands.rate, neg_fin, fin_sub]

/-! ## Up to the next review -/

/-- A revision leaves the reserve alone, so that an advance as far as the review moves it as the leg
does. -/
theorem Sound.advance_reserve (sound : g.Sound y) (ahead : g.now < fin t)
    (short : fin t ≤ g.review) : (g.advance (fin t)).reserve = (g.moveTo (fin t)).reserve := by
  rcases sound.advance_eq_or ahead short with moves | revises
  · rw [moves]
  · rw [revises]
    exact (replan_samePlant _).reserve

/-- As long as the way is not longer than the gap, the reserve goes it. -/
theorem Closing.advance (closing : g.Closing x q v) (sound : g.Sound y) (now : g.now = fin n)
    (ht : 0 < dt) (part : v * dt ∈ Set.uIcc 0 (q - x)) (short : fin (n + dt) ≤ g.review) :
    (g.advance (fin (n + dt))).reserve.realized = fin (x + v * dt) ∧
      (g.advance (fin (n + dt))).reserve.gap = fin (q - x - v * dt) := by
  have later : n < n + dt := lt_add_of_pos_right n ht
  have reserve := sound.advance_reserve (now ▸ fin_lt.mpr later) short
  have realized : (g.moveTo (fin (n + dt))).reserve.realized = fin (x + v * dt) := by
    rw [moveTo_realized now later, add_sub_cancel_left, closing.after ht part]
  have requested : (g.moveTo (fin (n + dt))).reserve.requested = fin q :=
    (moveTo_sameSettings g _).requested.trans closing.requested
  rw [reserve]
  refine ⟨realized, ?_⟩
  unfold Reserve.gap
  rw [realized, requested, fin_sub]
  exact congrArg fin (by ring)

/-- Part of the time takes it part of the way. -/
theorem part_of_way {s e : K} (begun : 0 ≤ e) (inTime : e ≤ s) (v : K) :
    v * e ∈ Set.uIcc 0 (v * s) := by
  rcases le_total 0 v with up | down
  · exact Set.mem_uIcc_of_le (mul_nonneg up begun) (mul_le_mul_of_nonneg_left inTime up)
  · exact Set.mem_uIcc_of_ge (mul_le_mul_of_nonpos_left inTime down)
      (mul_nonpos_of_nonpos_of_nonneg down begun)

/-- At the rate zero no time is reported, and the reserve does not move. -/
theorem Closing.rests (closing : g.Closing x q 0) (sound : g.Sound y) : g.SettlesAsReported := by
  obtain ⟨n, l, c, ρ, stands⟩ := sound.regular.stands
  have settle : g.timeToSettle = unbounded := by rw [closing.settle, if_pos rfl]
  have endless : ¬ isFinite g.timeToSettle = true := by
    rw [settle]
    exact Bool.false_ne_true
  refine ⟨.inr settle, fun ends => (endless ends).elim, fun ends => (endless ends).elim, ?_⟩
  intro _ t short
  rcases le_or_gt t n with past | later
  · unfold Generator.advance
    rw [if_pos (.inr (by rw [stands.now]; exact fin_le.mpr past))]
  · have part : 0 * (t - n) ∈ Set.uIcc 0 (q - x) := by simp
    have moved := closing.advance sound stands.now (sub_pos.mpr later) part (by simpa using short)
    rw [add_sub_cancel, zero_mul, add_zero] at moved
    exact moved.1.trans closing.realized.symm

/-- At any other rate the whole gap takes the time that is reported, and part of that time leaves
part of the gap. -/
theorem Closing.arrives (closing : g.Closing x q v) (moving : v ≠ 0) (sound : g.Sound y) :
    g.SettlesAsReported := by
  obtain ⟨n, l, c, ρ, stands⟩ := sound.regular.stands
  have settle := closing.settle
  rw [if_neg moving] at settle
  obtain ⟨s, hs⟩ : ∃ s, s = (q - x) / v := ⟨_, rfl⟩
  have whole : v * s = q - x := by rw [hs, mul_div_cancel₀ _ moving]
  rw [← hs] at settle
  have gap : g.reserve.gap = fin (v * s) := by
    unfold Reserve.gap
    rw [closing.requested, closing.realized, fin_sub, whole]
  have positive : 0 < s := by
    have lead : 0 < v * v * s := by
      rw [mul_assoc, whole]
      exact closing.lead.lt_of_ne (mul_ne_zero moving closing.apart).symm
    exact (pos_iff_pos_of_mul_pos lead).mp (mul_self_pos.mpr moving)
  have moved {e : K} (begun : 0 < e) (inTime : e ≤ s) (short : fin (n + s) ≤ g.review) :=
    closing.advance sound stands.now begun (whole ▸ part_of_way begun.le inTime v)
      (le_trans (fin_le.mpr (add_le_add_right inTime n)) short)
  refine ⟨.inl (settle ▸ isFinite_fin s), ?_, ?_, ?_⟩
  · intro _ short
    rw [settle, stands.now, fin_add] at short ⊢
    rw [(moved positive le_rfl short).1, whole, add_sub_cancel, closing.requested]
  · intro _ short e begun early
    rw [settle, stands.now, fin_add] at short
    rw [settle, fin_lt] at early
    rw [gap, stands.now, fin_add, (moved begun early.le short).2, ← whole, fin_mul, zero_eq, fin_lt,
      ← mul_sub, mul_mul_mul_comm]
    exact mul_pos (mul_self_pos.mpr moving) (mul_pos positive (sub_pos.mpr early))
  · intro endless
    rw [settle] at endless
    cases endless

/-! ## Every run -/

/-- Numbers make for workable generators, if no limit is negative all the while. -/
theorem Sound.admits {S : Generator (Exact K) → Action (Exact K) → Prop}
    {as : List (Action (Exact K))} (sound : g.Sound y) (given : ∀ a ∈ as, a.Numeric)
    (limits : Admits LimitsNonneg S g as) : Admits Workable Suits g as := by
  induction as generalizing g with
  | nil => trivial
  | cons a as ih =>
    obtain ⟨-, now, later⟩ := limits
    have numeric := given a List.mem_cons_self
    have next := sound.act numeric
    refine ⟨⟨numeric.times, fun p hp => sound.numeric.holdTarget (numeric.powers p hp)⟩,
      next.workable now, ih next ?_ later⟩
    intro b hb
    exact given b (List.mem_cons_of_mem a hb)

/-- Whatever is done to a generator with numbers: under finite ramp limits, a gap that counts
settles as reported, if the leg in progress keeps to the ramp limits. It does where no limit has
ever been negative. -/
theorem run_settles (o : K) {as : List (Action (Exact K))} (given : ∀ a ∈ as, a.Numeric) :
    let g := (idle (fin o)).run as
    g.FiniteRamps → g.Rated ∨ Admits LimitsNonneg (fun _ _ => True) (idle (fin o)) as →
      Reserve.tolerance < magnitude g.reserve.gap → g.SettlesAsReported := by
  intro g ramps keeps wide
  have sound := (idle_sound o).run_numeric given
  have rated : g.Rated := by
    rcases keeps with rated | limits
    · exact rated
    · have start : Reaches Workable Suits (idle (fin o)) (idle (fin o)) :=
        .start ((idle_sound o).workable (idle_limitsNonneg o))
      obtain ⟨n, l, c, ρ, course⟩ := (start.run ((idle_sound o).admits given limits)).onCourse
      exact course.rated
  obtain ⟨x, q, v, closing⟩ := sound.closing ramps rated wide
  by_cases still : v = 0
  · subst still
    exact closing.rests sound
  · exact closing.arrives still sound

/-- A reserve that a ramp leaves room for, and one that it leaves none. -/
theorem run_settles_beside_ramp :
    let setup := [.setRampLimits (fin (2 : ℚ)) (fin 1), .holdReserve (fin 20),
      .add (fin 60) (fin 90), .callReserve (fin 15)]
    let g := (idle (fin (0 : ℚ))).run setup
    let h := (idle (fin (0 : ℚ))).run
      (setup ++ [.callReserve (fin 20), .clear, .add (fin 60) (fin 900)])
    (g.timeToSettle = fin 30 ∧ (g.advance (fin 30)).reserve.realized = fin 15) ∧
      h.timeToSettle = unbounded ∧ (h.advance (fin 60)).reserve.realized = fin 0 := by
  intro setup g h
  have finite : ∀ a ∈ setup ++ [.callReserve (fin 20), .clear, .add (fin 60) (fin 900)],
      ∀ v ∈ a.values, isFinite v = true := by decide +kernel
  have all : ∀ a ∈ setup ++ [.callReserve (fin 20), .clear, .add (fin 60) (fin 900)], a.Numeric :=
    fun a ha => .of_finite (finite a ha)
  have some : ∀ a ∈ setup, a.Numeric := fun a ha => all a (List.mem_append_left _ ha)
  have settles : g.SettlesAsReported :=
    run_settles 0 some (by decide +kernel) (.inr (by decide +kernel)) (by decide +kernel)
  have rests : h.SettlesAsReported :=
    run_settles 0 all (by decide +kernel) (.inr (by decide +kernel)) (by decide +kernel)
  obtain ⟨settle, now, review⟩ :
      g.timeToSettle = fin 30 ∧ g.now + fin 30 = fin 30 ∧ fin 30 ≤ g.review := by decide +kernel
  obtain ⟨endless, short⟩ : h.timeToSettle = unbounded ∧ fin 60 ≤ h.review := by decide +kernel
  have arrives := settles.arrives (settle ▸ isFinite_fin 30)
  rw [settle, now] at arrives
  have called : g.reserve.requested = fin 15 := by decide +kernel
  have none : h.reserve.realized = fin 0 := by decide +kernel
  have still := rests.rests endless 60 short
  exact ⟨⟨settle, (arrives review).trans called⟩, endless, still.trans none⟩

/-- A leg that was planned under a negative limit goes on when the limits are put right, faster than
they allow. Then no time is reported, for a reserve that moves. -/
theorem run_unsettled :
    let g := (idle (fin (0 : ℚ))).run
      [.holdReserve (fin 10), .callReserve (fin 10), .advance (fin 1), .callReserve (fin 0),
        .setMode .midpoint, .set .rampTime (fin 0), .set .ramp (fin (-1)), .add (fin 10) (fin 100),
        .add (fin 20) (fin (-1000)), .advance (fin 30), .set .ramp (fin (1 / 2))]
    g.FiniteRamps ∧ g.LimitsNonneg ∧ Reserve.tolerance < magnitude g.reserve.gap ∧
      g.timeToSettle = unbounded ∧ fin 31 ≤ g.review ∧
        (g.advance (fin 31)).reserve.realized ≠ g.reserve.realized := by
  decide +kernel

end Generator

end UnitDispatch
