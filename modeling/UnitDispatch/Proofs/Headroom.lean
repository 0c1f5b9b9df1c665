import UnitDispatch.Proofs.LookAhead
import UnitDispatch.Proofs.Recovery

/-! # Headroom for the reserve

Room for the reserve is kept by holding the powers that are made for below the power limits, and by
nothing else. So whether the output keeps to the power limits is decided when the reserve changes:
it does if committed power then leaves room for what is held available. A reserve that is cut has to
be brought down first, which a jump does not wait for, and what is left of it within the tolerance
stays.
-/

namespace UnitDispatch

open Quantity Exact

namespace Exact

variable {K : Type} [Field K] [LinearOrder K] {lo hi : Exact K} {x y z : K}

/-- A number within limits, either of which may be lifted. -/
def Within (lo hi : Exact K) (x : K) : Prop := lo ≤ fin x ∧ fin x ≤ hi

theorem Within.of_mem_uIcc (hx : Within lo hi x) (hy : Within lo hi y) (hz : z ∈ Set.uIcc x y) :
    Within lo hi z := by
  rcases Set.mem_uIcc.mp hz with ⟨low, high⟩ | ⟨low, high⟩
  · exact ⟨le_trans hx.1 (fin_le.mpr low), le_trans (fin_le.mpr high) hy.2⟩
  · exact ⟨le_trans hy.1 (fin_le.mpr low), le_trans (fin_le.mpr high) hx.2⟩

theorem fin_le_add_of_le [IsStrictOrderedRing K] {a : Exact K} {t : K} (h : fin x ≤ a)
    (hy : y ≤ x + t) : fin y ≤ a + fin t := by
  cases a with
  | fin z =>
    rw [fin_le] at h
    rw [fin_add, fin_le]
    linarith
  | posInf => exact fin_le_posInf y
  | negInf => exact (not_fin_le_negInf x h).elim
  | nan => exact (not_le_nan _ h).elim

end Exact

/-- The amounts of reserve a message wants to be held available. -/
def Message.reserves {α : Type} : Message α → List α
  | updateReserves available => [available]
  | _ => []

namespace Generator

variable {K : Type} [Field K] [LinearOrder K] {g g₀ h : Generator (Exact K)} {n l c ρ x y t : K}

/-! ## Committed power -/

/-- A power is within the limits, less what is available of the reserve. -/
def Fits (g : Generator (Exact K)) (c : K) : Prop :=
  Within g.envelope.powerMin (g.envelope.powerMax - g.reserve.available) c

theorem Fits.congr (fits : g.Fits c) (envelope : h.envelope = g.envelope)
    (available : h.reserve.available = g.reserve.available) : h.Fits c := by
  unfold Fits
  rw [envelope, available]
  exact fits

theorem Fits.of_same (fits : g.Fits c) (same : SameSettings g h) : h.Fits c :=
  fits.congr same.envelope same.available

/-- If some power is within the limits, so is every power that is held as it is. -/
theorem Fits.of_held (fits : g.Fits c) {w : K} (held : g.holdTarget (fin w) = fin w) :
    g.Fits w := by
  obtain ⟨w', held', least, most, -⟩ := limit_toward fits.1 fits.2 w
  obtain rfl : w = w' := fin.inj (held.symm.trans held')
  exact ⟨least, most⟩

variable [IsStrictOrderedRing K]

/-- No leg leaves the limits. -/
theorem Fits.moveTo (fits : g.Fits c) (course : g.OnCourse n l c ρ) {s : K} (hs : n ≤ s)
    (short : fin s ≤ g.review) : g.Fits (c + ρ * (s - n)) := by
  rcases course.toward hs short with rfl | ⟨w, held, part⟩
  · rwa [zero_mul, add_zero]
  · exact fits.of_mem_uIcc (fits.of_held held) part

/-! ## Committed power and reserve -/

/-- Committed power is within the limits of `g₀`, and with the reserve delivered it makes `R`
true. -/
def Holding (g₀ : Generator (Exact K)) (R : K → K → Prop) (g : Generator (Exact K)) : Prop :=
  ∃ c y, g.committed = fin c ∧ g.reserve.realized = fin y ∧ g₀.Fits c ∧ R c y

/-- More of the reserve is delivered than is called for, by more than the tolerance: then the output
does not rise, unless the reserve is there at once. -/
theorem reserveAfter_fall {q dt : K} (down : 0 ≤ g.envelope.rampDown) (rate : g.rate = fin ρ)
    (realized : g.reserve.realized = fin y) (requested : g.reserve.requested = fin q)
    (excess : q + 1 / 10 ^ 3 < y) (ht : 0 < dt) :
    g.reserveAfter (fin dt) = fin q ∨
      ∃ z, g.reserveAfter (fin dt) = fin z ∧ ρ * dt + z ≤ y := by
  have narrow : (0 : K) < 1 / 10 ^ 3 := by positivity
  rw [reserveAfter_eq rate realized requested, if_neg (by linarith), if_pos (by linarith)]
  obtain ⟨d, hd, fall⟩ | ⟨-, fall⟩ :=
    reserve_fall (x := y) (ρ := ρ) (q := q) (negInf_lt_of_nonneg down) ht
  · rw [hd, zero_eq, fin_le] at down
    rw [fall]
    rcases max_choice (y + (-d - ρ) * dt) q with rest | there
    · rw [rest]
      refine .inr ⟨_, rfl, ?_⟩
      linarith [mul_nonneg down ht.le]
    · rw [there]
      exact .inl rfl
  · exact .inl fall

section Kept

variable {R : K → K → Prop}

/-- A revision of the plan keeps what does not mind a jump to another power within the limits, or
anything at all where there are no jumps. -/
theorem holding_keptByPlans
    (jump : g₀.FiniteRamps ∨ ∀ {c y w}, g₀.Fits w → R c y → R w y) :
    KeptByPlans g₀ (Holding g₀ R) where
  stable := by
    rintro g h same ⟨c, y, committed, realized, holds⟩
    exact ⟨c, y, same.committed.trans committed, same.realized.trans realized, holds⟩
  replan := by
    rintro h n l c₀ ρ same ready workable ⟨c, y, committed, realized, fits, holds⟩
    rcases jump with ramps | jump
    · obtain ⟨u, up⟩ := isFinite_iff.mp ramps.up
      obtain ⟨d, down⟩ := isFinite_iff.mp ramps.down
      have limits : g₀.Ramps u d := ⟨up, down⟩
      have power := (limits.of_same same).replan ready workable
      exact ⟨c, y, power.committed.trans committed, power.realized.trans realized, fits, holds⟩
    · obtain rfl : c = c₀ := fin.inj (committed.symm.trans ready.stands.committed)
      have revises := replan_revises ready.regular workable.proper ready.stands
      generalize h.replan = k at revises ⊢
      cases revises with
      | ahead | next | carry => exact ⟨c, y, committed, realized, fits, holds⟩
      | @jump p w due held =>
        have fits' : g₀.Fits w :=
          ((fits.of_same same).of_held (holdTarget_fin held)).of_same same.symm
        refine ⟨w, y, ?_, realized, fits', jump fits' holds⟩
        change h.committed + fin (w - c) = fin w
        rw [committed, fin_add, add_sub_cancel]

/-- A leg brings committed power to another power within the limits and the reserve nearer to what is
called for. -/
theorem holding_keptByLegs
    (jump : g₀.FiniteRamps ∨ ∀ {c y w}, g₀.Fits w → R c y → R w y)
    (requested : ∃ q, g₀.reserve.requested = fin q)
    (leg : ∀ {c y c' z q}, g₀.Fits c' → g₀.reserve.requested = fin q → z ∈ Set.uIcc y q →
      (q + 1 / 10 ^ 3 < y → z = q ∨ c' + z ≤ c + y) → R c y → R c' z) :
    KeptByLegs g₀ t (Holding g₀ R) where
  replan := by
    intro h n l c ρ same ready workable _ holds
    exact (holding_keptByPlans jump).replan same ready workable holds
  move := by
    rintro h n l c₀ ρ s same course workable ⟨c, y, committed, realized, fits, holds⟩ ahead short -
    obtain rfl : c = c₀ := fin.inj (committed.symm.trans course.stands.committed)
    obtain ⟨q, hq⟩ := requested
    have asked := same.requested.trans hq
    have fits' := ((fits.of_same same).moveTo course ahead.le short).of_same same.symm
    obtain ⟨z, hz, between, -⟩ := reserveAfter_rated workable.proper course.rated
      course.stands.rate realized asked (sub_pos.mpr ahead)
    refine ⟨c + ρ * (s - n), z, (course.stands.moveTo ahead.le).committed, ?_, fits',
      leg fits' hq between ?_ holds⟩
    · rw [moveTo_realized course.stands.now ahead, hz]
    · intro excess
      rcases reserveAfter_fall workable.rampDown course.stands.rate realized asked excess
        (sub_pos.mpr ahead) with there | ⟨z', hz', fall⟩
      · exact .inl (fin.inj (hz.symm.trans there))
      · obtain rfl : z = z' := fin.inj (hz.symm.trans hz')
        exact .inr (by linarith)

/-- What jumps and legs keep, every action keeps. -/
theorem Holding.act {a : Action (Exact K)} (holds : Holding g R g)
    (jump : g.FiniteRamps ∨ ∀ {c y w}, g.Fits w → R c y → R w y)
    (leg : ∀ {c y c' z q}, g.Fits c' → g.reserve.requested = fin q → z ∈ Set.uIcc y q →
      (q + 1 / 10 ^ 3 < y → z = q ∨ c' + z ≤ c + y) → R c y → R c' z)
    (course : g.OnCourse n l c ρ) (sound : g.Sound x) (limits : g.LimitsNonneg)
    (given : a.Numeric) (after : (g.act a).LimitsNonneg) :
    (∃ n l c ρ, (g.act a).OnCourse n l c ρ) ∧ Holding g R (g.act a) := by
  have workable := sound.workable limits
  have suits : g.Suits a :=
    ⟨given.times, fun p hp => sound.numeric.holdTarget (given.powers p hp)⟩
  refine course.act workable suits ((sound.act given).workable after) (holding_keptByPlans jump)
    holds ?_
  intro t named
  subst named
  obtain ⟨t, rfl⟩ := isFinite_iff.mp (suits.times t List.mem_cons_self)
  obtain ⟨_, _, _, _, still⟩ := course.advance workable
    (holding_keptByLegs jump (isFinite_iff.mp sound.numeric.reserve.requested) leg) holds
  exact still

end Kept

/-! ## Room for the reserve -/

/-- With `y` of the reserve delivered beside a committed power of `c`, the output is within the
limits, but for the tolerance. Where power can jump, no more is delivered than is available. -/
structure Spares (g : Generator (Exact K)) (c y : K) : Prop where
  nonneg : 0 ≤ y
  total : fin (c + y) ≤ g.envelope.powerMax + Reserve.tolerance
  delivered : g.FiniteRamps ∨ fin y ≤ g.reserve.available + Reserve.tolerance

omit [IsStrictOrderedRing K] in
theorem Spares.congr {c : K} (spares : g.Spares c y) (envelope : h.envelope = g.envelope)
    (available : h.reserve.available = g.reserve.available) : h.Spares c y where
  nonneg := spares.nonneg
  total := envelope ▸ spares.total
  delivered := by
    rw [available]
    refine spares.delivered.imp_left ?_
    rintro ⟨up, down⟩
    exact ⟨envelope ▸ up, envelope ▸ down⟩

omit [IsStrictOrderedRing K] in
/-- What is called of a reserve that is a number. -/
theorem Numeric.called (numeric : g.Numeric) (called : g.reserve.Called) :
    ∃ q a, g.reserve.requested = fin q ∧ g.reserve.available = fin a ∧ 0 ≤ q ∧ q ≤ a := by
  obtain ⟨q, hq⟩ := isFinite_iff.mp numeric.reserve.requested
  obtain ⟨a, ha⟩ := isFinite_iff.mp numeric.reserve.available
  have nonneg := called.nonneg
  have most := called.le_available
  rw [hq, zero_eq, fin_le] at nonneg
  rw [hq, ha, fin_le] at most
  exact ⟨q, a, hq, ha, nonneg, most⟩

theorem Numeric.spares_jump (numeric : g.Numeric) :
    g.FiniteRamps ∨ ∀ {c y w}, g.Fits w → g.Spares c y → g.Spares w y := by
  obtain ⟨a, ha⟩ := isFinite_iff.mp numeric.reserve.available
  refine Decidable.or_iff_not_imp_left.mpr ?_
  intro unlimited _ _ w fits spares
  have delivered := spares.delivered.resolve_left unlimited
  have most := fits.2
  rw [ha] at most
  rw [ha, Reserve.tolerance_eq, fin_add, fin_le] at delivered
  refine ⟨spares.nonneg, ?_, spares.delivered⟩
  rw [Reserve.tolerance_eq]
  exact fin_le_add_of_le (fin_add_le_of_le_sub most) (by linarith)

/-- Along a leg the output stays within the limits: either it does not rise, or what is delivered of
the reserve is no more than what is called for, but for the tolerance. -/
theorem Numeric.spares_leg {c c' y z q : K} (numeric : g.Numeric) (called : g.reserve.Called)
    (fits : g.Fits c') (requested : g.reserve.requested = fin q) (between : z ∈ Set.uIcc y q)
    (fall : q + 1 / 10 ^ 3 < y → z = q ∨ c' + z ≤ c + y) (spares : g.Spares c y) :
    g.Spares c' z := by
  obtain ⟨q', a, hq, ha, nonneg, most⟩ := numeric.called called
  obtain rfl : q = q' := fin.inj (requested.symm.trans hq)
  have total := spares.total
  have delivered := spares.delivered
  have room := fits.2
  rw [ha] at room
  rw [ha, Reserve.tolerance_eq, fin_add, fin_le] at delivered
  rw [Reserve.tolerance_eq] at total
  have high : z ≤ max y q := (Set.mem_Icc.mp between).2
  have narrow : (0 : K) < 1 / 10 ^ 3 := by positivity
  refine ⟨(le_min spares.nonneg nonneg).trans (Set.mem_Icc.mp between).1, ?_, ?_⟩
  · rw [Reserve.tolerance_eq]
    have called : z ≤ a + 1 / 10 ^ 3 → fin (c' + z) ≤ g.envelope.powerMax + fin (1 / 10 ^ 3) := by
      intro le
      exact fin_le_add_of_le (fin_add_le_of_le_sub room) (by linarith)
    rcases lt_or_ge (q + 1 / 10 ^ 3) y with excess | close
    · rcases fall excess with rfl | fall
      · exact called (by linarith)
      · exact le_trans (fin_le.mpr fall) total
    · exact called (high.trans (max_le (by linarith) (by linarith)))
  · rw [ha, Reserve.tolerance_eq, fin_add, fin_le]
    refine delivered.imp_right ?_
    intro le
    exact high.trans (max_le le (by linarith))

/-! ## Messages from a dispatch centre -/

section Messages

variable {α : Type} [Quantity α]

/-- An action that changes neither the limits nor what is available of the reserve. -/
def Action.keepsLimits : Action α → Bool
  | .holdReserve _ | .set _ _ | .setKey _ _ | .setRampLimits _ _ | .setPowerLimits _ _
  | .receive (.updateReserves _) => false
  | _ => true

theorem act_keepsLimits {g : Generator α} {a : Action α} (keeps : a.keepsLimits = true) :
    (g.act a).envelope = g.envelope ∧ (g.act a).reserve.available = g.reserve.available := by
  rcases act_settings g a with same | ⟨h, change, planned⟩
  · exact ⟨same.envelope, same.available⟩
  · have same := replan_sameSettings h
    rw [planned, same.envelope, same.available]
    cases a with
    | setText key value =>
      obtain ⟨mode, rfl⟩ := reword_eq_some change
      exact ⟨rfl, rfl⟩
    | receive message =>
      cases message <;> cases keeps <;> cases change
      exact ⟨rfl, rfl⟩
    | _ => cases keeps <;> cases change <;> exact ⟨rfl, rfl⟩

/-- Committed power leaves room for what is to be held available and, where power can jump, no more
is delivered than that. -/
structure LeavesRoom (g : Generator α) (available : α) : Prop where
  power : g.committed ≤ g.envelope.powerMax - greater available 0
  delivered : g.FiniteRamps ∨ g.reserve.realized ≤ greater available 0

instance (g : Generator α) (available : α) : Decidable (g.LeavesRoom available) :=
  decidable_of_iff (g.committed ≤ g.envelope.powerMax - greater available 0 ∧
      (g.FiniteRamps ∨ g.reserve.realized ≤ greater available 0))
    ⟨fun ⟨p, d⟩ => ⟨p, d⟩, fun ⟨p, d⟩ => ⟨p, d⟩⟩

/-- The numbers of a message are finite, and there is room for the reserve it asks for. -/
structure Accepts (g : Generator α) (message : Message α) : Prop where
  finite : ∀ v ∈ message.values, isFinite v = true
  room : ∀ v ∈ message.reserves, g.LeavesRoom v

instance (g : Generator α) (message : Message α) : Decidable (g.Accepts message) :=
  decidable_of_iff ((∀ v ∈ message.values, isFinite v = true) ∧
      ∀ v ∈ message.reserves, g.LeavesRoom v)
    ⟨fun ⟨f, r⟩ => ⟨f, r⟩, fun ⟨f, r⟩ => ⟨f, r⟩⟩

/-- An advance to some time, or a message that is accepted. -/
inductive Obeys (g : Generator α) : Action α → Prop
  | advance {time : α} (finite : isFinite time = true) : Obeys g (.advance time)
  | receive {message : Message α} (accepts : g.Accepts message) : Obeys g (.receive message)

instance (g : Generator α) : (a : Action α) → Decidable (g.Obeys a)
  | .advance time => decidable_of_iff (isFinite time = true) ⟨.advance, fun | .advance h => h⟩
  | .receive message => decidable_of_iff (g.Accepts message) ⟨.receive, fun | .receive h => h⟩
  | .start _ | .add _ _ | .addNow _ | .addAll _ _ | .clear | .callReserve _ | .holdReserve _
  | .set _ _ | .setKey _ _ | .setMode _ | .setText _ _ | .setRampLimits _ _
  | .setPowerLimits _ _ => isFalse nofun

omit [Quantity α] in
theorem Obeys.numeric {K : Type} [Field K] [LinearOrder K] {g : Generator (Exact K)}
    {a : Action (Exact K)} (obeys : g.Obeys a) : a.Numeric := by
  cases obeys with
  | advance finite =>
    intro v hv
    obtain rfl := List.mem_singleton.mp hv
    exact finite
  | receive accepts => exact accepts.finite

end Messages

/-- On course, with room for the reserve beside committed power. -/
structure Roomy (g : Generator (Exact K)) : Prop where
  course : ∃ n l c ρ, g.OnCourse n l c ρ
  sound : g.Sound 0
  room : Holding g g.Spares g

/-- With room left for it, the reserve held available may change. -/
theorem Roomy.holdReserve (roomy : g.Roomy) {v : Exact K} (finite : isFinite v = true)
    (leaves : g.LeavesRoom v) (after : (g.holdReserve v).LimitsNonneg) :
    (g.holdReserve v).Roomy := by
  obtain ⟨n, l, c₀, ρ, course⟩ := roomy.course
  obtain ⟨c, y, committed, realized, fits, spares⟩ := roomy.room
  have still : (g.holdReserve v).Sound 0 := by
    refine roomy.sound.act (a := .holdReserve v) ?_
    intro w hw
    obtain rfl := List.mem_singleton.mp hw
    exact finite
  obtain ⟨⟨v', course'⟩, power⟩ :=
    course.configure (a := .holdReserve v) rfl (still.workable after)
  have same := replan_sameSettings { g with reserve := g.reserve.hold v }
  have envelope : (g.holdReserve v).envelope = g.envelope := same.envelope
  have available : (g.holdReserve v).reserve.available = greater v 0 := same.available
  refine ⟨⟨n, l, c₀, v', course'⟩, still, c, y, power.committed.trans committed,
    power.realized.trans realized, ⟨?_, ?_⟩, spares.nonneg, ?_, ?_⟩
  · rw [envelope]
    exact fits.1
  · rw [envelope, available, ← committed]
    exact leaves.power
  · rw [envelope]
    exact spares.total
  · rw [available, Reserve.tolerance_eq]
    rcases leaves.delivered with ⟨up, down⟩ | most
    · exact .inl ⟨envelope ▸ up, envelope ▸ down⟩
    · rw [realized] at most
      exact .inr (fin_le_add_of_le most (le_add_of_nonneg_right (by positivity)))

theorem Roomy.act {a : Action (Exact K)} (roomy : g.Roomy) (limits : g.LimitsNonneg)
    (obeys : g.Obeys a) (after : (g.act a).LimitsNonneg) : (g.act a).Roomy := by
  have other (keeps : a.keepsLimits = true) : (g.act a).Roomy := by
    obtain ⟨n, l, c, ρ, course⟩ := roomy.course
    have numeric := roomy.sound.numeric
    obtain ⟨course', c, y, committed, realized, fits, spares⟩ := roomy.room.act numeric.spares_jump
      (numeric.spares_leg course.called) course roomy.sound limits obeys.numeric after
    obtain ⟨envelope, available⟩ := act_keepsLimits keeps
    exact ⟨course', roomy.sound.act obeys.numeric, c, y, committed, realized,
      fits.congr envelope available, spares.congr envelope available⟩
  cases obeys with
  | advance => exact other rfl
  | @receive message accepts =>
    cases message with
    | updateReserves v =>
      exact roomy.holdReserve (accepts.finite v List.mem_cons_self)
        (accepts.room v List.mem_cons_self) after
    | _ => exact other rfl

/-! ## Every history -/

/-- Within the power limits, less what is available of the reserve, with none of it delivered, and at
a rate within the ramp limits. -/
structure AtEase (g : Generator (Exact K)) : Prop where
  rated : g.Rated
  low : g.envelope.powerMin ≤ g.committed
  high : g.committed ≤ g.envelope.powerMax - g.reserve.available
  unused : g.reserve.realized = 0

omit [IsStrictOrderedRing K] in
theorem AtEase.fits (ease : g.AtEase) (stands : g.At n l c ρ) : g.Fits c := by
  refine ⟨?_, ?_⟩ <;> rw [← stands.committed]
  · exact ease.low
  · exact ease.high

theorem Historic.roomy (historic : g.Historic 0) (limits : g.LimitsNonneg) (ease : g.AtEase) :
    g.Roomy := by
  obtain ⟨n, l, c, ρ, course⟩ := historic.onCourse limits ease.rated
  obtain ⟨q, a, -, ha, nonneg, most⟩ := historic.sound.numeric.called course.called
  have fits := ease.fits course.stands
  have room := fits.2
  have narrow : (0 : K) < 1 / 10 ^ 3 := by positivity
  rw [ha] at room
  refine ⟨⟨n, l, c, ρ, course⟩, historic.sound, c, 0, course.stands.committed,
    ease.unused.trans zero_eq, fits, le_rfl, ?_, .inr ?_⟩
  · rw [Reserve.tolerance_eq]
    exact fin_le_add_of_le (fin_add_le_of_le_sub room) (by linarith)
  · rw [ha, Reserve.tolerance_eq, fin_add, fin_le]
    linarith

/-- A generator at ease never leaves its power limits by more than the tolerance, and not at all
unless more of the reserve is delivered than is available: whatever it is told to make for and to
call on, as long as committed power leaves room for the reserve when that changes, and no limit gets
negative. -/
theorem output_within_limits {o : K} {setup : List (Action (Exact K))}
    (numeric : ∀ a ∈ setup, a.Numeric) (ease : ((idle (fin o)).run setup).AtEase)
    (reaches : Reaches LimitsNonneg Obeys ((idle (fin o)).run setup) g) :
    g.envelope.powerMin ≤ g.output ∧ g.output ≤ g.envelope.powerMax + Reserve.tolerance ∧
      (g.reserve.realized ≤ g.reserve.available → g.output ≤ g.envelope.powerMax) := by
  have roomy : g.Roomy := by
    induction reaches with
    | start limits => exact ((idle_historic o).run numeric).roomy limits ease
    | act before obeys after ih => exact ih.act before.holds obeys after
  obtain ⟨a, ha⟩ := isFinite_iff.mp roomy.sound.numeric.reserve.available
  obtain ⟨c, y, committed, realized, fits, spares⟩ := roomy.room
  obtain ⟨c', y', carries⟩ := roomy.sound.balanced
  obtain rfl : c = c' := fin.inj (committed.symm.trans carries.committed)
  obtain rfl : y = y' := fin.inj (realized.symm.trans carries.realized)
  have room := fits.2
  rw [ha] at room
  rw [carries.output, add_zero, realized, ha]
  refine ⟨le_trans fits.1 (fin_le.mpr (le_add_of_nonneg_right spares.nonneg)), spares.total, ?_⟩
  intro within
  exact le_trans (fin_le.mpr (add_le_add_right (fin_le.mp within) c)) (fin_add_le_of_le_sub room)

/-- A reserve cut to less than is delivered, while a power beyond the limits is made for. -/
theorem output_within_limits_cut :
    let g := ((idle (fin (40 : ℚ))).run [.setPowerLimits 0 100, .setRampLimits 2 1]).run
      [.receive (.updateReserves 30), .receive (.useReserve 30), .advance 20,
        .receive (.addTargets [80] [130]), .receive (.updateReserves 10), .advance 60,
        .advance 100]
    g.reserve.realized = 10 ∧ 0 ≤ g.output ∧ g.output ≤ 100 := by
  intro g
  have setup : ∀ a ∈ [Action.setPowerLimits (0 : Exact ℚ) 100, .setRampLimits 2 1],
      ∀ v ∈ a.values, isFinite v = true := by decide +kernel
  have start : Reaches LimitsNonneg Obeys
      ((idle (fin (40 : ℚ))).run [.setPowerLimits 0 100, .setRampLimits 2 1]) _ :=
    .start (by decide +kernel)
  have reaches : Reaches LimitsNonneg Obeys _ g := start.run (by decide +kernel)
  obtain ⟨low, -, high⟩ := output_within_limits (fun a ha => .of_finite (setup a ha))
    ⟨⟨by decide +kernel, by decide +kernel⟩, by decide +kernel, by decide +kernel,
      by decide +kernel⟩ reaches
  have least : g.envelope.powerMin = 0 := by decide +kernel
  have most : g.envelope.powerMax = 100 := by decide +kernel
  exact ⟨by decide +kernel, least ▸ low, most ▸ high (by decide +kernel)⟩

/-- What it takes to stay within the limits. A reserve is called on where committed power leaves no
room for it; a target is made for with no upward ramp limit left beside the reserve; a reserve is cut
within the tolerance of what is delivered; and power jumps while more of the reserve is delivered
than is available. -/
theorem leaves_limits :
    let limited (o : ℚ) (ramp : Exact ℚ) :=
      (idle (fin o)).run [.setPowerLimits 0 100, .setRampLimits ramp ramp]
    let called := (limited 95 10).run
      [.receive (.updateReserves 20), .receive (.useReserve 20), .advance 10]
    let backward := (limited 50 (fin (1 / 1000))).run
      [.receive (.updateReserves 10), .receive (.addTargets [200000] [90]), .advance 100000]
    let close := (limited 80 10).run
      [.receive (.updateReserves 20), .receive (.useReserve 20), .advance 10,
        .receive (.updateReserves (fin (199995 / 10000))), .receive (.addTargets [20] [100]),
        .advance 20]
    let jump := (limited 40 posInf).run
      [.receive (.updateReserves 50), .receive (.useReserve 50), .advance 1,
        .receive (.updateReserves 0), .receive (.addTargets [1] [100])]
    called.output = 115 ∧ backward.output = -50 ∧ close.output = fin (1000005 / 10000) ∧
      jump.output = 150 := by
  decide +kernel

end Generator

end UnitDispatch
