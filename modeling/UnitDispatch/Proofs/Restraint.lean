import UnitDispatch.Proofs.Arithmetic
import UnitDispatch.Proofs.Revision

/-! # Rates within the limits

As long as no limit is negative, every leg that is planned keeps within the ramp limits, and so does
a rate that goes on from the leg before, if that one did. Nothing here is exact: it rests on the
laws of `Rounded` alone. `Leeway` is what is asked of the limits, `Leeway.replan` what it comes to.
-/

namespace UnitDispatch

open Quantity

/-- A rate within the ramp limits. -/
@[mk_iff] structure Envelope.Allows {α : Type} [Quantity α] (e : Envelope α) (rate : α) : Prop where
  down : -e.rampDown ≤ rate
  up : rate ≤ e.rampUp

instance {α : Type} [Quantity α] (e : Envelope α) (rate : α) : Decidable (e.Allows rate) :=
  decidable_of_iff' _ (e.allows_iff rate)

namespace Generator

variable {α : Type} [Quantity α] [Rounded α] {g h : Generator α}

/-- What is kept for the reserve never raises the upward limit. -/
theorem rampLimitUp_le (called : g.reserve.Called) (limitUp : 0 ≤ g.rampLimitUp) :
    g.rampLimitUp ≤ g.envelope.rampUp := by
  have defined := (Signed.defined_of_le limitUp).2
  unfold rampLimitUp at defined ⊢
  dsimp only at defined ⊢
  split at defined
  next none =>
    rw [if_pos none]
    exact Ordered.le_refl defined
  next kept =>
    rw [if_neg kept]
    have positive : ¬ g.reserve.rampTime ≤ 0 := fun le => kept (.inr le)
    have share := Rounded.defined_of_sub_right defined
    have unused := Rounded.sub_nonneg called.le_available (Rounded.defined_of_div share)
    exact Rounded.sub_le (Rounded.div_nonneg_of_defined unused positive share) defined

/-- No ramp limit is negative, and no more is called for than is available. -/
structure Leeway (g : Generator α) : Prop where
  up : 0 ≤ g.envelope.rampUp
  down : 0 ≤ g.envelope.rampDown
  limitUp : 0 ≤ g.rampLimitUp
  called : g.reserve.Called

omit [Rounded α] in
theorem LimitsNonneg.leeway (limits : g.LimitsNonneg) (called : g.reserve.Called) : g.Leeway :=
  ⟨limits.rampUp, limits.rampDown, limits.limitUp, called⟩

omit [Rounded α] in
theorem Leeway.of_same (leeway : g.Leeway) (same : SameSettings g h) : h.Leeway where
  up := by rw [same.envelope]; exact leeway.up
  down := by rw [same.envelope]; exact leeway.down
  limitUp := by rw [same.rampLimitUp]; exact leeway.limitUp
  called := same.called leeway.called

/-- At rest a generator is within its limits. -/
theorem Leeway.rest (leeway : g.Leeway) : g.envelope.Allows 0 :=
  ⟨Signed.neg_nonpos leeway.down, leeway.up⟩

/-- Every mode keeps its leg within the limits. -/
theorem Leeway.nextLeg (leeway : g.Leeway) : g.envelope.Allows g.nextLeg.rate := by
  unfold Generator.nextLeg
  split
  · exact leeway.rest
  · dsimp only
    split
    · exact leeway.rest
    · rcases g.mode.leg_rate (α := α) _ with rest | ⟨x, hold⟩
      · rw [rest]
        exact leeway.rest
      · rw [hold]
        have low := Signed.neg_nonpos leeway.down
        obtain ⟨least, most⟩ := Ordered.limit_mem (Signed.defined_of_le low).1
          (Signed.defined_of_le leeway.limitUp).2 (Ordered.le_trans low leeway.limitUp) x
        exact ⟨least, Ordered.le_trans most (rampLimitUp_le leeway.called leeway.limitUp)⟩

/-- The rate at which a setpoint is caught up with is within the limits, if the rate in progress
is. -/
theorem Leeway.catchupRate (leeway : g.Leeway) (allows : g.envelope.Allows g.rate) (lack : α) :
    g.envelope.Allows (g.catchupRate lack) := by
  have rest := leeway.rest
  unfold Generator.catchupRate
  -- the rate in progress, what the reserve leaves of the upward limit, or one limit or the other
  split_ifs
  · exact allows
  · exact ⟨Ordered.le_trans rest.down leeway.limitUp, rampLimitUp_le leeway.called leeway.limitUp⟩
  · exact ⟨Ordered.le_trans rest.down leeway.up,
      Ordered.le_refl (Signed.defined_of_le leeway.up).2⟩
  · exact ⟨Ordered.le_refl (Signed.defined_of_le rest.down).1,
      Ordered.le_trans rest.down leeway.up⟩

/-- Revising the plan leaves a rate within the limits, if it was, or if nothing is due. -/
theorem Leeway.replan (leeway : g.Leeway) (steady : g.envelope.Allows g.rate ∨
    ∀ p ∈ g.schedule.setpoints, g.now < p.time) : g.envelope.Allows g.replan.rate := by
  rcases steady with allows | ahead
  · unfold Generator.replan
    split
    · exact leeway.nextLeg
    next p _ =>
      have taken : g.takeDue.Leeway := leeway.of_same ⟨rfl, rfl, rfl, rfl, rfl, rfl⟩
      have settles := g.takeDue.settle_settles p.power
      generalize g.takeDue.settle p.power = h at settles ⊢
      cases settles with
      | delivered | overtaken | stuck => exact taken.nextLeg
      | carry _ ramp =>
        obtain ⟨rfl, -, -⟩ := eq_of_catchup_ramp ramp
        exact taken.catchupRate allows _
      | jump => exact (taken.of_same (jump_samePlant _ _).sameSettings).nextLeg
  · rw [replan_of_ahead ahead]
    exact leeway.nextLeg

end Generator

end UnitDispatch
