import UnitDispatch.Proofs.PowerBalance
import UnitDispatch.Proofs.RampLimits

/-! # Looking ahead

A prediction reads the output at a later time off the leg in progress, without a plan of its own.
Up to and at the next review it is the output that an advance arrives at, of a generator and of a
regulated unit alike, whatever has been done to them before.
-/

namespace UnitDispatch

open Quantity Exact

namespace Generator

section

variable {α : Type} [Quantity α]

/-- The ramp limits in force are numbers. -/
structure FiniteRamps (g : Generator α) : Prop where
  up : isFinite g.envelope.rampUp = true
  down : isFinite g.envelope.rampDown = true

instance (g : Generator α) : Decidable g.FiniteRamps :=
  decidable_of_iff (isFinite g.envelope.rampUp = true ∧ isFinite g.envelope.rampDown = true)
    ⟨fun ⟨u, d⟩ => ⟨u, d⟩, fun ⟨u, d⟩ => ⟨u, d⟩⟩

/-- Up to the next review, what is predicted is a number, and the output that an advance arrives
at. -/
def LooksAhead (g : Generator α) : Prop :=
  ∀ t, isFinite t = true → g.now < t → t ≤ g.review →
    isFinite (g.predict t) = true ∧ g.predict t = (g.advance t).output

variable {g : Generator α} {time : α}

/-- A prediction follows the leg in progress. -/
theorem predict_eq_moveTo (g : Generator α) (time : α) :
    g.predict time = (g.moveTo time).output := by
  unfold predict moveTo
  dsimp only
  split <;> rfl

theorem legsTo_of_not_due (later : ¬ g.review ≤ time) (fuel : Nat) : legsTo time fuel g = g := by
  cases fuel with
  | zero => rfl
  | succ fuel => exact if_neg later

/-- A review at the very time is the last one gone through. -/
theorem legsTo_of_arrived (due : g.review ≤ time) (arrived : g.leg.now = time) (fuel : Nat) :
    legsTo time (fuel + 1) g = g.leg := by
  unfold legsTo
  rw [if_pos due]
  dsimp only
  split
  · rfl
  next ahead => exact legsTo_of_not_due (arrived ▸ ahead) fuel

end

variable {K : Type} [Field K] [LinearOrder K] {g : Generator (Exact K)} {n x t : K}

theorem Numeric.rampLimitUp_isFinite (numeric : g.Numeric)
    (up : isFinite g.envelope.rampUp = true) : isFinite g.rampLimitUp = true := by
  obtain ⟨u, hu⟩ := isFinite_iff.mp up
  rcases numeric.rampLimitUp_eq with whole | ⟨z, less⟩
  · rw [whole]
    exact up
  · rw [less, hu, fin_sub]
    exact isFinite_fin _

variable [IsStrictOrderedRing K]

/-- Under finite ramp limits a revision of the plan does not touch the output. -/
theorem Sound.replan_output (sound : g.Sound x) (ramps : g.FiniteRamps) :
    g.replan.output = g.output := by
  obtain ⟨u, up⟩ := isFinite_iff.mp ramps.up
  obtain ⟨d, down⟩ := isFinite_iff.mp ramps.down
  have limits : g.Ramps u d := ⟨up, down⟩
  exact (limits.replan_samePower (sound.numeric.rampLimitUp_isFinite ramps.up) sound.regular
    sound.proper).output

/-- Short of the review an advance only moves along the leg; at the review it revises the plan as
well. -/
theorem Sound.advance_eq_or (sound : g.Sound x) (ahead : g.now < fin t) (short : fin t ≤ g.review) :
    g.advance (fin t) = g.moveTo (fin t) ∨ g.advance (fin t) = (g.moveTo (fin t)).replan := by
  obtain ⟨n, l, c, ρ, stands⟩ := sound.regular.stands
  rw [stands.now, fin_lt] at ahead
  unfold Generator.advance
  rw [if_neg (by simpa [stands.now] using ahead)]
  by_cases due : g.review ≤ fin t
  · right
    have review : g.review = fin t := by
      cases h : g.review with
      | fin r =>
        rw [h, fin_le] at short due
        exact congrArg fin (le_antisymm due short)
      | posInf => exact (not_posInf_le_fin t (h ▸ due)).elim
      | negInf => exact (not_fin_le_negInf t (h ▸ short)).elim
      | nan => exact (not_le_nan _ (h ▸ short)).elim
    have leg : g.leg = (g.moveTo (fin t)).replan := by
      unfold Generator.leg
      rw [review]
    have arrived : g.leg.now = fin t := by
      rw [leg]
      exact (replan_samePlant _).now.trans (stands.moveTo ahead.le).now
    have last : Generator.legsTo (fin t) g.legBound g = g.leg := legsTo_of_arrived due arrived _
    rw [last, moveTo_of_past arrived le_rfl, leg]
  · left
    rw [legsTo_of_not_due due]

theorem Sound.advance_output (sound : g.Sound x) (ramps : g.FiniteRamps) (ahead : g.now < fin t)
    (short : fin t ≤ g.review) : (g.advance (fin t)).output = (g.moveTo (fin t)).output := by
  rcases sound.advance_eq_or ahead short with moves | revises
  · rw [moves]
  · rw [revises]
    have same := moveTo_sameSettings g (fin t)
    exact (sound.moveTo t).replan_output ⟨same.envelope ▸ ramps.up, same.envelope ▸ ramps.down⟩

theorem Sound.looksAhead (sound : g.Sound x) (ramps : g.FiniteRamps) : g.LooksAhead := by
  intro t finite ahead short
  obtain ⟨t, rfl⟩ := isFinite_iff.mp finite
  rw [predict_eq_moveTo]
  refine ⟨?_, (sound.advance_output ramps ahead short).symm⟩
  obtain ⟨c, y, carries⟩ := (sound.moveTo t).balanced
  rw [carries.output]
  exact isFinite_fin _

end Generator

namespace RegulatedUnit

/-- Up to the next review, what is predicted is a number, and the output that an advance arrives
at. -/
def LooksAhead {α : Type} [Quantity α] (u : RegulatedUnit α) : Prop :=
  ∀ t, isFinite t = true → u.generator.now < t → t ≤ u.generator.review →
    isFinite (u.predict t) = true ∧ u.predict t = (u.advance t).generator.output

variable {K : Type} [Field K] [LinearOrder K] [IsStrictOrderedRing K] {u : RegulatedUnit (Exact K)}

/-- Without the regulation delivered so far, what a generator predicts is its own power at that
time. -/
theorem Sound.predict_sub_current (sound : u.Sound) (ramps : u.generator.FiniteRamps) {t : K}
    (ahead : u.generator.now < fin t) (short : fin t ≤ u.generator.review) :
    u.generator.predict (fin t) - u.current = (u.generator.advance (fin t)).base := by
  obtain ⟨x, current, generator⟩ := sound.generator
  obtain ⟨-, predicted⟩ := generator.looksAhead ramps (fin t) (isFinite_fin t) ahead short
  obtain ⟨c, y, carries⟩ := (generator.advance t).balanced
  rw [predicted, carries.output, current, carries.base, fin_sub, add_sub_cancel_right]

theorem Sound.looksAhead (sound : u.Sound) (ramps : u.generator.FiniteRamps) : u.LooksAhead := by
  intro t finite ahead short
  obtain ⟨t, rfl⟩ := isFinite_iff.mp finite
  have own := sound.predict_sub_current ramps ahead short
  have later : (0 : Exact K) < fin t - u.generator.now := by
    obtain ⟨x, -, generator⟩ := sound.generator
    obtain ⟨n, l, c, ρ, stands⟩ := generator.regular.stands
    rw [stands.now, fin_lt] at ahead
    rw [stands.now, fin_sub, zero_eq, fin_lt]
    exact sub_pos.mpr ahead
  have same : u.predict (fin t) = (u.advance (fin t)).generator.output := by
    unfold RegulatedUnit.predict RegulatedUnit.advance
    dsimp only
    rw [if_pos later, if_pos later, own]
  rw [same]
  exact ⟨(sound.advance t).inBalance.1, rfl⟩

end RegulatedUnit

/-! ## Every run -/

variable {K : Type} [Field K] [LinearOrder K] [IsStrictOrderedRing K]

/-- A generator looks ahead, and so does a unit made from it at any time or made anew, whatever is
done to them with numbers, as long as the ramp limits in force are finite. -/
theorem run_looksAhead (o : K) {setup : List (Generator.Action (Exact K))}
    (given : ∀ a ∈ setup, a.Numeric) {actions : List (RegulatedUnit.Action (Exact K))}
    (given' : ∀ a ∈ actions, a.Numeric) :
    let g := (Generator.idle (fin o)).run setup
    let u := (RegulatedUnit.ofGenerator g).run actions
    let v := (RegulatedUnit.idle (fin o)).run actions
    (g.FiniteRamps → g.LooksAhead) ∧ (u.generator.FiniteRamps → u.LooksAhead) ∧
      (v.generator.FiniteRamps → v.LooksAhead) := by
  have sound := (Generator.idle_sound o).run_numeric given
  exact ⟨sound.looksAhead, ((RegulatedUnit.ofGenerator_sound sound).run_numeric given').looksAhead,
    ((RegulatedUnit.idle_sound o).run_numeric given').looksAhead⟩

/-- At a review, with regulation and reserve both under way. -/
theorem run_looksAhead_at_review :
    let u := (RegulatedUnit.ofGenerator ((Generator.idle (fin (40 : ℚ))).run
      [.setRampLimits (fin 2) (fin 1), .holdReserve (fin 20), .add (fin 60) (fin 90)])).run
        [.participate true (some (fin (1 / 10))) none, .regulate (fin 8), .callReserve (fin 15),
          .advance (fin 20)]
    u.generator.review = fin 60 ∧ u.predict (fin 60) = (u.advance (fin 60)).generator.output := by
  intro u
  have setup : ∀ a ∈ [Generator.Action.setRampLimits (fin (2 : ℚ)) (fin 1), .holdReserve (fin 20),
      .add (fin 60) (fin 90)], ∀ v ∈ a.values, isFinite v = true := by decide +kernel
  have actions : ∀ a ∈ [RegulatedUnit.Action.participate true (some (fin (1 / 10 : ℚ))) none,
      .regulate (fin 8), .callReserve (fin 15), .advance (fin 20)],
      ∀ v ∈ a.values, isFinite v = true := by decide +kernel
  have looksAhead : u.LooksAhead := (run_looksAhead 40 (fun a ha => .of_finite (setup a ha))
    fun a ha => .of_finite (actions a ha)).2.1 (by decide +kernel)
  exact ⟨by decide +kernel,
    (looksAhead (fin 60) (by decide +kernel) (by decide +kernel) (by decide +kernel)).2⟩

end UnitDispatch
