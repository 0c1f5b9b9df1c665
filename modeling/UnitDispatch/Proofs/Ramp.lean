import UnitDispatch.Proofs.Course

/-! # Ramps

A ramp holds a power until its outset and then leaves it at a steady rate, until a goal is reached.
`Generator.ramp` is the one by which a generator delivers a setpoint that is all there is on its
schedule: when it sets out, and at what rate, is a matter of the mode. What follows are the powers
of a ramp in numbers, and `Nears`: a power within the tolerance of the goal stays as near to the
ramp.
-/

namespace UnitDispatch

open Quantity Exact

/-! ## Ramps -/

/-- A power that is held until the outset, and left at a steady rate until the goal is reached. -/
structure Ramp (α : Type) where
  outset : α
  /-- The power it starts from. -/
  source : α
  goal : α
  rate : α
  deriving Repr

section Reference

variable {α : Type} [Quantity α]

/-- The power a ramp has come to. -/
def Ramp.power (r : Ramp α) (time : α) : α :=
  let moved := r.rate * (time - r.outset)
  if time ≤ r.outset then r.source
  else if magnitude (r.goal - r.source) ≤ magnitude moved then r.goal
  else r.source + moved

/-- How long a mode waits before a ramp, with `left` until it is due. -/
def RampMode.wait (mode : RampMode) (rampTime left : α) : α :=
  match mode with
  | .midpoint => if rampTime ≤ left then (left - rampTime) / 2 else 0
  | .delayed | .interpolated | .justInTime | .onTargetRamp => 0

/-- How long a mode means to take over `delta`; `bound` is the ramp limit in that direction. -/
def RampMode.duration (mode : RampMode) (delta bound rampTime left : α) : α :=
  match mode with
  | .midpoint => if rampTime ≤ left then rampTime else left
  | .delayed => lesser (greater (magnitude delta / bound) rampTime) left
  | .interpolated | .justInTime | .onTargetRamp => left

/-- The ramp by which a generator delivers a setpoint that is all there is on its schedule. -/
def Generator.ramp (g : Generator α) (time power : α) : Ramp α :=
  let delta := power - g.committed
  let left := time - g.now
  let bound := if 0 < delta then g.rampLimitUp else g.envelope.rampDown
  { outset := g.now + g.mode.wait g.rampTime left
    source := g.committed
    goal := power
    rate := limit (-g.envelope.rampDown) g.rampLimitUp
      (delta / g.mode.duration delta bound g.rampTime left) }

end Reference

variable {K : Type} [Field K] [LinearOrder K]

namespace Ramp

variable {r : Ramp K} {s t : K}

/-- A ramp in numbers, as one in quantities. -/
def exact (r : Ramp K) : Ramp (Exact K) := ⟨fin r.outset, fin r.source, fin r.goal, fin r.rate⟩

/-- When the goal is reached. -/
def arrival (r : Ramp K) : K := r.outset + (r.goal - r.source) / r.rate

/-- The power on the way, if the rate were always kept. -/
def along (r : Ramp K) (t : K) : K := r.source + r.rate * (t - r.outset)

/-- The power at a time. -/
def line (r : Ramp K) (t : K) : K := r.along (min (max t r.outset) r.arrival)

/-- The rate leads toward the goal. -/
def Leads (r : Ramp K) : Prop := 0 < r.rate * (r.goal - r.source)

omit [LinearOrder K] in
theorem along_outset (r : Ramp K) : r.along r.outset = r.source := by
  unfold along
  rw [sub_self, mul_zero, add_zero]

omit [LinearOrder K] in
theorem along_add (r : Ramp K) (s t : K) : r.along s + r.rate * (t - s) = r.along t := by
  unfold along
  ring

variable [IsStrictOrderedRing K]

theorem Leads.outset_lt_arrival (leads : r.Leads) : r.outset < r.arrival :=
  lt_add_of_pos_right _ (Generator.div_pos_of_lead leads)

omit [IsStrictOrderedRing K] in
theorem Leads.rate_ne_zero (leads : r.Leads) : r.rate ≠ 0 := by
  rintro zero
  unfold Leads at leads
  rw [zero, zero_mul] at leads
  exact lt_irrefl _ leads

theorem Leads.goal_sub_along (leads : r.Leads) (t : K) :
    r.goal - r.along t = r.rate * (r.arrival - t) := by
  have whole : r.rate * ((r.goal - r.source) / r.rate) = r.goal - r.source :=
    mul_div_cancel₀ _ leads.rate_ne_zero
  unfold along arrival
  have split : r.rate * (r.outset + (r.goal - r.source) / r.rate - t) =
      r.rate * ((r.goal - r.source) / r.rate) - r.rate * (t - r.outset) := by ring
  rw [split, whole]
  ring

/-- From anywhere on the way, the goal is as far as the arrival. -/
theorem Leads.add_div_along (leads : r.Leads) (t : K) :
    t + (r.goal - r.along t) / r.rate = r.arrival := by
  rw [leads.goal_sub_along, mul_div_cancel_left₀ _ leads.rate_ne_zero, add_sub_cancel]

/-- A leg that does not pass the goal ends no later than the arrival. -/
theorem Leads.le_arrival (leads : r.Leads) {σ : K}
    (short : r.rate * σ ∈ Set.uIcc 0 (r.goal - r.source)) : r.outset + σ ≤ r.arrival := by
  have whole : r.goal - r.source = r.rate * (r.arrival - r.outset) := by
    rw [← leads.goal_sub_along, along_outset]
  have le := Set.abs_sub_left_of_mem_uIcc short
  rw [sub_zero, sub_zero, whole, abs_mul, abs_mul,
    abs_of_pos (sub_pos.mpr leads.outset_lt_arrival)] at le
  have := le_of_mul_le_mul_left le (abs_pos.mpr leads.rate_ne_zero)
  linarith [le_abs_self σ]

theorem Leads.along_arrival (leads : r.Leads) : r.along r.arrival = r.goal := by
  have := leads.goal_sub_along r.arrival
  rw [sub_self, mul_zero, sub_eq_zero] at this
  exact this.symm

/-- Short of its goal, a ramp still leads there. -/
theorem Leads.lead_along (leads : r.Leads) {ε : K} (hε : 0 < ε) (short : t ≤ r.arrival)
    (far : ¬ |r.goal - r.along t| < ε) : t < r.arrival ∧ 0 < r.rate * (r.goal - r.along t) := by
  have early : t < r.arrival := by
    refine lt_of_le_of_ne short ?_
    rintro rfl
    rw [leads.along_arrival, sub_self, abs_zero] at far
    exact far hε
  refine ⟨early, ?_⟩
  rw [leads.goal_sub_along, ← mul_assoc]
  exact mul_pos (mul_self_pos.mpr leads.rate_ne_zero) (sub_pos.mpr early)

theorem Leads.line_of_before (leads : r.Leads) (before : t ≤ r.outset) : r.line t = r.source := by
  unfold line
  rw [max_eq_right before, min_eq_left leads.outset_lt_arrival.le, along_outset]

omit [IsStrictOrderedRing K] in
theorem line_of_between (later : r.outset ≤ t) (short : t ≤ r.arrival) : r.line t = r.along t := by
  unfold line
  rw [max_eq_left later, min_eq_left short]

theorem Leads.line_of_after (leads : r.Leads) (past : r.arrival ≤ t) : r.line t = r.goal := by
  unfold line
  rw [max_eq_left (leads.outset_lt_arrival.le.trans past), min_eq_right past, leads.along_arrival]

/-- A ramp in quantities has the powers of the one in numbers. -/
theorem Leads.power_exact (leads : r.Leads) (t : K) : r.exact.power (fin t) = fin (r.line t) := by
  have ahead := leads.outset_lt_arrival
  have span : r.goal - r.source = r.rate * (r.arrival - r.outset) := by
    rw [← leads.goal_sub_along, along_outset]
  unfold power exact
  simp only [fin_sub, fin_mul, fin_add, magnitude_fin, fin_le]
  by_cases before : t ≤ r.outset
  · rw [if_pos before, leads.line_of_before before]
  · have gone : 0 < t - r.outset := sub_pos.mpr (not_le.mp before)
    have reached : |r.goal - r.source| ≤ |r.rate * (t - r.outset)| ↔ r.arrival ≤ t := by
      rw [span, abs_mul, abs_mul, abs_of_pos gone, abs_of_pos (sub_pos.mpr ahead),
        mul_le_mul_iff_right₀ (abs_pos.mpr leads.rate_ne_zero), sub_le_sub_iff_right]
    rw [if_neg before]
    by_cases past : r.arrival ≤ t
    · rw [if_pos (reached.mpr past), leads.line_of_after past]
    · rw [if_neg (mt reached.mp past), line_of_between (not_le.mp before).le (not_le.mp past).le]
      rfl

/-- What is still ahead lies between where the ramp is and its goal. -/
theorem Leads.line_mem (leads : r.Leads) (le : s ≤ t) : r.line t ∈ Set.uIcc (r.line s) r.goal := by
  rcases le_or_gt r.arrival s with past | ahead
  · rw [leads.line_of_after (past.trans le)]
    exact Set.right_mem_uIcc
  · -- before the arrival, the ramp makes its way along a leg that does not pass the goal
    have start : min (max s r.outset) r.arrival < r.arrival :=
      (min_le_left _ _).trans_lt (max_lt ahead leads.outset_lt_arrival)
    have order : min (max s r.outset) r.arrival ≤ min (max t r.outset) r.arrival :=
      min_le_min_right _ (max_le_max_right _ le)
    have short : r.rate * (r.arrival - min (max s r.outset) r.arrival) ∈
        Set.uIcc 0 (r.goal - r.along (min (max s r.outset) r.arrival)) := by
      rw [leads.goal_sub_along]
      exact Set.right_mem_uIcc
    have part := Generator.short_part start order (min_le_right _ _) short
    rwa [along_add] at part

/-- A power within the tolerance of the goal, from where on the ramp stays between them. -/
structure Nears (r : Ramp K) (n p : K) : Prop where
  near : |r.goal - p| < 1 / 10 ^ 4
  between : ∀ t, n ≤ t → r.line t ∈ Set.uIcc p r.goal

omit [IsStrictOrderedRing K] in
theorem Nears.mono {p : K} (nears : r.Nears s p) (le : s ≤ t) : r.Nears t p :=
  ⟨nears.near, fun u hu => nears.between u (le.trans hu)⟩

theorem Nears.line_near {p : K} (nears : r.Nears t p) : |p - r.line t| < 1 / 10 ^ 4 := by
  have := Set.abs_sub_left_of_mem_uIcc (nears.between t le_rfl)
  rw [abs_sub_comm]
  exact this.trans_lt nears.near

theorem Leads.nears_along (leads : r.Leads) (later : r.outset ≤ t) (short : t ≤ r.arrival)
    (near : |r.goal - r.along t| < 1 / 10 ^ 4) : r.Nears t (r.along t) := by
  rw [← line_of_between later short] at near ⊢
  exact ⟨near, fun _ => leads.line_mem⟩

theorem Leads.nears_goal (leads : r.Leads) : r.Nears r.arrival r.goal := by
  refine ⟨?_, fun t past => ?_⟩
  · rw [sub_self, abs_zero]
    positivity
  · rw [leads.line_of_after past]
    exact Set.left_mem_uIcc

end Ramp

end UnitDispatch
