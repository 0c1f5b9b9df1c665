import UnitDispatch.Generator.Trajectory
import UnitDispatch.Proofs.Schedule

/-! # The condition of a generator

What is asked of a generator before anything is said about its plan. `Regular` says that clock,
power and schedule are numbers and in order, `Proper` that the limits leave room for some rate and
some power, and `Workable` that it can move toward its setpoints at all: no limit is negative.
`SameSettings` is what planning and moving leave alone, `SamePower` what only they can change.
-/

namespace UnitDispatch

open Quantity Exact

/-- No more is called for than is available, and no less than nothing. -/
structure Reserve.Called {α : Type} [Quantity α] (r : Reserve α) : Prop where
  nonneg : 0 ≤ r.requested
  le_available : r.requested ≤ r.available

namespace Generator

/-! ## Settings -/

/-- Two generators have the same limits, mode and reserve to call on. -/
structure SameSettings {α : Type} (g h : Generator α) : Prop where
  envelope : h.envelope = g.envelope
  rampTime : h.rampTime = g.rampTime
  mode : h.mode = g.mode
  available : h.reserve.available = g.reserve.available
  requested : h.reserve.requested = g.reserve.requested
  reserveRampTime : h.reserve.rampTime = g.reserve.rampTime

/-- Committed power, output and reserve delivered are the same. -/
structure SamePower {α : Type} (g h : Generator α) : Prop where
  committed : h.committed = g.committed
  output : h.output = g.output
  realized : h.reserve.realized = g.reserve.realized

section Settings

variable {α : Type} {g h k : Generator α}

theorem SamePower.trans (a : SamePower g h) (b : SamePower h k) : SamePower g k :=
  ⟨b.committed.trans a.committed, b.output.trans a.output, b.realized.trans a.realized⟩

theorem SameSettings.refl (g : Generator α) : SameSettings g g := ⟨rfl, rfl, rfl, rfl, rfl, rfl⟩

theorem SameSettings.symm (a : SameSettings g h) : SameSettings h g :=
  ⟨a.envelope.symm, a.rampTime.symm, a.mode.symm, a.available.symm, a.requested.symm,
    a.reserveRampTime.symm⟩

theorem SameSettings.trans (a : SameSettings g h) (b : SameSettings h k) : SameSettings g k :=
  ⟨b.envelope.trans a.envelope, b.rampTime.trans a.rampTime, b.mode.trans a.mode,
    b.available.trans a.available, b.requested.trans a.requested,
    b.reserveRampTime.trans a.reserveRampTime⟩

theorem SamePlant.sameSettings (same : SamePlant g h) : SameSettings g h where
  envelope := same.envelope
  rampTime := same.rampTime
  mode := same.mode
  available := by rw [same.reserve]
  requested := by rw [same.reserve]
  reserveRampTime := by rw [same.reserve]

variable [Quantity α]

theorem SameSettings.rampLimitUp (same : SameSettings g h) : h.rampLimitUp = g.rampLimitUp := by
  simp only [Generator.rampLimitUp, same.available, same.requested, same.reserveRampTime,
    same.envelope]

theorem SameSettings.holdTarget (same : SameSettings g h) (power : α) :
    h.holdTarget power = g.holdTarget power := by
  simp only [Generator.holdTarget, same.available, same.envelope]

theorem SameSettings.called (same : SameSettings g h) (c : g.reserve.Called) :
    h.reserve.Called := by
  refine ⟨?_, ?_⟩
  · rw [same.requested]
    exact c.nonneg
  · rw [same.requested, same.available]
    exact c.le_available

theorem moveTo_sameSettings (g : Generator α) (time : α) : SameSettings g (g.moveTo time) := by
  unfold moveTo
  dsimp only
  split
  · exact ⟨rfl, rfl, rfl, rfl, rfl, rfl⟩
  · exact SameSettings.refl g

theorem moveTo_schedule (g : Generator α) (time : α) : (g.moveTo time).schedule = g.schedule := by
  unfold moveTo
  dsimp only
  split <;> rfl

theorem moveTo_review (g : Generator α) (time : α) : (g.moveTo time).review = g.review := by
  unfold moveTo
  dsimp only
  split <;> rfl

theorem moveTo_last (g : Generator α) (time : α) : (g.moveTo time).last = g.last := by
  unfold moveTo
  dsimp only
  split <;> rfl

theorem moveTo_consumed (g : Generator α) (time : α) : (g.moveTo time).consumed = g.consumed := by
  unfold moveTo
  dsimp only
  split <;> rfl

theorem replan_sameSettings (g : Generator α) : SameSettings g g.replan :=
  (replan_samePlant g).sameSettings

/-- No limit that a plan keeps to is negative. -/
structure LimitsNonneg (g : Generator α) : Prop where
  rampUp : 0 ≤ g.envelope.rampUp
  rampDown : 0 ≤ g.envelope.rampDown
  limitUp : 0 ≤ g.rampLimitUp
  rampTime : 0 ≤ g.rampTime

instance (g : Generator α) : Decidable g.LimitsNonneg :=
  decidable_of_iff (0 ≤ g.envelope.rampUp ∧ 0 ≤ g.envelope.rampDown ∧ 0 ≤ g.rampLimitUp ∧
      0 ≤ g.rampTime)
    ⟨fun ⟨u, d, l, t⟩ => ⟨u, d, l, t⟩, fun ⟨u, d, l, t⟩ => ⟨u, d, l, t⟩⟩

/-- The generator can move toward its setpoints: no limit is negative, and the powers it is asked
for are held at numbers. -/
structure Workable (g : Generator α) : Prop extends LimitsNonneg g where
  targets : ∀ p ∈ g.schedule.setpoints, isFinite (g.holdTarget p.power) = true

instance (g : Generator α) : Decidable g.Workable :=
  decidable_of_iff (g.LimitsNonneg ∧
      ∀ p ∈ g.schedule.setpoints, isFinite (g.holdTarget p.power) = true)
    ⟨fun ⟨l, p⟩ => ⟨l, p⟩, fun ⟨l, p⟩ => ⟨l, p⟩⟩

/-- Nothing but settings and the powers asked for decides whether a generator is workable. -/
theorem Workable.of_same (w : g.Workable) (same : SameSettings g h)
    (targets : ∀ p ∈ h.schedule.setpoints, isFinite (g.holdTarget p.power) = true) :
    h.Workable where
  rampUp := by rw [same.envelope]; exact w.rampUp
  rampDown := by rw [same.envelope]; exact w.rampDown
  limitUp := by rw [same.rampLimitUp]; exact w.limitUp
  rampTime := by rw [same.rampTime]; exact w.rampTime
  targets := by
    intro p hp
    rw [same.holdTarget]
    exact targets p hp

end Settings

/-! ## Numbers -/

variable {K : Type} [Field K] [LinearOrder K] {g h : Generator (Exact K)}

/-- Where a generator stands: its clock, when the last setpoint fell due, its power and its rate. -/
structure At (g : Generator (Exact K)) (n l c ρ : K) : Prop where
  now : g.now = fin n
  last : g.last = fin l
  committed : g.committed = fin c
  rate : g.rate = fin ρ

/-- Clock, power and schedule are numbers, and the schedule is in order. -/
structure Regular (g : Generator (Exact K)) : Prop where
  sorted : g.schedule.Sorted
  times : ∀ p ∈ g.schedule.setpoints, isFinite p.time = true
  stands : ∃ n l c ρ, g.At n l c ρ

/-- The limits leave room for some rate, and the powers asked for are held at numbers. -/
structure Proper (g : Generator (Exact K)) : Prop where
  rampUp : negInf < g.envelope.rampUp
  rampDown : negInf < g.envelope.rampDown
  limitUp : negInf < g.rampLimitUp
  rampTime : negInf < g.rampTime
  targets : ∀ p ∈ g.schedule.setpoints, isFinite (g.holdTarget p.power) = true

theorem Workable.proper (w : g.Workable) : g.Proper where
  rampUp := negInf_lt_of_nonneg w.rampUp
  rampDown := negInf_lt_of_nonneg w.rampDown
  limitUp := negInf_lt_of_nonneg w.limitUp
  rampTime := negInf_lt_of_nonneg w.rampTime
  targets := w.targets

theorem Proper.of_same (w : g.Proper) (same : SameSettings g h)
    (targets : ∀ p ∈ h.schedule.setpoints, isFinite (g.holdTarget p.power) = true) :
    h.Proper where
  rampUp := by rw [same.envelope]; exact w.rampUp
  rampDown := by rw [same.envelope]; exact w.rampDown
  limitUp := by rw [same.rampLimitUp]; exact w.limitUp
  rampTime := by rw [same.rampTime]; exact w.rampTime
  targets := by
    intro p hp
    rw [same.holdTarget]
    exact targets p hp

theorem Workable.moveTo (w : g.Workable) (time : Exact K) : (g.moveTo time).Workable :=
  w.of_same (moveTo_sameSettings g time) (moveTo_schedule g time ▸ w.targets)

end Generator

end UnitDispatch
