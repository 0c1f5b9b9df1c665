import UnitDispatch.Proofs.History

/-! # Scheduling

Whatever is done to a generator, its schedule stays sorted, nothing on it is left over that is due,
and the plan is reviewed ahead of the clock and before the first setpoint is passed.
-/

namespace UnitDispatch

open Quantity Exact

namespace Generator

/-- The plan keeps time with the schedule. -/
structure WellTimed {α : Type} [Quantity α] (g : Generator α) : Prop where
  sorted : g.schedule.Sorted
  /-- Nothing that is due is left on the schedule. -/
  ahead : ∀ p ∈ g.schedule.setpoints, g.now < p.time
  last_le : g.last ≤ g.now
  /-- There is no review exactly when there is nothing to do. -/
  rest : g.review = unbounded ↔ g.schedule.setpoints = []
  before : g.now < g.review
  review_le : ∀ p ∈ g.schedule.setpoints, g.review ≤ p.time

variable {K : Type} [Field K] [LinearOrder K] {g : Generator (Exact K)}

theorem OnCourse.wellTimed {n l c ρ : K} (course : g.OnCourse n l c ρ) : g.WellTimed := by
  refine ⟨course.sorted, course.ahead, ?_, ?_, course.now_lt_review, ?_⟩
  · rw [course.stands.last, course.stands.now]
    exact fin_le.mpr course.last
  · cases course.heading with
    | rest empty _ review => exact ⟨fun _ => empty, fun _ => review⟩
    | leg underway =>
      constructor
      · intro rest
        rw [underway.review] at rest
        cases rest
      · intro empty
        exact (underway.nonempty empty).elim
  · intro p hp
    cases course.heading with
    | rest empty =>
      rw [empty] at hp
      exact (List.not_mem_nil hp).elim
    | leg underway => exact underway.review ▸ underway.first p hp

/-- Every action, in every mode and under every limit that is not negative, leaves the plan in time
with the schedule. Only limits may be unbounded: the times that are named and the powers asked for,
once held, are numbers. -/
theorem wellTimed_of_reaches [IsStrictOrderedRing K] {o : K}
    (reaches : Reaches Workable Suits (idle (fin o)) g) : g.WellTimed := by
  obtain ⟨n, l, c, ρ, course⟩ := reaches.onCourse
  exact course.wellTimed

/-- A midpoint ramp, with a setpoint queued before the one it makes for. -/
theorem wellTimed_midpoint :
    ((idle (fin (0 : ℚ))).run [.setRampLimits (fin 2) (fin 1), .add (fin 100) (fin 300),
      .setMode .midpoint, .add (fin 40) (fin 60), .advance (fin 45)]).WellTimed := by
  have start : Reaches Workable Suits (idle (fin (0 : ℚ))) (idle (fin 0)) :=
    .start (by decide +kernel)
  exact wellTimed_of_reaches (start.run (by decide +kernel))

end Generator

end UnitDispatch
