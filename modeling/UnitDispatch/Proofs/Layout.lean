import UnitDispatch.Proofs.Accounting
import UnitDispatch.Proofs.Sign
import UnitDispatch.Simulation

/-! # The layout of a schedule does not matter

A schedule keeps its setpoints in a ring, and where the ring begins depends on all that was ever put
into it or taken out. Generators that differ in this alone (`Generator.Matches`) go on so: bisection
finds one place in every layout of setpoints that are in order, and when a generator queues a
setpoint of its own they are, since what could be out of order was due and has been taken. So two
simulations of such generators record the same rows (`Simulation.Matches.rows`).
-/

namespace UnitDispatch

open Quantity

/-! ## Schedules -/

namespace Schedule

variable {α : Type} [Quantity α] {s t : Schedule α} {p : Setpoint α}

/-- Setpoints with undefined times stand in front; behind them the others stand in order. -/
def Tidy (s : Schedule α) : Prop :=
  ∃ front rest : List (Setpoint α), s.setpoints = front ++ rest ∧
    (∀ p ∈ front, isNaN p.time = true) ∧ rest.Pairwise (fun p q => p.time ≤ q.time) ∧
    ∀ p ∈ rest, isNaN p.time = false

theorem tidy_of_sorted (sorted : s.Sorted) (times : ∀ p ∈ s.setpoints, isNaN p.time = false) :
    s.Tidy := ⟨[], s.setpoints, rfl, nofun, sorted, times⟩

/-- What is not due is in order: undefined times are due at any time. -/
theorem Tidy.afterDue [Ordered α] (tidy : s.Tidy) (now : α) :
    (s.afterDue now).Sorted ∧ ∀ p ∈ (s.afterDue now).setpoints, isNaN p.time = false := by
  obtain ⟨front, rest, eq, undefined, sorted, defined⟩ := tidy
  have passed : ∀ p ∈ front, (!decide (now < p.time)) = true := by
    intro p hp
    have never : ¬ now < p.time := fun lt => by
      have := (Ordered.defined_of_lt lt).2
      rw [undefined p hp] at this
      exact nomatch this
    simpa using never
  have left : (s.afterDue now).setpoints = rest.dropWhile fun p => !decide (now < p.time) := by
    show s.setpoints.dropWhile _ = _
    rw [eq, List.dropWhile_append_of_pos passed]
  refine ⟨?_, ?_⟩
  · unfold Sorted
    rw [left]
    exact sorted.sublist (List.dropWhile_sublist _)
  · intro p hp
    rw [left] at hp
    exact defined p (List.dropWhile_subset _ hp)

/-- A setpoint queued among setpoints in order leaves them tidy, even one with an undefined time:
nothing is due before it. -/
theorem tidy_insert [Signed α] (sorted : s.Sorted)
    (times : ∀ q ∈ s.setpoints, isNaN q.time = false) (p : Setpoint α) : (s.insert p).Tidy := by
  cases time : isNaN p.time with
  | false =>
    refine tidy_of_sorted (sorted.insert_defined times time) fun q hq => ?_
    rcases mem_insert.mp hq with rfl | hq
    · exact time
    · exact times q hq
  | true =>
    have never : ∀ q : Setpoint α, decide (q.time ≤ p.time) = false := by
      intro q
      refine decide_eq_false fun le => ?_
      have := (Signed.defined_of_le le).2
      rw [time] at this
      exact nomatch this
    have first : (s.insert p).setpoints = [p] ++ s.setpoints := by
      rw [sorted.setpoints_insert_eq]
      cases s.setpoints <;> simp [never]
    refine ⟨[p], s.setpoints, first, fun q hq => ?_, sorted, times⟩
    rw [List.mem_singleton.mp hq]
    exact time

/-- Among setpoints in order a setpoint goes to one place, however their ring is laid out. -/
theorem setpoints_insert_congr [Ordered α] (sorted : s.Sorted) (same : t.setpoints = s.setpoints)
    (p : Setpoint α) : (t.insert p).setpoints = (s.insert p).setpoints := by
  have sorted' : t.Sorted := by
    unfold Sorted
    rw [same]
    exact sorted
  rw [sorted'.setpoints_insert_eq, sorted.setpoints_insert_eq, same]

end Schedule

/-! ## Generators -/

namespace Generator

variable {α : Type}

/-- The generator with another schedule. -/
def withSchedule (g : Generator α) (s : Schedule α) : Generator α := { g with schedule := s }

/-- Two generators differ in nothing but how the rings of their schedules are laid out. -/
def Matches [Quantity α] (g h : Generator α) : Prop :=
  g.schedule.Tidy ∧ ∃ s, s.setpoints = g.schedule.setpoints ∧ h = g.withSchedule s

namespace Matches

variable [Quantity α] {g h : Generator α}

theorem clocks (same : Matches g h) : h.now = g.now ∧ h.review = g.review := by
  obtain ⟨-, s, -, rfl⟩ := same
  exact ⟨rfl, rfl⟩

theorem first? (same : Matches g h) : h.schedule.first? = g.schedule.first? := by
  obtain ⟨-, s, setpoints, rfl⟩ := same
  exact congrArg List.head? setpoints

theorem due (same : Matches g h) (now : α) : h.schedule.due now = g.schedule.due now := by
  obtain ⟨-, s, setpoints, rfl⟩ := same
  exact congrArg (List.takeWhile _) setpoints

theorem precedes (same : Matches g h) (time : α) :
    h.schedule.precedes time = g.schedule.precedes time := by
  unfold Schedule.precedes
  rw [same.first?]

theorem target (same : Matches g h) : h.target = g.target := by
  unfold Generator.target
  rw [same.first?]
  obtain ⟨-, s, -, rfl⟩ := same
  rfl

theorem nextLeg (same : Matches g h) : h.nextLeg = g.nextLeg := by
  unfold Generator.nextLeg
  rw [same.first?]
  obtain ⟨-, s, -, rfl⟩ := same
  rfl

/-- What is changed besides the schedule, and does not look at it, is changed in both. -/
theorem change (same : Matches g h) (f : Generator α → Generator α)
    (passes : ∀ k s, f (k.withSchedule s) = (f k).withSchedule s)
    (keeps : (f g).schedule = g.schedule) : Matches (f g) (f h) := by
  obtain ⟨tidy, s, setpoints, rfl⟩ := same
  exact ⟨keeps ▸ tidy, s, keeps ▸ setpoints, passes g s⟩

theorem follow (same : Matches g h) (leg : Leg α) : Matches (g.follow leg) (h.follow leg) :=
  same.change (·.follow leg) (fun _ _ => rfl) rfl

theorem planNext (same : Matches g h) : Matches g.planNext h.planNext := by
  unfold Generator.planNext
  rw [same.nextLeg]
  exact same.follow _

theorem jump (same : Matches g h) (lack : α) : Matches (g.jump lack) (h.jump lack) :=
  same.change (·.jump lack) (fun _ _ => rfl) rfl

variable [Signed α]

/-! ### Revisions -/

theorem carry (same : Matches g h) (timed : g.Timed) (power : α) (leg : Leg α) :
    Matches (g.carry power leg) (h.carry power leg) := by
  obtain ⟨-, s, setpoints, rfl⟩ := same
  exact ⟨Schedule.tidy_insert timed.sorted timed.times _, s.insert _,
    Schedule.setpoints_insert_congr timed.sorted setpoints _, rfl⟩

theorem settle (same : Matches g h) (timed : g.Timed) (wanted : α) :
    Matches (g.settle wanted) (h.settle wanted) := by
  have reads : h.holdTarget wanted = g.holdTarget wanted ∧ h.lack = g.lack ∧
      h.catchup = g.catchup ∧ h.now = g.now := by
    obtain ⟨-, s, -, rfl⟩ := same
    exact ⟨rfl, rfl, rfl, rfl⟩
  obtain ⟨held, lack, catchup, now⟩ := reads
  unfold Generator.settle
  dsimp only
  rw [held, lack, catchup, now]
  split
  · exact same.planNext
  · split
    · rw [same.precedes]
      split
      · exact same.planNext
      · exact same.carry timed _ _
    · exact (same.jump _).planNext
    · exact same.planNext

/-- What is due is taken from both, and what is left is in order. -/
theorem takeDue (same : Matches g h) : Matches g.takeDue h.takeDue ∧ g.takeDue.Timed := by
  obtain ⟨tidy, s, setpoints, rfl⟩ := same
  obtain ⟨sorted, times⟩ := tidy.afterDue g.now
  have due : s.due g.now = g.schedule.due g.now := congrArg (List.takeWhile _) setpoints
  refine ⟨⟨Schedule.tidy_of_sorted sorted times, s.afterDue g.now,
    congrArg (List.dropWhile _) setpoints, ?_⟩, sorted, times⟩
  unfold Generator.takeDue withSchedule
  dsimp only
  rw [due]

theorem replan (same : Matches g h) : Matches g.replan h.replan := by
  unfold Generator.replan
  rw [same.clocks.1, same.due]
  split
  · exact same.planNext
  · exact same.takeDue.1.settle same.takeDue.2 _

/-! ### Advances -/

omit [Signed α] in
theorem moveTo (same : Matches g h) (time : α) : Matches (g.moveTo time) (h.moveTo time) := by
  obtain ⟨tidy, s, setpoints, rfl⟩ := same
  unfold Generator.moveTo
  show Matches (if 0 < time - g.now then _ else g)
    (if 0 < time - g.now then _ else g.withSchedule s)
  split
  · exact ⟨tidy, s, setpoints, rfl⟩
  · exact ⟨tidy, s, setpoints, rfl⟩

theorem leg (same : Matches g h) : Matches g.leg h.leg := by
  unfold Generator.leg
  rw [same.clocks.2]
  exact (same.moveTo _).replan

theorem legsTo (same : Matches g h) (time : α) (fuel : Nat) :
    Matches (Generator.legsTo time fuel g) (Generator.legsTo time fuel h) := by
  induction fuel generalizing g h with
  | zero => exact same
  | succ fuel ih =>
    unfold Generator.legsTo
    dsimp only
    rw [same.clocks.2, same.leg.clocks.1, same.leg.clocks.2]
    split
    · split
      · exact same.leg
      · exact ih same.leg
    · exact same

theorem advance (same : Matches g h) (time : α) : Matches (g.advance time) (h.advance time) := by
  have bound : h.legBound = g.legBound := by
    obtain ⟨-, s, setpoints, rfl⟩ := same
    exact congrArg (fun l : List (Setpoint α) => 2 * UInt64.size + 6 * (l.length + 1)) setpoints
  unfold Generator.advance
  rw [same.clocks.1, bound]
  split
  · exact same
  · exact (same.legsTo time _).moveTo time

theorem callReserve (same : Matches g h) (level : α) :
    Matches (g.callReserve level) (h.callReserve level) :=
  (same.change (fun k => { k with reserve := k.reserve.call level }) (fun _ _ => rfl) rfl).replan

end Matches

end Generator

/-! ## Units -/

namespace RegulatedUnit

variable {α : Type} [Quantity α]

/-- Two units differ in nothing but how the schedules of their generators are laid out. -/
def Matches (u v : RegulatedUnit α) : Prop :=
  ∃ g, u.generator.Matches g ∧ v = { u with generator := g }

namespace Matches

variable {u v : RegulatedUnit α}

theorem regulate (same : Matches u v) (level : α) :
    Matches (u.regulate level) (v.regulate level) := by
  obtain ⟨g, alike, rfl⟩ := same
  exact ⟨g, alike, rfl⟩

variable [Signed α]

theorem callReserve (same : Matches u v) (level : α) :
    Matches (u.receive (.useReserve level)).1 (v.receive (.useReserve level)).1 := by
  obtain ⟨g, alike, rfl⟩ := same
  exact ⟨g.callReserve level, alike.callReserve level, rfl⟩

theorem advance (same : Matches u v) (time : α) : Matches (u.advance time) (v.advance time) := by
  obtain ⟨g, alike, rfl⟩ := same
  have after := alike.advance time
  obtain ⟨tidy, s, setpoints, rfl⟩ := alike
  obtain ⟨tidy', s', setpoints', eq⟩ := after
  unfold RegulatedUnit.advance
  dsimp only
  rw [eq]
  show Matches (if 0 < time - u.generator.now then _ else u)
    (if 0 < time - u.generator.now then _ else { u with generator := u.generator.withSchedule s })
  split
  · exact ⟨_, ⟨tidy', s', setpoints', rfl⟩, rfl⟩
  · exact ⟨_, ⟨tidy, s, setpoints, rfl⟩, rfl⟩

end Matches

end RegulatedUnit

/-! ## Simulations -/

namespace Simulation

variable {σ α : Type} [Quantity α]

/-- Two simulations record the same as long as their units differ in the layout of a schedule at
most. -/
structure Matches (s t : Simulation σ α) : Prop where
  unit : s.unit.Matches t.unit
  source : t.source = s.source
  calls : t.calls = s.calls
  command : t.command = s.command

namespace Matches

variable [Signed α] {s t : Simulation σ α}

theorem deliverCalls (same : Matches s t) (time : α) :
    Matches (s.deliverCalls time) (t.deliverCalls time) := by
  refine ⟨?_, same.source, congrArg (List.dropWhile _) same.calls, same.command⟩
  unfold Simulation.deliverCalls
  dsimp only
  rw [same.calls]
  generalize s.calls.takeWhile _ = list
  have unit := same.unit
  generalize s.unit = u at unit
  generalize t.unit = v at unit
  induction list generalizing u v with
  | nil => exact unit
  | cons c rest ih => exact ih _ _ (unit.callReserve c.level)

variable [CommandSource σ α]

omit [Signed α] in
theorem deliverCommand (same : Matches s t) (time : α) :
    Matches (s.deliverCommand time) (t.deliverCommand time) := by
  unfold Simulation.deliverCommand
  rw [same.source]
  split
  · exact same
  · obtain ⟨g, alike, eq⟩ := same.unit
    rw [eq]
    exact ⟨⟨g, alike, rfl⟩, rfl, same.calls, rfl⟩

/-- A step records one row and leaves the simulations alike. -/
theorem step (same : Matches s t) (index : Nat) (time : α) :
    (t.step index time).1 = (s.step index time).1 ∧
      Matches (s.step index time).2 (t.step index time).2 := by
  have start : t.unit.generator.now = s.unit.generator.now ∧
      t.unit.generator.output = s.unit.generator.output := by
    obtain ⟨g, ⟨-, _, -, rfl⟩, eq⟩ := same.unit
    rw [eq]
    exact ⟨rfl, rfl⟩
  have ready := (same.deliverCalls s.unit.generator.now).deliverCommand s.unit.generator.now
  unfold Simulation.step
  dsimp only
  rw [start.1, start.2]
  generalize (s.deliverCalls _).deliverCommand _ = s' at ready ⊢
  generalize (t.deliverCalls _).deliverCommand _ = t' at ready ⊢
  have after := ready.unit.advance time
  refine ⟨?_, after, ready.source, ready.calls, ready.command⟩
  have consumed : t'.unit.generator.consumed = s'.unit.generator.consumed := by
    obtain ⟨g, ⟨-, _, -, rfl⟩, eq⟩ := ready.unit
    rw [eq]
    rfl
  rw [consumed, ready.command]
  generalize s'.unit.advance time = u at after ⊢
  generalize t'.unit.advance time = v at after ⊢
  obtain ⟨g, alike, rfl⟩ := after
  have target := alike.target
  obtain ⟨-, _, -, rfl⟩ := alike
  dsimp only
  rw [target]
  rfl

theorem steps (same : Matches s t) (ticks : List (Nat × α)) :
    (t.steps ticks).1 = (s.steps ticks).1 := by
  induction ticks generalizing s t with
  | nil => rfl
  | cons tick rest ih =>
    obtain ⟨row, after⟩ := same.step tick.1 tick.2
    rw [steps_cons, steps_cons, row, ih after]

/-- Simulations that match and have one clock record the same rows. -/
theorem rows (same : Matches s t) (clock : t.clock = s.clock) : t.run.1 = s.run.1 := by
  unfold Simulation.run
  rw [clock]
  exact same.steps _

end Matches

end Simulation

end UnitDispatch
