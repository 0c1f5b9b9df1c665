import UnitDispatch.Clock
import UnitDispatch.Fleet
import UnitDispatch.Scenario.Check
import UnitDispatch.Signal
import UnitDispatch.Telemetry.Row

/-! # Simulations

A simulation takes one unit through the steps of a clock. Setpoints are handed over beforehand;
calls on the reserve and regulation commands are delivered at the start of a step, a call in the
first step that starts no earlier than the call.
-/

namespace UnitDispatch

open Quantity

/-- A unit on its way through a run. -/
structure Simulation (σ α : Type) where
  unit : RegulatedUnit α
  enrolment : Enrolment
  rosters : Rosters
  clock : Clock α
  /-- Where regulation commands come from, if the unit is commanded. -/
  source : Option σ
  /-- Calls on the reserve still to be delivered, in order. -/
  calls : List (ReserveCall α)
  /-- The regulation command in force. -/
  command : α
  deriving Repr

namespace Simulation

variable {σ α : Type} [Quantity α]

/-- How far an observed ramp may pass a limit and still count as within it. -/
def rampSlack : α := 1e-6

/-- The number a simulation registers under as the dispatcher. -/
def dispatcherNumber : Nat := 0

/-- Whether a call may stand before another: a negative zero comes before a positive one, and an
undefined time behind all others if it does not come before them. -/
def mayPrecede (a b : ReserveCall α) : Bool :=
  if isNaN a.time then a.foremost || isNaN b.time && !b.foremost
  else if isNaN b.time then !b.foremost
  else decide (a.time < b.time) || a.time == b.time && !decide (1 / b.time < 1 / a.time)

/-- Calls in the order of their times, those with one time in the order given. -/
def inOrder (calls : List (ReserveCall α)) : List (ReserveCall α) := calls.mergeSort mayPrecede

/-- A simulation of a unit that has been set up: the unit takes up a roster of the simulation's own,
registers it as the dispatcher and starts with the regulation it delivers already. -/
def ofUnit (number : Nat) (unit : RegulatedUnit α) (clock : Clock α) (source : Option σ)
    (calls : List (ReserveCall α)) (level : α) : Simulation σ α :=
  let (member, rosters) := Member.attach ⟨unit, { unit := number }⟩ [some {}] (some 0)
  let (member, rosters) := member.act rosters (.receive (.registerDispatcher dispatcherNumber))
  let (member, rosters) := member.act rosters (.startWith clock.start level)
  { unit := member.unit, enrolment := member.enrolment, rosters, clock, source,
    calls := inOrder calls, command := level }

/-- Delivers the calls that are not later than `time`. -/
def deliverCalls (s : Simulation σ α) (time : α) : Simulation σ α :=
  let isDue (c : ReserveCall α) : Bool := !decide (time < c.time)
  { s with
    unit := (s.calls.takeWhile isDue).foldl
      (fun u c => (u.receive (.useReserve c.level)).1) s.unit
    calls := s.calls.dropWhile isDue }

/-- Calls on the reserve are a matter of the generator. -/
theorem deliverCalls_unit (s : Simulation σ α) (time : α) :
    (s.deliverCalls time).unit = { s.unit with
      generator := (s.calls.takeWhile fun c => !decide (time < c.time)).foldl
        (fun g c => g.callReserve c.level) s.unit.generator } := by
  unfold deliverCalls
  dsimp only
  generalize s.calls.takeWhile _ = calls
  generalize s.unit = u
  induction calls generalizing u with
  | nil => rfl
  | cons c rest ih => exact ih (u.receive (.useReserve c.level)).1

/-- What every call keeps holds after all that are delivered. -/
theorem deliverCalls_induction {P : RegulatedUnit α → Prop} {s : Simulation σ α}
    (call : ∀ u, P u → ∀ c ∈ s.calls, P (u.receive (.useReserve c.level)).1) (h : P s.unit)
    (time : α) : P (s.deliverCalls time).unit :=
  List.foldlRecOn _ _ h fun u hu c due => call u hu c ((List.takeWhile_sublist _).subset due)

/-- Delivers the next command of the source, scaled by what the unit can do in its direction. -/
def deliverCommand [CommandSource σ α] (s : Simulation σ α) (time : α) : Simulation σ α :=
  match s.source with
  | none => s
  | some source =>
    let (command, source) := CommandSource.command source time
    let fraction := if 0 ≤ command then s.unit.upFraction else s.unit.downFraction
    let level := command * (fraction * s.unit.regulationBase)
    let unit := (s.unit.receive (.updateRegulationTarget level)).1
    { s with unit, source := some source, command := unit.commanded }

/-- Takes a step that ends at `time`. -/
def step [CommandSource σ α] (s : Simulation σ α) (index : Nat) (time : α) :
    Row α × Simulation σ α :=
  let start := s.unit.generator.now
  let before := s.unit.generator.output
  let s := (s.deliverCalls start).deliverCommand start
  let unit := s.unit.advance time
  let g := unit.generator
  let dt := time - start
  let ramp := if 0 < dt then (g.output - before) / dt else 0
  let row :=
    { step := index
      time
      target := g.target
      committed := g.committed
      reserve := g.reserve.realized
      command := s.command
      regulation := unit.current
      output := g.output
      ramp
      withinLimits := decide (ramp ≤ unit.physical.rampUp + rampSlack)
        && decide (-unit.physical.rampDown - rampSlack ≤ ramp)
      consumed := g.consumed - s.unit.generator.consumed }
  (row, { s with unit })

/-- Takes steps that end at the times given, one after another; rows gather in front, last first. -/
def stepsFrom [CommandSource σ α] (rows : List (Row α)) (s : Simulation σ α)
    (ticks : List (Nat × α)) : List (Row α) × Simulation σ α :=
  ticks.foldl (fun (rows, s) (index, time) =>
    let (row, s) := s.step index time
    (row :: rows, s)) (rows, s)

/-- Takes steps that end at the times given, one after another. -/
def steps [CommandSource σ α] (s : Simulation σ α) (ticks : List (Nat × α)) :
    List (Row α) × Simulation σ α :=
  let (rows, s) := s.stepsFrom [] ticks
  (rows.reverse, s)

/-- Takes all the steps of the clock. -/
def run [CommandSource σ α] (s : Simulation σ α) : List (Row α) × Simulation σ α :=
  let (rows, s) := s.steps s.clock.remaining
  (rows, { s with clock := s.clock.finished })

theorem stepsFrom_eq [CommandSource σ α] (rows : List (Row α)) (s : Simulation σ α)
    (ticks : List (Nat × α)) :
    stepsFrom rows s ticks = ((stepsFrom [] s ticks).1 ++ rows, (stepsFrom [] s ticks).2) := by
  induction ticks generalizing rows s with
  | nil => rfl
  | cons tick rest ih =>
    have h := ih ((s.step tick.1 tick.2).1 :: rows) (s.step tick.1 tick.2).2
    have h' := ih [(s.step tick.1 tick.2).1] (s.step tick.1 tick.2).2
    simp only [stepsFrom, List.foldl_cons] at h h' ⊢
    simp [h, h']

theorem steps_nil [CommandSource σ α] (s : Simulation σ α) : s.steps [] = ([], s) := rfl

/-- The first row comes from the first step, the others from the simulation it leaves. -/
theorem steps_cons [CommandSource σ α] (s : Simulation σ α) (index : Nat) (time : α)
    (rest : List (Nat × α)) :
    s.steps ((index, time) :: rest) =
      ((s.step index time).1 :: ((s.step index time).2.steps rest).1,
        ((s.step index time).2.steps rest).2) := by
  have h := stepsFrom_eq [(s.step index time).1] (s.step index time).2 rest
  have unfolded : stepsFrom [] s ((index, time) :: rest)
      = stepsFrom [(s.step index time).1] (s.step index time).2 rest := rfl
  simp [steps, unfolded, h]

theorem length_steps [CommandSource σ α] (s : Simulation σ α) (ticks : List (Nat × α)) :
    (s.steps ticks).1.length = ticks.length := by
  induction ticks generalizing s with
  | nil => rfl
  | cons tick rest ih =>
    obtain ⟨index, time⟩ := tick
    simp [steps_cons, ih]

/-- What every step keeps holds after all of them. -/
theorem steps_induction [CommandSource σ α] {P : Simulation σ α → Prop}
    (step : ∀ s index time, P s → P (s.step index time).2) {s : Simulation σ α} (h : P s)
    (ticks : List (Nat × α)) : P (s.steps ticks).2 := by
  induction ticks generalizing s with
  | nil => exact h
  | cons tick rest ih =>
    rw [steps_cons]
    exact ih (step s tick.1 tick.2 h)

/-- A row comes from the simulation that the steps before it leave. -/
theorem getElem?_steps [CommandSource σ α] (s : Simulation σ α) (ticks : List (Nat × α))
    (k : Nat) : (s.steps ticks).1[k]? =
      ticks[k]?.map fun tick => ((s.steps (ticks.take k)).2.step tick.1 tick.2).1 := by
  induction ticks generalizing s k with
  | nil => rfl
  | cons tick rest ih =>
    obtain ⟨index, time⟩ := tick
    cases k with
    | zero => simp [steps_cons, steps_nil]
    | succ k => simp [steps_cons, ih]

/-- One step more is a step from there. -/
theorem steps_take_succ [CommandSource σ α] (s : Simulation σ α) {ticks : List (Nat × α)}
    {k : Nat} {tick : Nat × α} (at_ : ticks[k]? = some tick) :
    (s.steps (ticks.take (k + 1))).2 = ((s.steps (ticks.take k)).2.step tick.1 tick.2).2 := by
  induction ticks generalizing s k with
  | nil => cases at_
  | cons first rest ih =>
    cases k with
    | zero =>
      cases at_
      rfl
    | succ k =>
      rw [List.take_succ_cons, List.take_succ_cons, steps_cons, steps_cons]
      exact ih (s.step first.1 first.2).2 at_

theorem length_run [CommandSource σ α] (s : Simulation σ α) :
    s.run.1.length = s.clock.total - s.clock.current := by
  simp [run, length_steps, Clock.length_remaining]

end Simulation

namespace Scenario

variable {σ α : Type} [Quantity α]

/-- The number of the unit of a scenario. -/
def unitNumber : Nat := 1

/-- The generator of a scenario, with its limits and no schedule. -/
def generator (u : UnitPlan α) (mode : RampMode) : Generator α :=
  (Generator.idle u.initialOutput).setMode mode
    |>.set .rampUp u.rampUp
    |>.set .rampDown u.rampDown
    |>.set .rampTime u.rampTime
    |>.set .min u.powerMin
    |>.set .max u.powerMax
    |>.set .reserveRampTime u.reserveRampTime
    |>.set .reserve u.reserveAvailable

/-- The unit of a scenario, with its schedule. -/
def regulatedUnit (s : Scenario α) (mode : RampMode) : RegulatedUnit α :=
  let r := s.regulation
  let u := ((RegulatedUnit.ofGenerator (generator s.unit mode)).set .rating r.rating).participate
    r.enabled (some r.upFraction) (some r.downFraction)
  (u.receive (.addTargets (s.targets.map (·.time)) (s.targets.map (·.power)))).1

/-- The simulation of a scenario, commanded by `source` if the unit takes part in regulation. -/
def simulation (s : Scenario α) (source : σ) : Except ScenarioError (Simulation σ α) :=
  s.rampMode?.map fun mode =>
    Simulation.ofUnit unitNumber (s.regulatedUnit mode)
      { start := s.timing.start, step := s.timing.step, total := s.timing.steps }
      (if s.regulation.enabled then some source else none)
      s.reserveCalls s.regulation.initialLevel

/-- The signal a scenario describes. -/
def signal (s : Scenario Float) : Signal :=
  let r := s.regulation
  .ofSeed r.signalAmplitude r.signalPeriod r.signalAlpha r.signalDeviation s.timing.seed

end Scenario

end UnitDispatch
