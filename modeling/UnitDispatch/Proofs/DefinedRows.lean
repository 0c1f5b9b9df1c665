import UnitDispatch.Proofs.Moderation

/-! # Defined rows

A scenario without faults is fit to run in so far as it has a simulation. Whether the rows of the
simulation are free of undefined numbers depends on what the checks leave open: they ask some
numbers to be finite, but not the output a unit starts with, and none to be of moderate size.
`Scenario.rows_defined` says what is enough, in doubles and for whatever commands the unit is given;
`Scenario.rows_undefined` shows scenarios without faults that fail it.
-/

namespace UnitDispatch

open Quantity Doubles RegulatedUnit

/-- No number of a row is undefined. -/
structure Row.Defined {α : Type} [Quantity α] (row : Row α) : Prop where
  time : isNaN row.time = false
  target : isNaN row.target = false
  committed : isNaN row.committed = false
  reserve : isNaN row.reserve = false
  command : isNaN row.command = false
  regulation : isNaN row.regulation = false
  output : isNaN row.output = false
  ramp : isNaN row.ramp = false

instance {α : Type} [Quantity α] (row : Row α) : Decidable row.Defined :=
  decidable_of_iff (∀ x ∈ [row.time, row.target, row.committed, row.reserve, row.command,
      row.regulation, row.output, row.ramp], isNaN x = false) (by
    simp only [List.forall_mem_cons]
    constructor
    · rintro ⟨time, target, committed, reserve, command, regulation, output, ramp, -⟩
      exact ⟨time, target, committed, reserve, command, regulation, output, ramp⟩
    · rintro ⟨time, target, committed, reserve, command, regulation, output, ramp⟩
      exact ⟨time, target, committed, reserve, command, regulation, output, ramp, nofun⟩)

theorem Generator.Moderate.target {g : Generator Float} (moderate : g.Moderate) :
    isNaN g.target = false := by
  unfold Generator.target
  cases first : g.schedule.first? with
  | none => exact moderate.committed.defined
  | some p => exact moderate.powers p (Schedule.mem_of_first? first)

namespace Simulation

variable {σ : Type} {s : Simulation σ Float} {t : Float}

/-- A unit of moderate size, with a defined command in force. -/
structure Moderate (s : Simulation σ Float) : Prop where
  unit : s.unit.Moderate
  command : isNaN s.command = false

theorem Moderate.deliverCalls (moderate : s.Moderate) (time : Float) :
    (s.deliverCalls time).Moderate := by
  refine ⟨?_, moderate.command⟩
  exact deliverCalls_induction (P := RegulatedUnit.Moderate)
    (fun u unit c _ => unit.callReserve c.level) moderate.unit time

variable [CommandSource σ Float]

theorem Moderate.deliverCommand (moderate : s.Moderate) (time : Float) :
    (s.deliverCommand time).Moderate := by
  unfold Simulation.deliverCommand
  split
  · exact moderate
  · have regulated := moderate.unit.regulate
    exact ⟨regulated _, (regulated _).commanded.defined⟩

/-- A step records a defined row and leaves the sizes moderate. -/
theorem Moderate.step (moderate : s.Moderate) (index : ℕ) (time : UpTo 165 t) :
    (s.step index t).1.Defined ∧ (s.step index t).2.Moderate := by
  have before := moderate.unit.output
  have delivered := (moderate.deliverCalls s.unit.generator.now).deliverCommand s.unit.generator.now
  have advanced := delivered.unit.advance time
  refine ⟨⟨time.defined, advanced.generator.target, advanced.generator.committed.defined,
    advanced.generator.realized.defined, delivered.command, advanced.current,
    advanced.output.defined, ?_⟩, ⟨advanced, delivered.command⟩⟩
  show isNaN (if 0 < t - s.unit.generator.now then _ else 0) = false
  split
  next ahead => exact (advanced.output.sub before (by omega)).div_defined ahead
  · exact (upTo_zero 0).defined

theorem Moderate.steps (moderate : s.Moderate) {ticks : List (ℕ × Float)}
    (times : ∀ tick ∈ ticks, UpTo 165 tick.2) : ∀ row ∈ (s.steps ticks).1, row.Defined := by
  induction ticks generalizing s with
  | nil => nofun
  | cons tick rest ih =>
    obtain ⟨defined, next⟩ := moderate.step tick.1 (times tick List.mem_cons_self)
    rw [steps_cons]
    intro row listed
    rcases List.mem_cons.mp listed with rfl | later
    · exact defined
    · exact ih next (fun tick later => times tick (List.mem_cons_of_mem _ later)) row later

end Simulation

namespace Scenario

/-- The base that participation in regulation is a fraction of. -/
def regulationBase {α : Type} [Quantity α] (s : Scenario α) : α :=
  if isFinite s.regulation.rating then s.regulation.rating
  else if isFinite s.unit.powerMax then s.unit.powerMax
  else 0

/-- What the checks leave open and the rows depend on: the numbers that times, powers and rates are
computed from are of moderate size, and so is the time that the ramp limits are divided by. A power
limit may be unbounded or undefined, as long as it does not rule out every moderate power; nothing
is asked of the ramp time, of targets and reserve calls, or of the signal. -/
structure Moderate (s : Scenario Float) : Prop where
  start : -1e30 ≤ s.timing.start ∧ s.timing.start ≤ 1e30
  step : s.timing.step ≤ 1e30
  steps : s.timing.steps < 2 ^ 64
  initialOutput : -1e30 ≤ s.unit.initialOutput ∧ s.unit.initialOutput ≤ 1e30
  rampUp : s.unit.rampUp ≤ 1e30
  rampDown : s.unit.rampDown ≤ 1e30
  powerMin : ¬ 1e30 < s.unit.powerMin
  powerMax : ¬ s.unit.powerMax < -1e30
  reserveAvailable : ¬ 1e30 < s.unit.reserveAvailable
  reserveRampTime : 1e-30 ≤ s.unit.reserveRampTime
  base : s.regulationBase ≤ 1e30
  initialLevel : isNaN s.regulation.initialLevel = false

variable {s : Scenario Float}

theorem Moderate.regulationBase (moderate : s.Moderate) (valid : s.faults = []) :
    UpTo 100 s.regulationBase := by
  have base := moderate.base
  have rating : ¬ s.regulation.rating ≤ 0 := by
    simp only [faults, regulationFaults, List.append_eq_nil_iff, demand_eq_nil, Bool.not_eq_true',
      decide_eq_false_iff_not] at valid
    tauto
  unfold Scenario.regulationBase at base ⊢
  by_cases rated : isFinite s.regulation.rating = true
  · rw [if_pos rated] at base ⊢
    exact upTo_of_not_neg (fun negative => rating (Ordered.le_of_lt negative)) base
  · rw [if_neg rated] at base ⊢
    by_cases bounded : isFinite s.unit.powerMax = true
    · rw [if_pos bounded] at base ⊢
      exact upTo_of_mem (Ordered.le_of_not_lt (Ordered.defined_of_isFinite bounded)
        (upTo_bound.neg (by omega)).defined moderate.powerMax) base
    · rw [if_neg bounded]
      exact upTo_zero 100

theorem upTo_fraction {x : Float} (fraction : isFraction x = true) : UpTo 0 (clamp 0 1 x) := by
  unfold isFraction at fraction
  rw [Bool.and_eq_true, decide_eq_true_iff, decide_eq_true_iff] at fraction
  have one : UpTo 0 (1 : Float) := by decide +kernel
  have held : 0 ≤ clamp 0 1 x ∧ clamp 0 1 x ≤ 1 :=
    Ordered.clamp_mem rfl rfl Signed.zero_le_one (Signed.defined_of_le fraction.1).2
  exact (upTo_zero 0).between one held.1 held.2

theorem ramps_of_valid (valid : s.faults = []) : ¬ s.unit.rampUp < 0 ∧ ¬ s.unit.rampDown < 0 := by
  simp only [faults, unitFaults, List.append_eq_nil_iff, demand_eq_nil, Bool.not_eq_true',
    decide_eq_false_iff_not] at valid
  tauto

/-- The unit of a scenario has mild limits. -/
theorem Moderate.mildLimits (moderate : s.Moderate) (valid : s.faults = []) (mode : RampMode) :
    (equipped s.unit s.regulation mode).MildLimits := by
  obtain ⟨physical, rating, -, up, down, -⟩ := equipped_settings s.unit s.regulation mode
  obtain ⟨upFraction, downFraction, -⟩ := plans_of_valid valid
  obtain ⟨rampUp, rampDown⟩ := ramps_of_valid valid
  rw [generator_envelope] at physical
  have base : (equipped s.unit s.regulation mode).regulationBase = s.regulationBase := by
    unfold RegulatedUnit.regulationBase
    rw [physical, rating]
    rfl
  constructor
  · rw [physical]
    exact upTo_of_not_neg rampUp moderate.rampUp
  · rw [physical]
    exact (upTo_of_not_neg rampDown moderate.rampDown).magnitude (by omega)
  · rw [physical]
    exact moderate.powerMin
  · rw [physical]
    exact moderate.powerMax
  · rw [base]
    exact moderate.regulationBase valid
  · rw [up]
    exact upTo_fraction upFraction
  · rw [down]
    exact upTo_fraction downFraction

/-- What is held in reserve is of moderate size, and nothing is where it was undefined. -/
theorem Moderate.available (moderate : s.Moderate) :
    UpTo 100 (greater s.unit.reserveAvailable 0) := by
  cases defined : isNaN s.unit.reserveAvailable with
  | true =>
    rw [greater_of_isNaN defined]
    exact upTo_zero 100
  | false =>
    rcases greater_cases defined 0 with ⟨-, h⟩ | ⟨above, h⟩ <;> rw [h]
    · exact upTo_zero 100
    · exact (upTo_zero 100).between upTo_bound
        (Ordered.le_of_not_le defined (upTo_zero 0).defined above)
        (Ordered.le_of_not_lt upTo_bound.defined defined moderate.reserveAvailable)

/-- And so has its generator before it is given its targets. -/
theorem Moderate.generator (moderate : s.Moderate) (valid : s.faults = []) (mode : RampMode) :
    (equipped s.unit s.regulation mode).generator.Moderate := by
  have resting := equipped_resting s.unit s.regulation mode
  have reserve : (equipped s.unit s.regulation mode).generator.reserve =
      { Reserve.hold Reserve.empty s.unit.reserveAvailable with
        rampTime := s.unit.reserveRampTime } := by
    obtain ⟨-, -, -, -, -, reserve⟩ := equipped_settings s.unit s.regulation mode
    exact reserve.trans (generator_reserve s.unit mode)
  obtain ⟨rampUp, rampDown⟩ := (moderate.mildLimits valid mode).dispatchEnvelope
  rw [← equipped_envelope] at rampUp rampDown
  generalize (equipped s.unit s.regulation mode).generator = g at *
  have available := moderate.available
  constructor
  · rw [reserve]
    exact available
  · rw [reserve]
    exact (upTo_zero 100).lesser available
  · rw [reserve]
    have bound : AtLeast 100 (1e-30 : Float) := by decide +kernel
    have size : UpTo 0 (1e-30 : Float) := by decide +kernel
    exact bound.of_le size (by decide +kernel) moderate.reserveRampTime
  · exact rampUp
  · exact rampDown
  · rw [resting.rate]
    exact upTo_zero 203
  · rw [resting.now]
    exact upTo_zero 165
  · rw [resting.committed]
    exact (upTo_of_mem moderate.initialOutput.1 moderate.initialOutput.2).mono (by omega)
  · rw [reserve]
    exact upTo_zero 500
  · rw [resting.empty]
    nofun

/-- The time at the end of a step. -/
theorem Moderate.after (moderate : s.Moderate) (valid : s.faults = []) {n : ℕ}
    (within : n ≤ s.timing.steps) : UpTo 165 (s.timing.after n) := by
  have start := upTo_of_mem moderate.start.1 moderate.start.2
  have positive : 0 < s.timing.step := by
    simp only [faults, timingFaults, List.append_eq_nil_iff, demand_eq_nil, Bool.and_eq_true,
      decide_eq_true_iff] at valid
    tauto
  have step := (upTo_zero 100).between upTo_bound (Ordered.le_of_lt positive) moderate.step
  have count : UpTo 64 (Quantity.ofNat n) := upTo_ofNat (within.trans moderate.steps.le)
  exact (start.mono (by omega)).add (count.mul step (by omega)) (by omega)

theorem Moderate.simulation {σ : Type} (moderate : s.Moderate) (valid : s.faults = [])
    (mode : RampMode) (clock : Clock Float) (begins : clock.start = s.timing.start)
    (source : Option σ) (calls : List (ReserveCall Float)) :
    (Simulation.ofUnit unitNumber (s.regulatedUnit mode) clock source calls
      s.regulation.initialLevel).Moderate := by
  have powers : ∀ p ∈ s.targets.map (·.power), isNaN p = false := by
    intro p hp
    obtain ⟨t, ht, rfl⟩ := List.mem_map.mp hp
    exact Ordered.defined_of_isFinite (targets_isFinite valid t ht).2
  have queued := (moderate.generator valid mode).addAll (s.targets.map (·.time)) powers
  have start := upTo_of_mem moderate.start.1 moderate.start.2
  have mild := moderate.mildLimits valid mode
  refine ⟨?_, moderate.initialLevel⟩
  rw [ofUnit_unit_eq, regulatedUnit_eq, begins]
  refine MildLimits.startWith (mild.withGenerator _) ?_ (start.mono (by omega)) _
  exact { queued with }

/-- A scenario without faults has a simulation, and if its numbers are moderate then no number of
any row is undefined, whatever commands the unit is given. -/
theorem rows_defined {σ : Type} [CommandSource σ Float] (valid : s.faults = []) (source : σ) :
    ∃ sim, s.simulation source = .ok sim ∧ (s.Moderate → ∀ row ∈ sim.run.1, row.Defined) := by
  obtain ⟨mode, known⟩ := rampMode?_of_faults_eq_nil valid
  refine ⟨_, simulation_eq known source, fun moderate => ?_⟩
  refine (moderate.simulation valid mode _ rfl _ _).steps fun tick listed => ?_
  obtain ⟨k, inside, rfl⟩ := List.mem_map.mp listed
  refine moderate.after valid ?_
  have bounds := List.mem_range'_1.mp inside
  change 0 ≤ k ∧ k < 0 + (s.timing.steps - 0) at bounds
  omega

theorem rows_defined_regulating :
    (regulating : Scenario Float).faults = [] ∧ (regulating : Scenario Float).Moderate ∧
      ∃ sim, regulating.simulation (signal regulating) = .ok sim ∧
        ∀ row ∈ sim.run.1, row.Defined := by
  have valid : (regulating : Scenario Float).faults = [] := by decide +kernel
  have moderate : (regulating : Scenario Float).Moderate := by
    constructor <;> decide +kernel
  obtain ⟨sim, built, rows⟩ := rows_defined valid (signal regulating)
  exact ⟨valid, moderate, sim, built, rows moderate⟩

/-- A scenario without faults whose simulation records a row that is not defined. -/
def Eludes (s : Scenario Float) : Prop :=
  s.faults = [] ∧ ∃ sim, s.simulation s.signal = .ok sim ∧ ∃ row ∈ sim.run.1, ¬ row.Defined

theorem eludes_of_interpolated (valid : s.faults = []) (known : s.rampMode? = .ok .interpolated)
    (found : ∃ row ∈ (Simulation.ofUnit unitNumber (s.regulatedUnit .interpolated)
      { start := s.timing.start, step := s.timing.step, total := s.timing.steps }
      (if s.regulation.enabled then some s.signal else none) s.reserveCalls
      s.regulation.initialLevel).run.1, ¬ row.Defined) : s.Eludes :=
  ⟨valid, _, simulation_eq known s.signal, found⟩

/-- Two steps of the standard unit, with a target that is due almost at once. -/
def brief : Scenario Float where
  timing := { (Timing.standard : Timing Float) with steps := 2 }
  unit := .standard
  regulation := .standard
  targets := [⟨1e-310, 80⟩]
  reserveCalls := []

/-- What no check finds: an undefined output or level to start with, limits that force a power to be
unbounded, ramp limits that let a rate be unbounded, finite times that add up to one that is not. -/
theorem rows_undefined :
    Eludes { brief with unit.initialOutput := 0 / 0 } ∧
    Eludes { brief with regulation.initialLevel := 0 / 0 } ∧
    Eludes { brief with unit.powerMin := unbounded, unit.powerMax := unbounded } ∧
    Eludes { brief with unit.rampUp := unbounded, unit.rampDown := unbounded } ∧
    Eludes { brief with timing.start := 1.7e308, timing.step := 1e308 } := by
  refine ⟨?_, ?_, ?_, ?_, ?_⟩ <;>
    exact eludes_of_interpolated (by decide +kernel) rfl (by decide +kernel)

end Scenario

end UnitDispatch
