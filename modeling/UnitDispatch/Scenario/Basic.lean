import UnitDispatch.Quantity

/-! # Scenarios

A scenario describes one run: its timing, the unit, whether and how the unit regulates, the
setpoints and the reserve calls. Four scenarios are built in.
-/

namespace UnitDispatch

/-- Timing and seed of a run. -/
structure Timing (α : Type) where
  /-- The time before the first step. -/
  start : α
  /-- The length of a step. -/
  step : α
  steps : Nat
  seed : UInt64
  deriving Repr

/-- The unit of a run. -/
structure UnitPlan (α : Type) where
  initialOutput : α
  rampUp : α
  rampDown : α
  rampTime : α
  /-- The name of the ramp mode. -/
  mode : String
  powerMin : α
  powerMax : α
  reserveAvailable : α
  reserveRampTime : α
  deriving Repr

/-- How the unit regulates, and the signal that commands it. -/
structure RegulationPlan (α : Type) where
  enabled : Bool
  upFraction : α
  downFraction : α
  rating : α
  /-- Regulation delivered already when the run starts. -/
  initialLevel : α
  signalAmplitude : α
  signalPeriod : α
  signalAlpha : α
  signalDeviation : α
  deriving Repr

/-- A power commanded from a time on. -/
structure Target (α : Type) where
  time : α
  power : α
  deriving Repr

/-- A call on the reserve. -/
structure ReserveCall (α : Type) where
  time : α
  level : α
  /-- Whether the time is undefined with a minus sign, and so comes before all others. -/
  foremost : Bool := false
  deriving Repr

/-- The description of one run. -/
structure Scenario (α : Type) where
  timing : Timing α
  unit : UnitPlan α
  regulation : RegulationPlan α
  targets : List (Target α)
  reserveCalls : List (ReserveCall α)
  deriving Repr

variable {α : Type} [Quantity α]

/-! ## What holds where a scenario is silent -/

def Timing.standard : Timing α where
  start := 0
  step := 60
  steps := 120
  seed := 42

def UnitPlan.standard : UnitPlan α where
  initialOutput := 50
  rampUp := 0.05
  rampDown := 0.05
  rampTime := 1200
  mode := "interp"
  powerMin := 0
  powerMax := 100
  reserveAvailable := 0
  reserveRampTime := 900

def RegulationPlan.standard : RegulationPlan α where
  enabled := false
  upFraction := 0
  downFraction := 0
  rating := 100
  initialLevel := 0
  signalAmplitude := 0.8
  signalPeriod := 600
  signalAlpha := 0.9
  signalDeviation := 0.2

/-! ## Built-in scenarios -/

namespace Scenario

/-- Steady ramps through three targets, with calls on the reserve. -/
def baseline : Scenario α where
  timing := .standard
  unit := { (UnitPlan.standard : UnitPlan α) with reserveAvailable := 10 }
  regulation := .standard
  targets := [⟨1800, 80⟩, ⟨3600, 40⟩, ⟨5400, 85⟩]
  reserveCalls := [{ time := 4200, level := 6 }, { time := 6000, level := 0 }]

/-- Ramps at the limit, stretched to the ramp time. -/
def delayed : Scenario α :=
  { (baseline : Scenario α) with
    unit := { (UnitPlan.standard : UnitPlan α) with mode := "delayed", rampTime := 600 }
    reserveCalls := [] }

/-- Ramps in the middle between targets. -/
def midpoint : Scenario α :=
  { (baseline : Scenario α) with
    unit := { (UnitPlan.standard : UnitPlan α) with
      mode := "midpoint", rampTime := 900, rampUp := 0.1, rampDown := 0.1 }
    reserveCalls := [] }

/-- Regulation on a short step. -/
def regulating : Scenario α where
  timing := { (Timing.standard : Timing α) with step := 4, steps := 1800 }
  unit := { (UnitPlan.standard : UnitPlan α) with rampUp := 0.2, rampDown := 0.2 }
  regulation := { (RegulationPlan.standard : RegulationPlan α) with
    enabled := true, upFraction := 0.1, downFraction := 0.1, signalPeriod := 300 }
  targets := [⟨1800, 70⟩, ⟨5400, 45⟩]
  reserveCalls := []

/-- The built-in scenarios by name. -/
def presets : List (String × Scenario α) :=
  [("baseline", baseline), ("delayed", delayed), ("midpoint", midpoint),
    ("regulation", regulating)]

/-- The names of the built-in scenarios, as they are listed in messages. -/
def presetNames : String :=
  String.intercalate ", " ((presets : List (String × Scenario Float)).map (·.1))

end Scenario

end UnitDispatch
