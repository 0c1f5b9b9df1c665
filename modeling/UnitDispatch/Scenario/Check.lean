import UnitDispatch.RampMode
import UnitDispatch.Scenario.Basic

/-! # Checks on scenarios

What can be wrong with a scenario, and where. `Scenario.faults` lists every breach of the rules in
the order of the fields; a scenario without faults is fit to run.
-/

namespace UnitDispatch

open Quantity

/-- What a value is required to be. -/
inductive Requirement where
  | finitePositive
  | positive
  | finite
  | notNegative
  | notNegativeMagnitude
  | atMostPowerMax
  | fraction
  | finitePair
  | sorted
  deriving DecidableEq, Repr

/-- The text of a requirement. -/
def Requirement.text : Requirement → String
  | finitePositive => "must be finite and > 0"
  | positive => "must be > 0"
  | finite => "must be finite"
  | notNegative => "must be >= 0"
  | notNegativeMagnitude => "must be >= 0 (a magnitude)"
  | atMostPowerMax => "must be <= unit.power_max"
  | fraction => "must be in [0.0, 1.0]"
  | finitePair => "time and power must be finite"
  | sorted => "must be sorted by time"

/-- Why a scenario cannot be had or used. -/
inductive ScenarioError where
  /-- The text is not a scenario. -/
  | malformed
  /-- The file cannot be read. -/
  | unreadable (path reason : String)
  /-- No built-in scenario has this name. -/
  | unknownPreset (name : String)
  /-- The ramp mode is not known. -/
  | mode (error : SettingError)
  /-- A field breaks a requirement. -/
  | breach (field : String) (requirement : Requirement)
  deriving DecidableEq, Repr

namespace ScenarioError

/-- The field at fault. -/
def field : ScenarioError → String
  | malformed => "toml"
  | unreadable _ _ => "scenario"
  | unknownPreset _ => "preset"
  | mode _ => "unit.mode"
  | breach field _ => field

/-- What is wrong with it. -/
def detail : ScenarioError → String
  | malformed => "not a scenario"
  | unreadable path reason => "cannot read \"" ++ path ++ "\": " ++ reason
  | unknownPreset name =>
    "unknown preset \"" ++ name ++ "\", available: " ++ Scenario.presetNames
  | mode error => error.message
  | breach _ requirement => requirement.text

/-- The line that shows an error. -/
def text (e : ScenarioError) : String := "config error: " ++ e.field ++ ": " ++ e.detail

end ScenarioError

namespace Scenario

variable {α : Type} [Quantity α]

/-- The built-in scenario of a name. -/
def ofPreset? (name : String) : Except ScenarioError (Scenario α) :=
  match presets.lookup name with
  | some scenario => .ok scenario
  | none => .error (.unknownPreset name)

/-- The ramp mode of the unit. -/
def rampMode? (s : Scenario α) : Except ScenarioError RampMode :=
  (RampMode.ofName? s.unit.mode).mapError .mode

/-- A fault, unless the requirement is met. -/
def demand (met : Bool) (field : String) (requirement : Requirement) : List ScenarioError :=
  if met then [] else [.breach field requirement]

/-- Whether a value is from zero to one. -/
def isFraction (x : α) : Bool := decide (0 ≤ x) && decide (x ≤ 1)

/-- The name of a field of a numbered entry. -/
def entry (list : String) (index : Nat) (part : String) : String :=
  list ++ "[" ++ toString index ++ "]" ++ part

def timingFaults (t : Timing α) : List ScenarioError :=
  demand (decide (0 < t.step) && isFinite t.step) "simulation.step_secs" .finitePositive
    ++ demand (t.steps != 0) "simulation.steps" .positive
    ++ demand (isFinite t.start) "simulation.start_time" .finite

def unitFaults (u : UnitPlan α) : List ScenarioError :=
  demand (!decide (u.rampUp < 0)) "unit.ramp_up" .notNegative
    ++ demand (!decide (u.rampDown < 0)) "unit.ramp_down" .notNegativeMagnitude
    ++ demand (!decide (u.rampTime < 0)) "unit.ramp_time" .notNegative
    ++ demand (!decide (u.powerMax < u.powerMin)) "unit.power_min" .atMostPowerMax
    ++ demand (!decide (u.reserveAvailable < 0)) "unit.reserve_available" .notNegative
    ++ demand (!decide (u.reserveRampTime ≤ 0)) "unit.reserve_ramp_time" .positive

def regulationFaults (r : RegulationPlan α) : List ScenarioError :=
  demand (isFraction r.upFraction) "regulation.up_fraction" .fraction
    ++ demand (isFraction r.downFraction) "regulation.down_fraction" .fraction
    ++ demand (isFraction r.signalAmplitude) "regulation.signal_amplitude" .fraction
    ++ demand (isFraction r.signalAlpha) "regulation.signal_alpha" .fraction
    ++ demand (!decide (r.rating ≤ 0)) "regulation.rating" .positive
    ++ demand (!decide (r.signalDeviation < 0)) "regulation.signal_noise_std" .notNegative

/-- Whether some target is followed by an earlier one. -/
def isDisordered : List (Target α) → Bool
  | a :: b :: rest => decide (b.time < a.time) || isDisordered (b :: rest)
  | _ => false

def targetFaults (targets : List (Target α)) : List ScenarioError :=
  targets.zipIdx.flatMap (fun (t, i) =>
      demand (isFinite t.time && isFinite t.power) (entry "targets" i "") .finitePair)
    ++ demand (!isDisordered targets) "targets" .sorted

def reserveCallFaults (calls : List (ReserveCall α)) : List ScenarioError :=
  calls.zipIdx.flatMap fun (c, i) =>
    demand (isFinite c.time) (entry "reserve_calls" i ".time") .finite
      ++ demand (!decide (c.level < 0)) (entry "reserve_calls" i ".level") .notNegative

/-- Every fault of a scenario. -/
def faults (s : Scenario α) : List ScenarioError :=
  timingFaults s.timing
    ++ (match s.rampMode? with
      | .ok _ => []
      | .error e => [e])
    ++ unitFaults s.unit ++ regulationFaults s.regulation ++ targetFaults s.targets
    ++ reserveCallFaults s.reserveCalls

theorem demand_eq_nil {met : Bool} {field : String} {requirement : Requirement} :
    demand met field requirement = [] ↔ met = true := by
  cases met <;> simp [demand]

/-- A scenario without faults names a ramp mode. -/
theorem rampMode?_of_faults_eq_nil {s : Scenario α} (h : s.faults = []) :
    ∃ mode, s.rampMode? = .ok mode := by
  cases e : s.rampMode? with
  | ok mode => exact ⟨mode, rfl⟩
  | error _ => simp [faults, e] at h

end Scenario

end UnitDispatch
