import UnitDispatch.Scenario.Check
import UnitDispatch.Toml.Document

/-! # Scenarios in TOML

How a scenario is written down. A section is a table of its fields, or an array of their values in
order, of which any number may be left out at the end and any number too many is passed over. A
field that is not known is an error; one that is not given keeps its standard value.
-/

namespace UnitDispatch

open Toml

/-! ## Values of fields -/

namespace Toml.Value

/-- A number; a whole one will do. -/
def number? : Value → Option Float
  | .float x => some x
  | .integer n => some (Float.ofInt n)
  | .undefined _ => some (0.0 / 0.0)
  | _ => none

/-- Whether a number is undefined and has a minus sign. -/
def isNegativeUndefined : Value → Bool
  | .undefined negative => negative
  | _ => false

/-- A count, which is whole and not negative. -/
def count? : Value → Option Nat
  | .integer (.ofNat n) => some n
  | _ => none

def boolean? : Value → Option Bool
  | .boolean b => some b
  | _ => none

def text? : Value → Option String
  | .string s => some s
  | _ => none

/-- The members of an array, however it was written. -/
def members? : Value → Option (List Value)
  | .array items | .tables items => some items
  | _ => none

/-- The fields of a section that are given, when it has fields of these names. -/
def fields? (names : List String) : Value → Option Entries
  | .table _ es => if es.all fun e => names.contains e.1 then some es else none
  | .array items | .tables items => some (names.zip items)
  | _ => none

end Toml.Value

/-- The value of a field, or its standard value. -/
def Toml.Entries.field {β : Type} (es : Entries) (name : String) (read : Value → Option β)
    (standard : β) : Option β :=
  match es.lookup name with
  | none => some standard
  | some value => read value

/-- The value of a field that has to be given. -/
def Toml.Entries.required {β : Type} (es : Entries) (name : String) (read : Value → Option β) :
    Option β :=
  es.lookup name >>= read

/-! ## Sections -/

def Timing.ofToml? (value : Value) : Option (Timing Float) := do
  let es ← value.fields? ["start_time", "step_secs", "steps", "seed"]
  let standard : Timing Float := .standard
  return {
    start := ← es.field "start_time" Value.number? standard.start
    step := ← es.field "step_secs" Value.number? standard.step
    steps := ← es.field "steps" Value.count? standard.steps
    seed := ← es.field "seed" (fun v => v.count?.map UInt64.ofNat) standard.seed }

def UnitPlan.ofToml? (value : Value) : Option (UnitPlan Float) := do
  let es ← value.fields? ["initial_output", "ramp_up", "ramp_down", "ramp_time", "mode",
    "power_min", "power_max", "reserve_available", "reserve_ramp_time"]
  let standard : UnitPlan Float := .standard
  return {
    initialOutput := ← es.field "initial_output" Value.number? standard.initialOutput
    rampUp := ← es.field "ramp_up" Value.number? standard.rampUp
    rampDown := ← es.field "ramp_down" Value.number? standard.rampDown
    rampTime := ← es.field "ramp_time" Value.number? standard.rampTime
    mode := ← es.field "mode" Value.text? standard.mode
    powerMin := ← es.field "power_min" Value.number? standard.powerMin
    powerMax := ← es.field "power_max" Value.number? standard.powerMax
    reserveAvailable := ← es.field "reserve_available" Value.number? standard.reserveAvailable
    reserveRampTime := ← es.field "reserve_ramp_time" Value.number? standard.reserveRampTime }

def RegulationPlan.ofToml? (value : Value) : Option (RegulationPlan Float) := do
  let es ← value.fields? ["enabled", "up_fraction", "down_fraction", "rating", "initial_level",
    "signal_amplitude", "signal_period_secs", "signal_alpha", "signal_noise_std"]
  let standard : RegulationPlan Float := .standard
  return {
    enabled := ← es.field "enabled" Value.boolean? standard.enabled
    upFraction := ← es.field "up_fraction" Value.number? standard.upFraction
    downFraction := ← es.field "down_fraction" Value.number? standard.downFraction
    rating := ← es.field "rating" Value.number? standard.rating
    initialLevel := ← es.field "initial_level" Value.number? standard.initialLevel
    signalAmplitude := ← es.field "signal_amplitude" Value.number? standard.signalAmplitude
    signalPeriod := ← es.field "signal_period_secs" Value.number? standard.signalPeriod
    signalAlpha := ← es.field "signal_alpha" Value.number? standard.signalAlpha
    signalDeviation := ← es.field "signal_noise_std" Value.number? standard.signalDeviation }

def Target.ofToml? (value : Value) : Option (Target Float) := do
  let es ← value.fields? ["time", "power"]
  return { time := ← es.required "time" Value.number?, power := ← es.required "power" Value.number? }

def ReserveCall.ofToml? (value : Value) : Option (ReserveCall Float) := do
  let es ← value.fields? ["time", "level"]
  return {
    time := ← es.required "time" Value.number?
    level := ← es.required "level" Value.number?
    foremost := (es.lookup "time").any Value.isNegativeUndefined }

/-- The scenario that a document describes. -/
def Scenario.ofEntries? (entries : Entries) : Option (Scenario Float) := do
  let es ← (Value.table .header entries).fields?
    ["simulation", "unit", "regulation", "targets", "reserve_calls"]
  let list {β : Type} (read : Value → Option β) (value : Value) : Option (List β) :=
    value.members? >>= List.mapM read
  return {
    timing := ← es.field "simulation" Timing.ofToml? .standard
    unit := ← es.field "unit" UnitPlan.ofToml? .standard
    regulation := ← es.field "regulation" RegulationPlan.ofToml? .standard
    targets := ← es.field "targets" (list Target.ofToml?) []
    reserveCalls := ← es.field "reserve_calls" (list ReserveCall.ofToml?) [] }

/-- The scenario that a text describes. -/
def Scenario.ofToml? (text : String) : Except ScenarioError (Scenario Float) :=
  match read? text >>= Scenario.ofEntries? with
  | some scenario => .ok scenario
  | none => .error .malformed

end UnitDispatch
