import UnitDispatch.RegulatedUnit.Basic
import UnitDispatch.Roster

/-! # Actions on a regulated unit

All that can be done to a regulated unit, with what each action makes it tell its roster.
-/

namespace UnitDispatch

open Quantity

namespace RegulatedUnit

variable {α : Type} [Quantity α]

/-- Makes ready to advance from `time`. -/
def start (u : RegulatedUnit α) (time : α) : RegulatedUnit α :=
  { u with generator := u.generator.start time }

/-- Makes ready to advance from `time` with a level of regulation already delivered. -/
def startWith (u : RegulatedUnit α) (time level : α) : RegulatedUnit α :=
  let u := u.start time
  let level := u.holdRegulation level
  { u with
    current := level
    commanded := level
    generator := { u.generator with output := u.generator.base + level } }

/-- Commands a level of regulation. -/
def regulate (u : RegulatedUnit α) (level : α) : RegulatedUnit α :=
  { u with commanded := u.holdRegulation level }

/-- Changes participation. An upward fraction given alone holds downward too. -/
def participate (u : RegulatedUnit α) (active : Bool) (up down : Option α) : RegulatedUnit α :=
  let (up, down) := match up with
    | some up => (clamp 0 1 up, clamp 0 1 (down.getD up))
    | none => (u.upFraction, (down.map (clamp 0 1)).getD u.downFraction)
  { u with upFraction := up, downFraction := down, enabled := active }.applyEnvelope

/-- Changes a setting. -/
def set (u : RegulatedUnit α) (setting : UnitSetting) (value : α) : RegulatedUnit α :=
  match setting with
  | .max => { u with physical := { u.physical with powerMax := value } }.applyEnvelope
  | .min => { u with physical := { u.physical with powerMin := value } }.applyEnvelope
  | .ramp => { u with physical := u.physical.withRamp value }.applyEnvelope
  | .rampUp => { u with physical := { u.physical with rampUp := value } }.applyEnvelope
  | .rampDown => { u with physical := { u.physical with rampDown := magnitude value } }.applyEnvelope
  | .rating => { u with rating := value }.applyEnvelope
  | .fraction => u.participate u.enabled (some value) none
  | .upFraction => u.participate u.enabled (some value) (some u.downFraction)
  | .downFraction => u.participate u.enabled none (some value)
  | .enabled => u.participate (decide (0 < value)) none none
  | .generator setting => { u with generator := u.generator.set setting value }

/-- Changes the setting that goes by a key. -/
def setKey (u : RegulatedUnit α) (key : String) (value : α) :
    Except SettingError (RegulatedUnit α) :=
  (UnitSetting.ofKey? key).map fun setting => u.set setting value

/-- Changes a setting that is a text. -/
def setText (u : RegulatedUnit α) (key value : String) : Except SettingError (RegulatedUnit α) :=
  (u.generator.setText key value).map fun generator => { u with generator }

/-- Reads the value that goes by a key: the power limits left to the generator, and the ramp limits
the unit physically has. -/
def read (u : RegulatedUnit α) (key : String) : Except SettingError α :=
  match key with
  | "max" => .ok u.generator.envelope.powerMax
  | "min" => .ok u.generator.envelope.powerMin
  | "rampup" => .ok u.physical.rampUp
  | "rampdown" => .ok u.physical.rampDown
  | "rating" | "base" => .ok u.rating
  | "regupfrac" => .ok u.upFraction
  | "regdownfrac" => .ok u.downFraction
  | "regenabled" => .ok (if u.enabled then 1 else 0)
  | _ => u.generator.read key

/-- Acts on a message. -/
def receive (u : RegulatedUnit α) : Message α → RegulatedUnit α × Outcome
  | .updateRegulationTarget level => (u.regulate level, .applied)
  | message =>
    let (generator, outcome) := u.generator.receive message
    ({ u with generator }, outcome)

/-- What can be done to a regulated unit. -/
inductive Action (α : Type) where
  | start (time : α)
  | startWith (time level : α)
  | teardown
  | add (time power : α)
  | addNow (power : α)
  | addAll (times powers : List α)
  | clear
  | callReserve (level : α)
  | advance (time : α)
  | regulate (level : α)
  | participate (active : Bool) (up down : Option α)
  | set (setting : UnitSetting) (value : α)
  | setKey (key : String) (value : α)
  | setMode (mode : RampMode)
  | setText (key value : String)
  | receive (message : Message α)
  deriving Repr

/-- Does one thing to a unit; what is refused changes nothing. -/
def act (u : RegulatedUnit α) : Action α → RegulatedUnit α
  | .start time => u.start time
  | .startWith time level => u.startWith time level
  | .teardown | .clear => { u with generator := u.generator.clear }
  | .add time power => { u with generator := u.generator.add time power }
  | .addNow power => { u with generator := u.generator.addNow power }
  | .addAll times powers => { u with generator := u.generator.addAll times powers }
  | .callReserve level => { u with generator := u.generator.callReserve level }
  | .advance time => u.advance time
  | .regulate level => u.regulate level
  | .participate active up down => u.participate active up down
  | .set setting value => u.set setting value
  | .setKey key value => (u.setKey key value).toOption.getD u
  | .setMode mode => { u with generator := u.generator.setMode mode }
  | .setText key value => (u.setText key value).toOption.getD u
  | .receive message => (u.receive message).1

/-- What a change of participation has a unit tell its roster. -/
def callsOfParticipation (u : RegulatedUnit α) (active : Bool) : List RosterCall :=
  match u.enabled, active with
  | false, true => [.join, .changed]
  | true, false => [.leave, .changed]
  | _, _ => [.changed]

/-- What a change of a setting has a unit tell its roster. -/
def callsOfSetting (u : RegulatedUnit α) (setting : UnitSetting) (value : α) : List RosterCall :=
  match setting with
  | .enabled => u.callsOfParticipation (decide (0 < value))
  | .generator _ => []
  | _ => [.changed]

/-- What an action has a unit tell its roster: it joins when it starts with a fraction kept. -/
def calls (u : RegulatedUnit α) : Action α → List RosterCall
  | .start _ | .startWith _ _ => if 0 < u.upFraction ∨ 0 < u.downFraction then [.join] else []
  | .teardown => [.leave]
  | .participate active _ _ => u.callsOfParticipation active
  | .set setting value => u.callsOfSetting setting value
  | .setKey key value =>
    match UnitSetting.ofKey? key with
    | .ok setting => u.callsOfSetting setting value
    | .error _ => []
  | _ => []

/-- Does one thing after another. -/
def run (u : RegulatedUnit α) (actions : List (Action α)) : RegulatedUnit α := actions.foldl act u

theorem run_nil (u : RegulatedUnit α) : u.run [] = u := rfl

theorem run_cons (u : RegulatedUnit α) (a : Action α) (as : List (Action α)) :
    u.run (a :: as) = (u.act a).run as := rfl

/-- What every action keeps holds after every run. -/
theorem run_induction {P : RegulatedUnit α → Prop} (keep : ∀ u a, P u → P (u.act a))
    {u : RegulatedUnit α} (h : P u) (actions : List (Action α)) : P (u.run actions) := by
  induction actions generalizing u with
  | nil => exact h
  | cons a as ih => exact ih (keep u a h)

end RegulatedUnit

end UnitDispatch
