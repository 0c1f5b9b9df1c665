import UnitDispatch.Generator.Trajectory
import UnitDispatch.Message

/-! # Actions on a generator

All that can be done to a generator from outside. `Generator.run` puts a generator through a list
of actions, so that what holds of every run holds of every history.
-/

namespace UnitDispatch

open Quantity

namespace Generator

variable {α : Type} [Quantity α]

/-- Makes ready to advance from `time`: older setpoints are dropped, those due at `time` count. -/
def start (g : Generator α) (time : α) : Generator α :=
  let g := { g with schedule := g.schedule.dropBefore time, now := time, last := time }.replan
  { g with slope := g.rate }

/-- Queues a setpoint, and revises the plan when it is the next thing to attend to. -/
def add (g : Generator α) (time power : α) : Generator α :=
  let g := { g with schedule := g.schedule.insert ⟨time, power, false⟩ }
  let g := if time < g.review then { g with review := time } else g
  if time == g.review then g.replan else g

/-- Queues a setpoint due at once. -/
def addNow (g : Generator α) (power : α) : Generator α := g.add g.now power

/-- Queues setpoints in order. -/
def addAll (g : Generator α) (times powers : List α) : Generator α :=
  (times.zip powers).foldl (fun g p => g.add p.1 p.2) g

/-- A setpoint is put on the schedule, whatever the review is then, and the plan may be revised. -/
theorem add_induction {P : Generator α → Prop} {g : Generator α} {time power : α}
    (queued : ∀ review,
      P { g with schedule := g.schedule.insert ⟨time, power, false⟩, review })
    (replan : ∀ h, P h → P h.replan) : P (g.add time power) := by
  unfold add
  dsimp only
  split <;> split
  · exact replan _ (queued time)
  · exact queued time
  · exact replan _ (queued g.review)
  · exact queued g.review

/-- What queueing each of some setpoints keeps, queueing all of them keeps. -/
theorem addAll_induction {P : Generator α → Prop} {times powers : List α}
    (add : ∀ g, ∀ p ∈ times.zip powers, P g → P (g.add p.1 p.2)) {g : Generator α} (h : P g) :
    P (g.addAll times powers) := by
  unfold addAll
  generalize times.zip powers = list at add ⊢
  induction list generalizing g with
  | nil => exact h
  | cons p rest ih =>
    have keep : ∀ g, ∀ q ∈ rest, P g → P (g.add q.1 q.2) :=
      fun g q hq => add g q (List.mem_cons_of_mem p hq)
    exact ih (add g p List.mem_cons_self h) keep

/-- Drops the schedule and stops ramping. -/
def clear (g : Generator α) : Generator α :=
  { g with schedule := g.schedule.clear, rate := 0, review := unbounded }

/-- Calls on the reserve. -/
def callReserve (g : Generator α) (level : α) : Generator α :=
  { g with reserve := g.reserve.call level }.replan

/-- Changes the reserve held available. -/
def holdReserve (g : Generator α) (available : α) : Generator α :=
  { g with reserve := g.reserve.hold available }.replan

def setRampLimits (g : Generator α) (up down : α) : Generator α :=
  { g with envelope := { g.envelope with rampUp := up, rampDown := magnitude down } }.replan

def setPowerLimits (g : Generator α) (min max : α) : Generator α :=
  { g with envelope := { g.envelope with powerMin := min, powerMax := max } }.replan

def setMode (g : Generator α) (mode : RampMode) : Generator α := { g with mode }.replan

/-- Puts a value in its place without revising the plan. -/
def assign (g : Generator α) (setting : GeneratorSetting) (value : α) : Generator α :=
  match setting with
  | .ramp => { g with envelope := g.envelope.withRamp value }
  | .rampUp => { g with envelope := { g.envelope with rampUp := value } }
  | .rampDown => { g with envelope := { g.envelope with rampDown := magnitude value } }
  | .ramp10 => { g with ramp10 := .both value }
  | .ramp10Up => { g with ramp10 := { g.ramp10 with up := value } }
  | .ramp10Down => { g with ramp10 := { g.ramp10 with down := magnitude value } }
  | .ramp30 => { g with ramp30 := .both value }
  | .ramp30Up => { g with ramp30 := { g.ramp30 with up := value } }
  | .ramp30Down => { g with ramp30 := { g.ramp30 with down := magnitude value } }
  | .rampTime => { g with rampTime := value }
  | .reserveRampTime => { g with reserve := { g.reserve with rampTime := value } }
  | .min => { g with envelope := { g.envelope with powerMin := value } }
  | .max => { g with envelope := { g.envelope with powerMax := value } }
  | .reserve => { g with reserve := g.reserve.hold value }
  | .target => g

/-- Changes a setting and revises the plan; a target is a setpoint due at once. -/
def set (g : Generator α) (setting : GeneratorSetting) (value : α) : Generator α :=
  match setting with
  | .target => g.addNow value
  | setting => (g.assign setting value).replan

/-- Changes the setting that goes by a key. -/
def setKey (g : Generator α) (key : String) (value : α) : Except SettingError (Generator α) :=
  (GeneratorSetting.ofKey? key).map fun setting => g.set setting value

/-- Changes a setting that is a text; the mode is the only one. -/
def setText (g : Generator α) (key value : String) : Except SettingError (Generator α) :=
  if key == RampMode.key then (RampMode.ofName? value).map g.setMode
  else .error (.unknownKey key)

/-- Reads the value that goes by a key. -/
def read (g : Generator α) (key : String) : Except SettingError α :=
  match key with
  | "reserve" => .ok g.reserve.available
  | "min" => .ok g.envelope.powerMin
  | "max" => .ok g.envelope.powerMax
  | "rampup" => .ok g.envelope.rampUp
  | "rampdown" => .ok g.envelope.rampDown
  | "ramptime" => .ok g.rampTime
  | "target" => .ok g.target
  | _ => .error (.unknownKey key)

/-- Acts on a message. -/
def receive (g : Generator α) : Message α → Generator α × Outcome
  | .clearTargets => (g.clear, .applied)
  | .shutdown | .startup | .updateRegulationTarget _ => (g, .ignored)
  | .addTargets times powers => (g.addAll times powers, .applied)
  | .updateTargets times powers => (g.clear.addAll times powers, .applied)
  | .updateReserves available => (g.holdReserve available, .applied)
  | .useReserve level => (g.callReserve level, .applied)
  | .registerDispatcher source => ({ g with dispatcher := some source }, .applied)

/-- What can be done to a generator. -/
inductive Action (α : Type) where
  | start (time : α)
  | add (time power : α)
  | addNow (power : α)
  | addAll (times powers : List α)
  | clear
  | callReserve (level : α)
  | holdReserve (available : α)
  | advance (time : α)
  | set (setting : GeneratorSetting) (value : α)
  | setKey (key : String) (value : α)
  | setMode (mode : RampMode)
  | setText (key value : String)
  | setRampLimits (up down : α)
  | setPowerLimits (min max : α)
  | receive (message : Message α)
  deriving Repr

/-- Does one thing to a generator; what is refused changes nothing. -/
def act (g : Generator α) : Action α → Generator α
  | .start time => g.start time
  | .add time power => g.add time power
  | .addNow power => g.addNow power
  | .addAll times powers => g.addAll times powers
  | .clear => g.clear
  | .callReserve level => g.callReserve level
  | .holdReserve available => g.holdReserve available
  | .advance time => g.advance time
  | .set setting value => g.set setting value
  | .setKey key value => (g.setKey key value).toOption.getD g
  | .setMode mode => g.setMode mode
  | .setText key value => (g.setText key value).toOption.getD g
  | .setRampLimits up down => g.setRampLimits up down
  | .setPowerLimits min max => g.setPowerLimits min max
  | .receive message => (g.receive message).1

/-- Does one thing after another. -/
def run (g : Generator α) (actions : List (Action α)) : Generator α := actions.foldl act g

theorem run_nil (g : Generator α) : g.run [] = g := rfl

theorem run_cons (g : Generator α) (a : Action α) (as : List (Action α)) :
    g.run (a :: as) = (g.act a).run as := rfl

theorem run_append (g : Generator α) (as bs : List (Action α)) :
    g.run (as ++ bs) = (g.run as).run bs := by
  simp [run]

/-- What every action keeps holds after every run. -/
theorem run_induction {P : Generator α → Prop} (keep : ∀ g a, P g → P (g.act a))
    {g : Generator α} (h : P g) (actions : List (Action α)) : P (g.run actions) := by
  induction actions generalizing g with
  | nil => exact h
  | cons a as ih => exact ih (keep g a h)

end Generator

end UnitDispatch
