import UnitDispatch.Quantity
import UnitDispatch.RampMode

/-! # Legs

A leg is one stretch of a trajectory: a rate, and the time at which the plan is to be looked at
again. `RampMode.leg` plans the leg toward a setpoint that is not yet due, from nothing but where
the generator stands, what is asked of it and the rate it now has.
-/

namespace UnitDispatch

open Quantity

/-- A rate to keep, and the time at which to plan again. -/
structure Leg (α : Type) where
  rate : α
  review : α
  deriving Repr

/-- A generator on its way to a setpoint that is not yet due. -/
structure Approach (α : Type) where
  now : α
  /-- When the last setpoint fell due. -/
  last : α
  /-- When the setpoint ahead falls due. -/
  due : α
  /-- The power still missing, negative when there is too much. -/
  delta : α
  /-- The rate at present. -/
  rate : α
  /-- The upward ramp limit, less what is kept for the reserve. -/
  limitUp : α
  /-- The downward ramp limit, a magnitude. -/
  limitDown : α
  /-- Least duration of a ramp in the midpoint and delayed modes. -/
  rampTime : α
  deriving Repr

namespace Approach

variable {α : Type} [Quantity α]

/-- The time left. -/
def remaining (a : Approach α) : α := a.due - a.now

/-- A rate held within the ramp limits. -/
def hold (a : Approach α) (rate : α) : α := limit (-a.limitDown) a.limitUp rate

/-- Moves steadily until the setpoint is due. -/
def steady (a : Approach α) : Leg α := ⟨a.hold (a.delta / a.remaining), a.due⟩

/-- Where the window of a midpoint ramp opens: it is centred between the last setpoint and the
next. -/
def windowStart (a : Approach α) : α := a.last + (a.due - a.last - a.rampTime) / 2

def windowEnd (a : Approach α) : α := a.windowStart + a.rampTime

/-- Goes on after the window has closed: at the present rate if it leads toward the setpoint, else
steadily, until the missing power is delivered or the setpoint is due. -/
def finish (a : Approach α) : Leg α :=
  let rate := if 0 < a.rate * a.delta then a.hold a.rate else a.hold (a.delta / a.remaining)
  ⟨rate, if rate == 0 then a.due else lesser (a.now + a.delta / rate) a.due⟩

/-- Rests until the window opens, ramps through it, and finishes after it. With less than the ramp
time left before the window has closed there is no window to keep to. -/
def centred (a : Approach α) : Leg α :=
  if a.rampTime ≤ a.remaining then
    if a.now < a.windowStart then ⟨0, a.windowStart⟩
    else if a.now < a.windowEnd then ⟨a.hold (a.delta / (a.windowEnd - a.now)), a.windowEnd⟩
    else a.finish
  else if a.windowEnd ≤ a.now then a.finish
  else a.steady

/-- How long a ramp at the limit takes, stretched to the ramp time and cut to the time left. -/
def stretch (a : Approach α) : α :=
  let bound := if 0 < a.delta then a.limitUp else a.limitDown
  let shortest := if 0 < bound then magnitude a.delta / bound else a.remaining
  let stretched := lesser (greater shortest a.rampTime) a.remaining
  if stretched ≤ 0 then a.remaining else stretched

/-- Ramps at once, over the stretched duration. -/
def prompt (a : Approach α) : Leg α := ⟨a.hold (a.delta / a.stretch), a.now + a.stretch⟩

end Approach

/-- The leg a mode plans. -/
def RampMode.leg {α : Type} [Quantity α] (mode : RampMode) (a : Approach α) : Leg α :=
  match mode with
  | .midpoint => a.centred
  | .delayed => a.prompt
  | .interpolated | .justInTime | .onTargetRamp => a.steady

/-- A reserved mode plans as the mode it stands for. -/
theorem RampMode.leg_effective {α : Type} [Quantity α] (mode : RampMode) (a : Approach α) :
    mode.effective.leg a = mode.leg a := by
  cases mode <;> rfl

end UnitDispatch
