/-! # Control messages

What a dispatch centre may tell a unit, and whether the unit did anything about it.
-/

namespace UnitDispatch

/-- A message to a unit. Setpoints come as times and powers, paired in order; what one list has
beyond the other is left out. -/
inductive Message (α : Type) where
  /-- Drop the schedule and stop ramping. -/
  | clearTargets
  | shutdown
  | startup
  /-- Add setpoints to the schedule. -/
  | addTargets (times powers : List α)
  /-- Put setpoints in the place of the schedule. -/
  | updateTargets (times powers : List α)
  /-- Change the reserve held available. -/
  | updateReserves (available : α)
  /-- Call on the reserve. -/
  | useReserve (level : α)
  /-- Command a level of regulation. -/
  | updateRegulationTarget (level : α)
  /-- Take the sender for the dispatcher. -/
  | registerDispatcher (source : Nat)
  deriving Repr

/-- The short name of a message. -/
def Message.kind {α : Type} : Message α → String
  | clearTargets => "clear-targets"
  | shutdown => "shutdown"
  | startup => "startup"
  | addTargets _ _ => "add-targets"
  | updateTargets _ _ => "update-targets"
  | updateReserves _ => "update-reserves"
  | useReserve _ => "use-reserve"
  | updateRegulationTarget _ => "update-regulation-target"
  | registerDispatcher _ => "register-dispatcher"

/-- Whether a unit acted on a message. -/
inductive Outcome where
  | applied
  /-- The message has no meaning for this unit. -/
  | ignored
  deriving DecidableEq, Repr

end UnitDispatch
