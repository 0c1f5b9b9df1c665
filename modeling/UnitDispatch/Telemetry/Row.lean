import UnitDispatch.Decimal.FixedPlaces

/-! # Telemetry rows

What a simulation records of one step, and the line that shows it.
-/

namespace UnitDispatch

/-- The record of one step. -/
structure Row (α : Type) where
  step : Nat
  /-- The time at the end of the step. -/
  time : α
  /-- The power next asked for, or the committed power when nothing is. -/
  target : α
  committed : α
  reserve : α
  /-- Regulation commanded. -/
  command : α
  /-- Regulation delivered. -/
  regulation : α
  output : α
  /-- The rate at which the output moved over the step. -/
  ramp : α
  /-- Whether that rate kept to the ramp limits. -/
  withinLimits : Bool
  /-- Setpoints that fell due during the step. -/
  consumed : Nat
  deriving Repr

/-- The text of a truth value. -/
def flagText (b : Bool) : String := if b then "true" else "false"

/-- The line that shows a row. -/
def Row.line (r : Row Float) : String :=
  let shown (width places : Nat) (x : Float) := Decimal.padLeft width (Decimal.fixedPlaces places x)
  "k=" ++ Decimal.padLeft 4 (toString r.step) ++ " t=" ++ shown 8 1 r.time
    ++ "s | out=" ++ shown 8 3 r.output ++ "  target=" ++ shown 8 3 r.target
    ++ "  committed=" ++ shown 8 3 r.committed
    ++ " | res=" ++ shown 6 3 r.reserve ++ "  reg=" ++ shown 6 3 r.regulation
    ++ " (cmd=" ++ shown 6 3 r.command ++ ") | ramp=" ++ shown 7 4 r.ramp
    ++ "/s ok=" ++ flagText r.withinLimits

end UnitDispatch
