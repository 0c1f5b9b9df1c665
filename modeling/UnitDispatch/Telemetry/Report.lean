import UnitDispatch.Quantity
import UnitDispatch.Telemetry.Row

/-! # Trajectory reports

The indicators of a whole run, computed from its rows.
-/

namespace UnitDispatch

open Quantity

/-- The indicators of a run. -/
structure Report (α : Type) where
  peak : α
  least : α
  /-- The largest ramp, as a magnitude. -/
  steepest : α
  /-- Steps whose ramp broke the limits. -/
  violations : Nat
  /-- Setpoints that fell due. -/
  consumed : Nat
  /-- Mean distance of regulation delivered from regulation commanded. -/
  regulationError : α
  /-- Energy delivered, in hours of power. -/
  energy : α
  deriving Repr

namespace Report

variable {α : Type} [Quantity α]

def secondsPerHour : α := 3600

/-- The report of no rows. -/
def empty : Report α := ⟨0, 0, 0, 0, 0, 0, 0⟩

/-- The report of some rows that each take `step` seconds. -/
def ofRows (rows : List (Row α)) (step : α) : Report α :=
  if rows.isEmpty then empty
  else
    { peak := rows.foldl (fun acc r => greater acc r.output) (-unbounded)
      least := rows.foldl (fun acc r => lesser acc r.output) unbounded
      steepest := rows.foldl (fun acc r => greater acc (magnitude r.ramp)) 0
      violations := rows.countP (!·.withinLimits)
      consumed := rows.foldl (fun acc r => acc + r.consumed) 0
      regulationError :=
        rows.foldl (fun acc r => acc + magnitude (r.command - r.regulation)) 0
          / ofNat rows.length
      energy := rows.foldl (fun acc r => acc + r.output * step / secondsPerHour) 0 }

/-- A run within its limits has no violations to report. -/
theorem violations_ofRows {rows : List (Row α)} {step : α}
    (h : ∀ r ∈ rows, r.withinLimits = true) : (ofRows rows step).violations = 0 := by
  unfold ofRows
  split
  · rfl
  · simpa [List.countP_eq_zero] using h

end Report

/-- The lines that show a report, the last without a line end. -/
def Report.text (r : Report Float) : String :=
  let line (label value : String) := label ++ value ++ "\n"
  line "--- Trajectory Report ---" ""
    ++ line "Peak output:           " (Decimal.fixedPlaces 3 r.peak ++ " MW")
    ++ line "Minimum output:        " (Decimal.fixedPlaces 3 r.least ++ " MW")
    ++ line "Max observed ramp:     " (Decimal.fixedPlaces 4 r.steepest ++ " MW/s")
    ++ line "Ramp violations:       " (toString r.violations)
    ++ line "Targets consumed:      " (toString r.consumed)
    ++ line "Regulation MAE:        " (Decimal.fixedPlaces 4 r.regulationError ++ " MW")
    ++ "Energy delivered:      " ++ Decimal.fixedPlaces 3 r.energy ++ " MWh"

end UnitDispatch
