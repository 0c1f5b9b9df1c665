import UnitDispatch.Telemetry.Row

/-! # Telemetry as comma-separated values

A table is a header and one record per row. Fields are joined by commas, a record ends with a line
end, and a field is quoted only where it holds a comma, a quote or a line end.
-/

namespace UnitDispatch.Csv

/-- The characters that make a field need quotes. -/
def isSpecial (c : Char) : Bool := c == ',' || c == '"' || c == '\n' || c == '\r'

/-- A field as it is written; within quotes a quote stands twice. -/
def field (text : String) : String :=
  if text.toList.any isSpecial then
    "\"" ++ String.ofList (text.toList.flatMap fun c => if c == '"' then [c, c] else [c]) ++ "\""
  else text

/-- A record of fields. -/
def record (fields : List String) : String := String.intercalate "," (fields.map field) ++ "\n"

/-- The names of the columns. -/
def header : List String :=
  ["step", "time_s", "target_mw", "committed_mw", "reserve_mw", "regulation_command_mw",
    "regulation_mw", "output_mw", "ramp_mw_per_s", "ramp_ok"]

/-- The fields of a row: the time to a thousandth, powers and rates to a millionth. -/
def fields (r : Row Float) : List String :=
  let millionths := Decimal.fixedPlaces 6
  [toString r.step, Decimal.fixedPlaces 3 r.time, millionths r.target, millionths r.committed,
    millionths r.reserve, millionths r.command, millionths r.regulation, millionths r.output,
    millionths r.ramp, flagText r.withinLimits]

/-- The table of some rows, given how a record is written. -/
def tableBy (write : List String → String) (rows : List (Row Float)) : String :=
  write header ++ String.join (rows.map fun r => write (fields r))

/-- The table of some rows. -/
def table (rows : List (Row Float)) : String := tableBy record rows

theorem field_of_plain {text : String} (h : text.toList.any isSpecial = false) :
    field text = text := by
  simp [field, h]

theorem length_fields (r : Row Float) : (fields r).length = header.length := rfl

end UnitDispatch.Csv
