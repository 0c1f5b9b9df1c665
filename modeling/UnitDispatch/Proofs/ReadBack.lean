import UnitDispatch.Proofs.DecimalText
import UnitDispatch.Telemetry.Csv

/-! # Telemetry read back

A table needs no quotes, so it falls into records and fields by its line ends and commas alone
(`read?_joined`), and the fields under the names of the header give back the row they were made of:
`table_gives_back`. How a record is written is left open but for `Joins`.
-/

namespace UnitDispatch.Csv

/-! ## Records of plain fields -/

/-- A field that has something in it, and nothing that needs quotes. -/
def isPlain (field : String) : Bool := !field.isEmpty && !field.toList.any isSpecial

/-- Joins plain fields, of which there is one at least, by commas and ends the record. -/
def Joins (write : List String → String) : Prop :=
  ∀ fields, fields ≠ [] → (∀ f ∈ fields, isPlain f = true) →
    write fields = String.intercalate "," fields ++ "\n"

theorem isPlain_iff {f : String} :
    isPlain f = true ↔ f ≠ "" ∧ ∀ c ∈ f.toList, isSpecial c = false := by
  simp [isPlain]

theorem joins_record : Joins record := by
  intro fields _ plain
  have same : fields.map field = fields := by
    refine (List.map_congr_left fun f hf => ?_).trans fields.map_id
    have := (isPlain_iff.mp (plain f hf)).2
    exact field_of_plain (by simpa using this)
  rw [record, same]

/-- Reads a table that has no quotes, record by record. -/
def read? (text : String) : Option (List (List String)) :=
  let lines := text.toList.splitOn '\n'
  if text.toList.any (fun c => c == '"' || c == '\r') || lines.getLast? != some [] then none
  else some (lines.dropLast.map fun line => (line.splitOn ',').map String.ofList)

/-- Ended lines are split at their ends. -/
theorem splitOn_ended {lines : List (List Char)} (plain : ∀ l ∈ lines, '\n' ∉ l) :
    (lines.flatMap fun l => l ++ ['\n']).splitOn '\n' = lines ++ [[]] := by
  induction lines with
  | nil => rfl
  | cons l rest ih =>
    obtain ⟨first, plain⟩ := List.forall_mem_cons.mp plain
    rw [List.flatMap_cons, List.append_assoc, List.singleton_append,
      List.splitOn_append_cons_self_of_not_mem first, ih plain, List.cons_append]

/-- Joined fields are split at the commas. -/
theorem splitOn_joined {fields : List String} (some : fields ≠ [])
    (plain : ∀ f ∈ fields, isPlain f = true) :
    ((String.intercalate "," fields).toList.splitOn ',').map String.ofList = fields := by
  have commas : ∀ l ∈ fields.map String.toList, ',' ∉ l := by
    intro l hl comma
    obtain ⟨f, hf, rfl⟩ := List.mem_map.mp hl
    cases (isPlain_iff.mp (plain f hf)).2 ',' comma
  rw [String.toList_intercalate]
  show (List.splitOn ',' ([','].intercalate (fields.map String.toList))).map String.ofList = fields
  rw [List.splitOn_intercalate ',' commas (by simpa using some), List.map_map]
  exact (List.map_congr_left fun f _ => String.ofList_toList).trans fields.map_id

/-- Apart from the commas, the characters of a record are those of its fields. -/
theorem eq_comma_or_mem {c : Char} {fields : List String}
    (hc : c ∈ (String.intercalate "," fields).toList) : c = ',' ∨ ∃ f ∈ fields, c ∈ f.toList := by
  rw [String.toList_intercalate] at hc
  induction fields with
  | nil => cases hc
  | cons f rest ih =>
    cases rest with
    | nil => exact .inr ⟨f, List.mem_cons_self, by simpa using hc⟩
    | cons g rest =>
      rw [List.map_cons, List.map_cons, List.intercalate_cons_cons, List.mem_append,
        List.mem_append] at hc
      rcases hc with (hc | hc) | hc
      · exact .inr ⟨f, List.mem_cons_self, hc⟩
      · exact .inl (by simpa using hc)
      · rcases ih hc with comma | ⟨f, hf, hc⟩
        · exact .inl comma
        · exact .inr ⟨f, List.mem_cons_of_mem _ hf, hc⟩

/-- Records of plain fields are read as they were joined. -/
theorem read?_joined {records : List (List String)}
    (plain : ∀ r ∈ records, r ≠ [] ∧ ∀ f ∈ r, isPlain f = true) :
    read? (String.join (records.map fun r => String.intercalate "," r ++ "\n")) =
      some records := by
  let lines := records.map fun r => (String.intercalate "," r).toList
  have text : (String.join (records.map fun r => String.intercalate "," r ++ "\n")).toList =
      lines.flatMap fun l => l ++ ['\n'] := by
    rw [String.toList_join, List.flatMap_map, List.flatMap_map]
    simp
  -- A comma is the only special character within a line, so lines end only where they should.
  have only : ∀ l ∈ lines, ∀ c ∈ l, c = ',' ∨ isSpecial c = false := by
    intro l hl c hc
    obtain ⟨r, hr, rfl⟩ := List.mem_map.mp hl
    rcases eq_comma_or_mem hc with comma | ⟨f, hf, hc⟩
    · exact .inl comma
    · exact .inr ((isPlain_iff.mp ((plain r hr).2 f hf)).2 c hc)
  have unended : ∀ l ∈ lines, '\n' ∉ l := by
    intro l hl hc
    rcases only l hl '\n' hc with h | h <;> cases h
  have unquoted : ((lines.flatMap fun l => l ++ ['\n']).any fun c => c == '"' || c == '\r') =
      false := by
    rw [List.any_eq_false]
    intro c hc quoted
    obtain ⟨l, hl, hc⟩ := List.mem_flatMap.mp hc
    rw [Bool.or_eq_true, beq_iff_eq, beq_iff_eq] at quoted
    rcases List.mem_append.mp hc with hc | hc
    · rcases only l hl c hc with rfl | inner
      · rcases quoted with quote | quote <;> cases quote
      · rcases quoted with rfl | rfl <;> cases inner
    · rw [List.mem_singleton.mp hc] at quoted
      rcases quoted with quote | quote <;> cases quote
  unfold read?
  rw [text, splitOn_ended unended, unquoted]
  simp only [List.getLast?_concat, List.dropLast_concat, bne_self_eq_false, Bool.or_self,
    Bool.false_eq_true, if_false, lines, List.map_map]
  congr 1
  refine (List.map_congr_left fun r hr => ?_).trans records.map_id
  exact splitOn_joined (plain r hr).1 (plain r hr).2

/-! ## Rows -/

/-- Reads a truth value. -/
def flag? (text : String) : Option Bool :=
  if text = "true" then some true else if text = "false" then some false else none

/-- What stands under a name. -/
def cell (names values : List String) (name : String) : Option String :=
  (names.zip values).lookup name

/-- A text reads as a double to so many places. -/
def Shows (places : ℕ) (text : Option String) (x : Float) : Prop :=
  ∃ y, text.bind Decimal.read? = some y ∧ Decimal.RoundsTo places (Decimal.value x) y

/-- What stands under the names of the columns gives back a row: its number and its flag as they
were, the time to a thousandth, powers and rates to a millionth. -/
structure GivesBack (names : List String) (row : Row Float) (values : List String) : Prop where
  arity : values.length = 10
  step : (cell names values "step").bind String.toNat? = some row.step
  time : Shows 3 (cell names values "time_s") row.time
  target : Shows 6 (cell names values "target_mw") row.target
  committed : Shows 6 (cell names values "committed_mw") row.committed
  reserve : Shows 6 (cell names values "reserve_mw") row.reserve
  command : Shows 6 (cell names values "regulation_command_mw") row.command
  regulation : Shows 6 (cell names values "regulation_mw") row.regulation
  output : Shows 6 (cell names values "output_mw") row.output
  ramp : Shows 6 (cell names values "ramp_mw_per_s") row.ramp
  withinLimits : (cell names values "ramp_ok").bind flag? = some row.withinLimits

theorem shows_fixedPlaces {places : ℕ} (pos : 0 < places) (x : Float) :
    Shows places (some (Decimal.fixedPlaces places x)) x :=
  Decimal.read?_fixedPlaces pos x

theorem givesBack_fields (row : Row Float) : GivesBack header row (fields row) where
  arity := rfl
  step := Nat.toNat?_repr row.step
  time := shows_fixedPlaces (by norm_num) row.time
  target := shows_fixedPlaces (by norm_num) row.target
  committed := shows_fixedPlaces (by norm_num) row.committed
  reserve := shows_fixedPlaces (by norm_num) row.reserve
  command := shows_fixedPlaces (by norm_num) row.command
  regulation := shows_fixedPlaces (by norm_num) row.regulation
  output := shows_fixedPlaces (by norm_num) row.output
  ramp := shows_fixedPlaces (by norm_num) row.ramp
  withinLimits := by
    show flag? (flagText row.withinLimits) = _
    cases row.withinLimits <;> rfl

theorem not_special {c : Char} (h : Decimal.isNumberChar c = true) : isSpecial c = false := by
  by_contra special
  simp only [isSpecial, Bool.not_eq_false, Bool.or_eq_true, beq_iff_eq] at special
  rcases special with ((rfl | rfl) | rfl) | rfl <;> cases h

theorem isPlain_fixedPlaces {places : ℕ} (pos : 0 < places) (x : Float) :
    isPlain (Decimal.fixedPlaces places x) = true := by
  refine isPlain_iff.mpr ⟨?_, fun c hc => not_special (Decimal.isNumberChar_of_mem pos hc)⟩
  intro nothing
  obtain ⟨y, read, -⟩ := Decimal.read?_fixedPlaces pos x
  rw [nothing] at read
  cases read

theorem isPlain_toString (n : ℕ) : isPlain (toString n) = true := by
  obtain ⟨some, digits⟩ := Decimal.isNumeral_iff.mp (Decimal.isNumeral_toDigits n)
  rw [isPlain_iff, Nat.toString_eq_ofList_toDigits, String.toList_ofList]
  refine ⟨?_, ?_⟩
  · intro nothing
    exact some (by simpa using congrArg String.toList nothing)
  · intro c hc
    exact not_special (by simp [Decimal.isNumberChar, digits c hc])

/-- No field of a row needs quotes, whatever its numbers are. -/
theorem isPlain_fields (row : Row Float) : ∀ f ∈ fields row, isPlain f = true := by
  have step := isPlain_toString row.step
  have time : isPlain (Decimal.fixedPlaces 3 row.time) = true :=
    isPlain_fixedPlaces (by norm_num) row.time
  have millionths (x : Float) : isPlain (Decimal.fixedPlaces 6 x) = true :=
    isPlain_fixedPlaces (by norm_num) x
  have flag : isPlain (flagText row.withinLimits) = true := by
    cases row.withinLimits <;> decide +kernel
  simp only [fields, List.forall_mem_cons, step, time, millionths, flag, true_and]
  exact List.forall_mem_nil _

/-- A table reads as its header and the fields of each row, in order. -/
theorem read?_tableBy {write : List String → String} (joins : Joins write)
    (rows : List (Row Float)) : read? (tableBy write rows) = some (header :: rows.map fields) := by
  have named : ∀ f ∈ header, isPlain f = true := by decide +kernel
  have each : rows.map (fun row => write (fields row)) =
      (rows.map fields).map fun r => String.intercalate "," r ++ "\n" := by
    rw [List.map_map]
    exact List.map_congr_left fun row _ =>
      joins (fields row) (List.cons_ne_nil _ _) (isPlain_fields row)
  have whole : tableBy write rows = String.join ((header :: rows.map fields).map fun r =>
      String.intercalate "," r ++ "\n") := by
    rw [tableBy, joins header (List.cons_ne_nil _ _) named, each, List.map_cons, String.join_cons]
  rw [whole]
  refine read?_joined ?_
  intro r hr
  rcases List.mem_cons.mp hr with rfl | hr
  · exact ⟨List.cons_ne_nil _ _, named⟩
  · obtain ⟨row, -, rfl⟩ := List.mem_map.mp hr
    exact ⟨List.cons_ne_nil _ _, isPlain_fields row⟩

/-- Whatever its rows hold, a table falls into its header and a record for each row, in order, that
gives back the row. -/
theorem table_gives_back {write : List String → String} (joins : Joins write)
    (rows : List (Row Float)) :
    ∃ records, read? (tableBy write rows) = some (header :: records) ∧ header.length = 10 ∧
      List.Forall₂ (GivesBack header) rows records := by
  refine ⟨rows.map fields, read?_tableBy joins rows, rfl, ?_⟩
  rw [List.forall₂_map_right_iff]
  exact List.forall₂_same.mpr fun row _ => givesBack_fields row

/-- Numbers that are not finite, signed zeros and a carry through all digits. -/
theorem table_gives_back_carried :
    let rows : List (Row Float) :=
      [⟨0, -0.0, 0 / 0, 1 / 0, -1 / 0, -1e-9, 0.9999995, 1e300, -5e-324, true, 0⟩,
        ⟨18446744073709551615, 0.0005, 2.5e-6, 999999.9999996, -12.25, 0, 0, 7, 1e-7, false, 3⟩]
    Joins record ∧ ∃ records, read? (tableBy record rows) = some (header :: records) ∧
      header.length = 10 ∧ List.Forall₂ (GivesBack header) rows records :=
  ⟨joins_record, table_gives_back joins_record _⟩

end UnitDispatch.Csv
