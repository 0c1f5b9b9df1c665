import UnitDispatch.Toml.Lexeme
import UnitDispatch.Toml.Value

/-! # TOML documents

Values, and the lines of a document: headers that open tables and keys that fill them. Reading takes
fuel from the length of the text, of which every second call takes a character.
-/

namespace UnitDispatch.Toml

/-! ## Values -/

/-- Takes a word. -/
def word? (word : String) (text : Text) : Option Text :=
  let letters := word.toList
  if text.take letters.length = letters then some (text.drop letters.length) else none

/-- Takes a number or a date. -/
def numeral? (text : Text) : Option (Value × Text) :=
  match date? text with
  | some rest => some (.date, rest)
  | none => (number? text).map fun
    | (.integer n, rest) => (.integer n, rest)
    | (.float x, rest) => (.float x, rest)
    | (.undefined negative, rest) => (.undefined negative, rest)

mutual

/-- Takes a value, within so many arrays and tables. -/
def value? (fuel depth : Nat) (text : Text) : Option (Value × Text) :=
  match fuel with
  | 0 => none
  | fuel + 1 =>
    match text with
    | [] => none
    | c :: rest =>
      if c == '"' || c == '\'' then
        (string? text).map fun (s, rest) => (.string s, rest)
      else if c == '[' then
        if nestingLimit ≤ depth + 1 then none
        else (items? fuel (depth + 1) rest).map fun (items, rest) => (.array items, rest)
      else if c == '\x7b' then
        if nestingLimit ≤ depth + 1 then none
        else match skipBlanks rest with
          | '\x7d' :: rest => some (.table .closed [], rest)
          | rest => (pairs? fuel (depth + 1) [] rest).map fun (es, rest) => (.table .closed es, rest)
      else if c == 't' then (word? "true" text).map fun rest => (.boolean true, rest)
      else if c == 'f' then (word? "false" text).map fun rest => (.boolean false, rest)
      else if c == '+' || c == '-' || c == 'i' || c == 'n' || c.isDigit then numeral? text
      else none

/-- Takes the rest of an array: values with commas between, and perhaps one at the end. -/
def items? (fuel depth : Nat) (text : Text) : Option (List Value × Text) :=
  match fuel with
  | 0 => none
  | fuel + 1 =>
    match skipFiller false text with
    | ']' :: rest => some ([], rest)
    | text => do
      let (item, rest) ← value? fuel depth text
      match skipFiller false rest with
      | ',' :: rest => do
        let (items, rest) ← items? fuel depth rest
        return (item :: items, rest)
      | ']' :: rest => some ([item], rest)
      | _ => none

/-- Takes the rest of a table between braces: keys with values, and commas between. -/
def pairs? (fuel depth : Nat) (es : Entries) (text : Text) : Option (Entries × Text) :=
  match fuel with
  | 0 => none
  | fuel + 1 => do
    let ((path, key), rest) ← key? text
    let (value, rest) ← value? fuel depth (skipBlanks (← take? '=' rest))
    let es ← es.addDotted .header path key value
    match skipBlanks rest with
    | ',' :: rest => pairs? fuel depth es rest
    | '\x7d' :: rest => some (es, rest)
    | _ => none

end

/-! ## Lines -/

/-- A document as far as it is read: what it holds, and the table that is open. -/
structure Draft where
  entries : Entries := []
  /-- The path to the open table; the document itself at first. -/
  place : List String := []

namespace Draft

/-- Adds a value under a dotted key of the open table. -/
def add (d : Draft) (path : List String) (key : String) (value : Value) : Option Draft := do
  let entries ← d.entries.update .implied (fun origin es => es.addDotted origin path key value)
    d.place .header
  return { d with entries }

/-- Opens a table. -/
def openTable (d : Draft) (path : List String) (key : String) : Option Draft := do
  return { entries := ← d.entries.openTable path key, place := path ++ [key] }

/-- Opens one more of some gathered tables. -/
def openNext (d : Draft) (path : List String) (key : String) : Option Draft := do
  return { entries := ← d.entries.openNext path key, place := path ++ [key] }

/-- Takes a header or a key with its value. -/
def line? (d : Draft) (text : Text) : Option (Draft × Text) :=
  match text with
  | '[' :: '[' :: rest => do
    let ((path, key), rest) ← key? rest
    let rest ← take? ']' (← take? ']' rest)
    return (← d.openNext path key, rest)
  | '[' :: rest => do
    let ((path, key), rest) ← key? rest
    let rest ← take? ']' rest
    return (← d.openTable path key, rest)
  | _ => do
    let ((path, key), rest) ← key? text
    let rest := skipBlanks (← take? '=' rest)
    let (value, rest) ← value? (2 * rest.length + 2) 0 rest
    return (← d.add path key value, rest)

/-- Takes line after line; blank lines and comments stand between. -/
def lines? : Nat → Draft → Text → Option Draft
  | 0, _, _ => none
  | fuel + 1, d, text =>
    match skipFiller false text with
    | [] => some d
    | text => do
      let (d, rest) ← d.line? text
      lines? fuel d (← endOfLine? rest)

end Draft

/-- Reads a document; a byte order mark at its start does not count. -/
def read? (text : String) : Option Entries :=
  let text := match text.toList with
    | '\uFEFF' :: rest => rest
    | text => text
  (Draft.lines? (text.length + 1) {} text).map (·.entries)

end UnitDispatch.Toml
