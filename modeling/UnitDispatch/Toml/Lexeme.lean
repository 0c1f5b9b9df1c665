/-! # TOML lexemes

The pieces of a TOML document below its values: blanks, comments and line ends, strings, keys,
numbers and dates. Each reader takes what it reads from the front of the text and gives back the
rest, or nothing if the text does not begin with such a piece.
-/

namespace UnitDispatch.Toml

/-- What is left to read. -/
abbrev Text := List Char

/-! ## Blanks, comments and line ends -/

def isBlank (c : Char) : Bool := c == ' ' || c == '\t'

/-- A character that may stand in a comment: none that controls but the tab. -/
def isPrintable (c : Char) : Bool := c == '\t' || 0x20 ≤ c.toNat && c.toNat != 0x7f

def skipBlanks (text : Text) : Text := text.dropWhile isBlank

/-- Takes a line end. -/
def lineEnd? : Text → Option Text
  | '\n' :: rest => some rest
  | '\r' :: '\n' :: rest => some rest
  | _ => none

def skipComment : Text → Text
  | '#' :: rest => rest.dropWhile isPrintable
  | text => text

/-- Takes what may follow a value or a header on its line, with the line end. -/
def endOfLine? (text : Text) : Option Text :=
  match skipComment (skipBlanks text) with
  | [] => some []
  | text => lineEnd? text

/-- Skips blanks, line ends and comments, where `inComment` says whether a comment is going on. -/
def skipFiller : Bool → Text → Text
  | _, [] => []
  | _, '\n' :: rest => skipFiller false rest
  | _, '\r' :: '\n' :: rest => skipFiller false rest
  | true, c :: rest => if isPrintable c then skipFiller true rest else c :: rest
  | false, c :: rest =>
    if isBlank c then skipFiller false rest
    else if c == '#' then skipFiller true rest
    else c :: rest

/-! ## Strings -/

/-- The number that hexadecimal digits write. -/
def hexNumber? (digits : List Char) : Option Nat :=
  digits.foldlM (fun n c => (hexDigit? c).map (16 * n + ·)) 0
where
  hexDigit? (c : Char) : Option Nat :=
    if '0' ≤ c ∧ c ≤ '9' then some (c.toNat - 0x30)
    else if 'a' ≤ c ∧ c ≤ 'f' then some (c.toNat - 0x57)
    else if 'A' ≤ c ∧ c ≤ 'F' then some (c.toNat - 0x37)
    else none

/-- The character of a number, if it is one. -/
def charOfNumber? (n : Nat) : Option Char :=
  if n.isValidChar then some (Char.ofNat n) else none

/-- Takes the digits of a numbered character. -/
def numberedChar? (width : Nat) (text : Text) : Option (Char × Text) := do
  let digits := text.take width
  if digits.length < width then none
  let c ← charOfNumber? (← hexNumber? digits)
  return (c, text.drop width)

/-- Takes what follows the backslash of an escape. -/
def escape? : Text → Option (Char × Text)
  | 'b' :: rest => some ('\x08', rest)
  | 't' :: rest => some ('\t', rest)
  | 'n' :: rest => some ('\n', rest)
  | 'f' :: rest => some ('\x0c', rest)
  | 'r' :: rest => some ('\r', rest)
  | '"' :: rest => some ('"', rest)
  | '\\' :: rest => some ('\\', rest)
  | 'u' :: rest => numberedChar? 4 rest
  | 'U' :: rest => numberedChar? 8 rest
  | _ => none

/-- Takes the rest of a string on one line, up to its quote. -/
def stringBody? : Nat → Text → Option (List Char × Text)
  | 0, _ => none
  | _, [] => none
  | fuel + 1, c :: rest =>
    if c == '"' then some ([], rest)
    else do
      let (c, rest) ← if c == '\\' then escape? rest
        else if isPrintable c then some (c, rest) else none
      let (body, rest) ← stringBody? fuel rest
      return (c :: body, rest)

/-- Takes the rest of a literal string, up to its apostrophe. -/
def literalBody? (text : Text) : Option (List Char × Text) :=
  let body := text.takeWhile fun c => isPrintable c && c != '\''
  match text.drop body.length with
  | '\'' :: rest => some (body, rest)
  | _ => none

/-- Takes the marks that end a string on several lines; up to two before them belong to it. -/
def closeMarks? (mark : Char) (text : Text) : Option (List Char × Text) :=
  let marks := (text.takeWhile (· == mark)).length
  if marks < 3 then none
  else
    let kept := min (marks - 3) 2
    some (List.replicate kept mark, text.drop (kept + 3))

/-- Takes a backslash at the end of a line, with all blanks and line ends after it. -/
def foldedLine? (text : Text) : Option Text := do
  let rest ← lineEnd? (skipBlanks text)
  return skipFolded rest
where
  skipFolded : Text → Text
    | '\r' :: '\n' :: rest => skipFolded rest
    | c :: rest => if isBlank c || c == '\n' then skipFolded rest else c :: rest
    | [] => []

/-- Takes the rest of a string on several lines; one between apostrophes has no escapes. -/
def longBody? (mark : Char) : Nat → Text → Option (List Char × Text)
  | 0, _ => none
  | fuel + 1, text =>
    match closeMarks? mark text with
    | some found => some found
    | none =>
      match lineEnd? text with
      | some rest => (longBody? mark fuel rest).map fun (body, rest) => ('\n' :: body, rest)
      | none =>
        match text with
        | [] => none
        | c :: rest =>
          if c == '\\' && mark == '"' then
            match foldedLine? rest with
            | some rest => longBody? mark fuel rest
            | none => do
              let (c, rest) ← escape? rest
              let (body, rest) ← longBody? mark fuel rest
              return (c :: body, rest)
          else if isPrintable c then
            (longBody? mark fuel rest).map fun (body, rest) => (c :: body, rest)
          else none

/-- Takes a string on one line. -/
def shortString? : Text → Option (String × Text)
  | '"' :: rest => (stringBody? rest.length rest).map fun (body, rest) => (String.ofList body, rest)
  | '\'' :: rest => (literalBody? rest).map fun (body, rest) => (String.ofList body, rest)
  | _ => none

/-- Takes a string on several lines; a line end right at its start does not count. -/
def longString? (text : Text) : Option (String × Text) :=
  match text with
  | '"' :: '"' :: '"' :: rest => body '"' rest
  | '\'' :: '\'' :: '\'' :: rest => body '\'' rest
  | _ => none
where
  body (mark : Char) (rest : Text) : Option (String × Text) :=
    let rest := (lineEnd? rest).getD rest
    (longBody? mark (rest.length + 1) rest).map fun (body, rest) => (String.ofList body, rest)

/-- Takes a string. -/
def string? (text : Text) : Option (String × Text) :=
  match text with
  | '"' :: '"' :: '"' :: _ | '\'' :: '\'' :: '\'' :: _ => longString? text
  | _ => shortString? text

/-! ## Keys -/

/-- Nesting that is not read any more. -/
def nestingLimit : Nat := 80

def isBare (c : Char) : Bool := c.isAlphanum || c == '_' || c == '-'

/-- Takes a key without dots. -/
def simpleKey? (text : Text) : Option (String × Text) :=
  match text.takeWhile isBare with
  | [] => shortString? text
  | bare => some (String.ofList bare, text.drop bare.length)

/-- Takes the parts of a dotted key, with the blanks around each. -/
def keyParts? : Nat → Text → Option (List String × Text)
  | 0, _ => none
  | fuel + 1, text => do
    let (part, rest) ← simpleKey? (skipBlanks text)
    match skipBlanks rest with
    | '.' :: rest => do
      let (parts, rest) ← keyParts? fuel rest
      return (part :: parts, rest)
    | rest => some ([part], rest)

/-- Takes a dotted key: the path to its table, and the key in it. -/
def key? (text : Text) : Option ((List String × String) × Text) := do
  let (parts, rest) ← keyParts? nestingLimit.pred text
  let key ← parts.getLast?
  return ((parts.dropLast, key), rest)

/-! ## Numbers -/

/-- Takes the digits after a digit; an underscore may stand between two. -/
def moreDigits? (isDigit : Char → Bool) : Text → Option (List Char × Text)
  | '_' :: c :: rest =>
    if isDigit c then (moreDigits? isDigit rest).map fun (ds, rest) => (c :: ds, rest) else none
  | '_' :: [] => none
  | c :: rest =>
    if isDigit c then (moreDigits? isDigit rest).map fun (ds, rest) => (c :: ds, rest)
    else some ([], c :: rest)
  | [] => some ([], [])

/-- Takes digits, at least one. -/
def digits? (isDigit : Char → Bool) : Text → Option (List Char × Text)
  | c :: rest =>
    if isDigit c then (moreDigits? isDigit rest).map fun (ds, rest) => (c :: ds, rest) else none
  | [] => none

/-- Takes a sign, if there is one: whether it is negative. -/
def sign : Text → Bool × Text
  | '+' :: rest => (false, rest)
  | '-' :: rest => (true, rest)
  | text => (false, text)

/-- The number that digits write in a base. -/
def numberOf (base : Nat) (digits : List Char) : Nat :=
  digits.foldl (fun n c => base * n + ((hexNumber? [c]).getD 0)) 0

/-- Takes the whole part of a number: no zero stands before other digits. -/
def wholeDigits? : Text → Option (List Char × Text)
  | '0' :: rest => some (['0'], rest)
  | text => digits? Char.isDigit text

/-- A whole number of 64 bits. -/
def inRange? (n : Int) : Option Int :=
  if Int64.minValue.toInt ≤ n ∧ n ≤ Int64.maxValue.toInt then some n else none

/-- The double nearest to `mantissa * 10 ^ exponent`. Powers beyond its range need not be worked
out. -/
def nearestDouble (mantissa : Nat) (exponent : Int) : Float :=
  let size := (toString mantissa).length + exponent
  if mantissa = 0 ∨ size < -400 then 0.0
  else if 400 < size then 1.0 / 0.0
  else match exponent with
    | .ofNat e => Float.ofScientific mantissa false e
    | .negSucc e => Float.ofScientific mantissa true (e + 1)

/-- A number, whole or not. -/
inductive Number where
  | integer (n : Int)
  | float (x : Float)
  /-- No number, which may have a sign all the same. -/
  | undefined (negative : Bool)
  deriving Repr

/-- Takes the exponent of a number, if there is one. -/
def exponent? : Text → Option (Int × Text)
  | text@(c :: rest) =>
    if c == 'e' || c == 'E' then do
      let (negative, rest) := sign rest
      let (digits, rest) ← digits? Char.isDigit rest
      let n : Int := numberOf 10 digits
      return (if negative then -n else n, rest)
    else some (0, text)
  | [] => some (0, [])

/-- Takes what follows the whole part of a decimal number. One that is too large is refused. -/
def decimalTail? (negative : Bool) (whole : List Char) (text : Text) : Option (Number × Text) := do
  let isFloat := text.head?.any fun c => c == '.' || c == 'e' || c == 'E'
  if isFloat then
    let (places, rest) ← match text with
      | '.' :: rest => digits? Char.isDigit rest
      | _ => some ([], text)
    let (e, rest) ← exponent? rest
    let x := nearestDouble (numberOf 10 (whole ++ places)) (e - places.length)
    let x := if negative then -x else x
    if x == 1.0 / 0.0 then none
    return (.float x, rest)
  else
    let n : Int := numberOf 10 whole
    let n ← inRange? (if negative then -n else n)
    return (.integer n, text)

/-- Takes a whole number in another base, behind the mark of the base. -/
def basedNumber? (base : Nat) (isDigit : Char → Bool) (text : Text) : Option (Number × Text) := do
  let (digits, rest) ← digits? isDigit text
  let n ← inRange? (numberOf base digits)
  return (.integer n, rest)

def isHexDigit (c : Char) : Bool := (hexNumber? [c]).isSome

/-- Takes a number. -/
def number? (text : Text) : Option (Number × Text) :=
  match text with
  | '0' :: 'x' :: rest => basedNumber? 16 isHexDigit rest
  | '0' :: 'o' :: rest => basedNumber? 8 (fun c => '0' ≤ c && c ≤ '7') rest
  | '0' :: 'b' :: rest => basedNumber? 2 (fun c => c == '0' || c == '1') rest
  | _ =>
    let (negative, unsigned) := sign text
    match unsigned with
    | 'i' :: 'n' :: 'f' :: rest =>
      some (.float (if negative then -(1.0 / 0.0) else 1.0 / 0.0), rest)
    | 'n' :: 'a' :: 'n' :: rest => some (.undefined negative, rest)
    | _ => do
      let (whole, rest) ← wholeDigits? unsigned
      decimalTail? negative whole rest

/-! ## Dates -/

/-- Takes a number of so many digits, if it lies within bounds. -/
def fixedNumber? (width low high : Nat) (text : Text) : Option (Nat × Text) :=
  let digits := text.take width
  let n := numberOf 10 digits
  if digits.length = width ∧ digits.all Char.isDigit ∧ low ≤ n ∧ n ≤ high then
    some (n, text.drop width)
  else none

/-- Takes one character. -/
def take? (c : Char) : Text → Option Text
  | d :: rest => if d == c then some rest else none
  | [] => none

/-- The number of days of a month. -/
def daysOfMonth (year month : Nat) : Nat :=
  if month = 2 then
    if year % 4 = 0 ∧ (year % 100 ≠ 0 ∨ year % 400 = 0) then 29 else 28
  else if month = 4 ∨ month = 6 ∨ month = 9 ∨ month = 11 then 30
  else 31

/-- Takes a day of the calendar. -/
def day? (text : Text) : Option Text := do
  let (year, rest) ← fixedNumber? 4 0 9999 text
  let (month, rest) ← fixedNumber? 2 1 12 (← take? '-' rest)
  let (_, rest) ← fixedNumber? 2 1 (daysOfMonth year month) (← take? '-' rest)
  return rest

/-- Takes a time of day, to the second or finer; a minute may have a leap second. -/
def timeOfDay? (text : Text) : Option Text := do
  let (_, rest) ← fixedNumber? 2 0 23 text
  let (_, rest) ← fixedNumber? 2 0 59 (← take? ':' rest)
  let (_, rest) ← fixedNumber? 2 0 60 (← take? ':' rest)
  match rest with
  | '.' :: fraction =>
    let after := fraction.dropWhile Char.isDigit
    return if after.length < fraction.length then after else rest
  | _ => return rest

/-- Skips a distance from universal time, if there is one. -/
def skipOffset : Text → Text
  | text@(c :: rest) =>
    if c == 'Z' || c == 'z' then rest
    else if c == '+' || c == '-' then
      (do
        let (_, rest) ← fixedNumber? 2 0 23 rest
        let (_, rest) ← fixedNumber? 2 0 59 (← take? ':' rest)
        return rest : Option Text).getD text
    else text
  | [] => []

/-- Takes a date, a time, or both. -/
def date? (text : Text) : Option Text :=
  match day? text with
  | none => timeOfDay? text
  | some rest =>
    match rest with
    | c :: time =>
      if c == 'T' || c == 't' || c == ' ' then
        match timeOfDay? time with
        | some after => some (skipOffset after)
        | none => some rest
      else some rest
    | [] => some rest

end UnitDispatch.Toml
