/-! # TOML values

What a TOML document can hold. A table remembers how it came about, since that decides what may
still be added to it; of a date nothing is kept but that it is one.
-/

namespace UnitDispatch.Toml

/-- How a table came about. -/
inductive Origin where
  /-- Under a header of its own, or as the document itself. -/
  | header
  /-- On the way to a table under a header. -/
  | implied
  /-- On the way to a dotted key. -/
  | dotted
  /-- Between braces; nothing can be added to it. -/
  | closed
  deriving DecidableEq, Repr

inductive Value where
  | string (text : String)
  | integer (n : Int)
  | float (x : Float)
  /-- No number, which may have a sign all the same. -/
  | undefined (negative : Bool)
  | boolean (b : Bool)
  | date
  | array (items : List Value)
  /-- Tables gathered under headers in double brackets. -/
  | tables (items : List Value)
  | table (origin : Origin) (entries : List (String × Value))
  deriving Repr

/-- Keys with their values. -/
abbrev Entries := List (String × Value)

namespace Entries

/-- Puts a value in the place of the one at a key. -/
def replace (es : Entries) (key : String) (value : Value) : Entries :=
  es.map fun e => if e.1 == key then (key, value) else e

/-- Changes the table that a path leads to, where `origin` is that of the table it starts from.
Tables missing on the way are made, as `via` says; of gathered tables the last is meant. A path of
dotted keys does not lead into a table that has a header. -/
def update (via : Origin) (change : Origin → Entries → Option Entries) :
    List String → Origin → Entries → Option Entries
  | [], origin, es => change origin es
  | key :: path, _, es =>
    match es.lookup key with
    | none => do
      let inner ← update via change path via []
      return es ++ [(key, .table via inner)]
    | some (.table origin inner) =>
      if origin = .closed ∨ via = .dotted ∧ origin = .header then none
      else do
        let inner ← update via change path origin inner
        return es.replace key (.table origin inner)
    | some (.tables items) =>
      match items.getLast? with
      | some (.table origin inner) => do
        let inner ← update via change path origin inner
        return es.replace key (.tables (items.dropLast ++ [.table origin inner]))
      | _ => none
    | some _ => none

/-- Adds a key that is not there yet. -/
def addNew (es : Entries) (key : String) (value : Value) : Option Entries :=
  if (es.lookup key).isSome then none else some (es ++ [(key, value)])

/-- Adds a value under a dotted key: `path` leads to its table, which only dotted keys may have
made. -/
def addDotted (origin : Origin) (es : Entries) (path : List String) (key : String)
    (value : Value) : Option Entries :=
  update .dotted (fun origin es =>
    if (origin == .dotted) == path.isEmpty then none else addNew es key value) path origin es

/-- Opens a table under a header. It must be new, or implied by a header before. -/
def openTable (es : Entries) (path : List String) (key : String) : Option Entries :=
  update .implied (fun _ es =>
    match es.lookup key with
    | none => some (es ++ [(key, .table .header [])])
    | some (.table .implied inner) => some (es.replace key (.table .header inner))
    | some _ => none) path .header es

/-- Opens one more of the tables gathered under a header. -/
def openNext (es : Entries) (path : List String) (key : String) : Option Entries :=
  update .implied (fun _ es =>
    match es.lookup key with
    | none => some (es ++ [(key, .tables [.table .header []])])
    | some (.tables items) => some (es.replace key (.tables (items ++ [.table .header []])))
    | some _ => none) path .header es

theorem lookup_addNew {es es' : Entries} {key : String} {value : Value}
    (h : es.addNew key value = some es') : es'.lookup key = some value := by
  unfold addNew at h
  split at h
  · cases h
  · next free =>
    cases h
    rw [List.lookup_append, Option.not_isSome_iff_eq_none.mp free]
    simp

end Entries

end UnitDispatch.Toml
