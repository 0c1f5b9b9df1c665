/-! # Rosters

A roster lists the units that take part in regulation and counts the changes it hears of. Units
hold a roster by its number among the rosters; one that is closed can no longer be reached, and
units that hold its number do not keep it open.
-/

namespace UnitDispatch

/-- The units that take part in regulation, by number, lowest first. -/
structure Roster where
  units : List Nat := []
  /-- Changes heard of. -/
  changes : Nat := 0
  deriving DecidableEq, Repr

namespace Roster

/-- Puts a number into an ascending list, once. -/
def insertAscending (unit : Nat) : List Nat → List Nat
  | [] => [unit]
  | u :: us =>
    if unit < u then unit :: u :: us
    else if unit = u then u :: us
    else u :: insertAscending unit us

def register (r : Roster) (unit : Nat) : Roster := { r with units := insertAscending unit r.units }

def deregister (r : Roster) (unit : Nat) : Roster :=
  { r with units := r.units.filter (· ≠ unit) }

/-- Hears that a unit's share or limits changed; it need not be registered. -/
def noteChange (r : Roster) : Roster := { r with changes := r.changes + 1 }

def isRegistered (r : Roster) (unit : Nat) : Bool := r.units.contains unit

theorem mem_insertAscending {unit v : Nat} {us : List Nat} :
    v ∈ insertAscending unit us ↔ v = unit ∨ v ∈ us := by
  induction us with
  | nil => simp [insertAscending]
  | cons u us ih =>
    simp only [insertAscending]
    split
    · simp
    · split
      next h => simp [h]
      next => simp only [List.mem_cons, ih]; grind

theorem pairwise_insertAscending {unit : Nat} {us : List Nat} (h : us.Pairwise (· < ·)) :
    (insertAscending unit us).Pairwise (· < ·) := by
  induction us with
  | nil => simp [insertAscending]
  | cons u us ih =>
    obtain ⟨first, rest⟩ := List.pairwise_cons.mp h
    simp only [insertAscending]
    split
    next lt =>
      refine List.pairwise_cons.mpr ⟨fun v hv => ?_, h⟩
      rcases List.mem_cons.mp hv with rfl | hv
      · exact lt
      · exact Nat.lt_trans lt (first v hv)
    next notLt =>
      split
      next => exact h
      next ne =>
        refine List.pairwise_cons.mpr ⟨fun v hv => ?_, ih rest⟩
        rcases mem_insertAscending.mp hv with rfl | hv
        · omega
        · exact first v hv

theorem mem_register {r : Roster} {unit v : Nat} :
    v ∈ (r.register unit).units ↔ v = unit ∨ v ∈ r.units := mem_insertAscending

theorem mem_deregister {r : Roster} {unit v : Nat} :
    v ∈ (r.deregister unit).units ↔ v ∈ r.units ∧ v ≠ unit := by
  simp [deregister]

end Roster

/-- What a unit has to tell its roster. -/
inductive RosterCall where
  | join
  | leave
  | changed
  deriving DecidableEq, Repr

/-- The rosters there are, by number; a closed one leaves an empty place. -/
abbrev Rosters := List (Option Roster)

/-- How a unit stands with the rosters. -/
structure Enrolment where
  /-- The number it registers under. -/
  unit : Nat
  /-- The roster it holds. -/
  roster : Option Nat := none
  registered : Bool := false
  deriving DecidableEq, Repr

namespace Enrolment

/-- The roster held, if it is still open. -/
def open? (e : Enrolment) (rosters : Rosters) : Option (Nat × Roster) := do
  let place ← e.roster
  let roster ← (rosters[place]?).join
  return (place, roster)

/-- Registers, if there is a roster to register with and the unit has not done so. -/
def join (e : Enrolment) (rosters : Rosters) : Enrolment × Rosters :=
  if e.registered then (e, rosters)
  else match e.open? rosters with
    | some (place, roster) =>
      ({ e with registered := true }, rosters.set place (some (roster.register e.unit)))
    | none => (e, rosters)

/-- Deregisters, if registered. -/
def leave (e : Enrolment) (rosters : Rosters) : Enrolment × Rosters :=
  if e.registered then
    let e' := { e with registered := false }
    match e.open? rosters with
    | some (place, roster) => (e', rosters.set place (some (roster.deregister e.unit)))
    | none => (e', rosters)
  else (e, rosters)

/-- Tells the roster held of a change. -/
def tell (e : Enrolment) (rosters : Rosters) : Rosters :=
  match e.open? rosters with
  | some (place, roster) => rosters.set place (some roster.noteChange)
  | none => rosters

/-- Makes one call. -/
def call (e : Enrolment) (rosters : Rosters) : RosterCall → Enrolment × Rosters
  | .join => e.join rosters
  | .leave => e.leave rosters
  | .changed => (e, e.tell rosters)

/-- Makes one call after another. -/
def callAll (e : Enrolment) (rosters : Rosters) (calls : List RosterCall) : Enrolment × Rosters :=
  calls.foldl (fun (e, rosters) c => e.call rosters c) (e, rosters)

/-- Takes up another roster, or none, in place of the one held. A registration moves along, and a
unit that takes part registers anyway. -/
def moveTo (e : Enrolment) (rosters : Rosters) (roster : Option Nat) (takesPart : Bool) :
    Enrolment × Rosters :=
  let (e', rosters) := e.leave rosters
  let e' := { e' with roster }
  if e.registered || takesPart then e'.join rosters else (e', rosters)

end Enrolment

end UnitDispatch
