import UnitDispatch.RegulatedUnit.Action

/-! # Fleets

A fleet is a number of regulated units with the rosters they may hold. Units and rosters can leave
it; their places stay empty, and a unit that leaves deregisters first.
-/

namespace UnitDispatch

/-- A regulated unit together with how it stands with the rosters. -/
structure Member (α : Type) where
  unit : RegulatedUnit α
  enrolment : Enrolment
  deriving Repr

namespace Member

variable {α : Type} [Quantity α]

/-- Does one thing to the unit, and tells its roster what there is to tell. -/
def act (m : Member α) (rosters : Rosters) (a : RegulatedUnit.Action α) : Member α × Rosters :=
  let (enrolment, rosters) := m.enrolment.callAll rosters (m.unit.calls a)
  ({ unit := m.unit.act a, enrolment }, rosters)

/-- Takes up another roster, or none. -/
def attach (m : Member α) (rosters : Rosters) (roster : Option Nat) : Member α × Rosters :=
  let (enrolment, rosters) := m.enrolment.moveTo rosters roster m.unit.enabled
  ({ m with enrolment }, rosters)

theorem act_unit (m : Member α) (rosters : Rosters) (a : RegulatedUnit.Action α) :
    (m.act rosters a).1.unit = m.unit.act a := rfl

end Member

/-- Units and rosters, each in its place. -/
structure Fleet (α : Type) where
  members : List (Option (Member α)) := []
  rosters : Rosters := []
  deriving Repr

namespace Fleet

variable {α : Type} [Quantity α]

/-- What can happen in a fleet. -/
inductive Event (α : Type) where
  /-- Something is done to the unit at a place. -/
  | act (place : Nat) (action : RegulatedUnit.Action α)
  /-- The unit at a place takes up a roster, or none. -/
  | attach (place : Nat) (roster : Option Nat)
  /-- A unit leaves. -/
  | dropUnit (place : Nat)
  /-- A roster is closed. -/
  | dropRoster (place : Nat)
  deriving Repr

/-- The member at a place. -/
def member? (f : Fleet α) (place : Nat) : Option (Member α) := (f.members[place]?).join

/-- Lets one thing happen; at an empty place nothing does. -/
def step (f : Fleet α) : Event α → Fleet α
  | .act place action =>
    match f.member? place with
    | some m =>
      let (m, rosters) := m.act f.rosters action
      { members := f.members.set place (some m), rosters }
    | none => f
  | .attach place roster =>
    match f.member? place with
    | some m =>
      let (m, rosters) := m.attach f.rosters roster
      { members := f.members.set place (some m), rosters }
    | none => f
  | .dropUnit place =>
    match f.member? place with
    | some m => { members := f.members.set place none, rosters := (m.enrolment.leave f.rosters).2 }
    | none => f
  | .dropRoster place => { f with rosters := f.rosters.set place none }

/-- Lets one thing happen after another. -/
def run (f : Fleet α) (events : List (Event α)) : Fleet α := events.foldl step f

theorem run_nil (f : Fleet α) : f.run [] = f := rfl

theorem run_cons (f : Fleet α) (e : Event α) (es : List (Event α)) :
    f.run (e :: es) = (f.step e).run es := rfl

/-- Brings a unit into the fleet, with the roster it is to hold. -/
def enlist (f : Fleet α) (number : Nat) (unit : RegulatedUnit α) (roster : Option Nat) : Fleet α :=
  let (m, rosters) := Member.attach ⟨unit, { unit := number }⟩ f.rosters roster
  { members := f.members ++ [some m], rosters }

end Fleet

end UnitDispatch
