import UnitDispatch.Roster

/-! # What one unit does to the rosters

A unit that joins, leaves, tells of a change or moves on enters or removes its own number in the
roster it holds and in no other (`Roster.Turn`), and it stays listed where it is registered
(`Enrolment.Listed`). `Enrolment.callAll_turn` and `Enrolment.moveTo_turn` say so for any calls and
for a move, with the number of changes each roster hears of.
-/

namespace UnitDispatch

/-! ## Places -/

/-- What stands at each place after one that is taken was given to another, or left empty. -/
theorem join_getElem?_set {β : Type} {list : List (Option β)} {place : Nat} {x : β}
    (taken : (list[place]?).join = some x) (y : Option β) (other : Nat) :
    ((list.set place y)[other]?).join = if place = other then y else (list[other]?).join := by
  have within : place < list.length := by
    refine Nat.lt_of_not_le fun beyond => ?_
    simp [List.getElem?_eq_none beyond] at taken
  rw [List.getElem?_set, if_pos within]
  split <;> rfl

/-- The open roster at a place. -/
def Rosters.openAt (rosters : Rosters) (place : Nat) : Option Roster := (rosters[place]?).join

namespace Rosters

variable {rosters : Rosters} {place : Nat} {r r' : Roster}

/-- A roster put in the place of an open one. -/
theorem openAt_set (held : rosters.openAt place = some r) (other : Nat) :
    openAt (rosters.set place (some r')) other =
      if place = other then some r' else rosters.openAt other :=
  join_getElem?_set held (some r') other

/-- Closing a roster opens none. -/
theorem openAt_of_closed {other : Nat} (held : openAt (rosters.set place none) other = some r) :
    rosters.openAt other = some r := by
  unfold openAt at held ⊢
  rw [List.getElem?_set] at held
  split at held
  · split at held <;> simp at held
  · exact held

end Rosters

/-! ## A roster that one unit turned to -/

/-- What a unit makes of a roster: it hears of so many changes, stays in order, and lists the other
units as before. -/
structure Roster.Turn (unit told : Nat) (r r' : Roster) : Prop where
  others : ∀ v, v ≠ unit → (v ∈ r'.units ↔ v ∈ r.units)
  ascending : r.units.Pairwise (· < ·) → r'.units.Pairwise (· < ·)
  changes : r'.changes = r.changes + told

namespace Roster.Turn

variable {unit told : Nat} {r r' r'' : Roster}

theorem refl (unit : Nat) (r : Roster) : Turn unit 0 r r := ⟨fun _ _ => Iff.rfl, id, rfl⟩

theorem trans {more : Nat} (first : Turn unit told r r') (second : Turn unit more r' r'') :
    Turn unit (told + more) r r'' where
  others v other := (second.others v other).trans (first.others v other)
  ascending h := second.ascending (first.ascending h)
  changes := by rw [second.changes, first.changes, Nat.add_assoc]

theorem register (r : Roster) (unit : Nat) : Turn unit 0 r (r.register unit) where
  others v other := by simp [Roster.mem_register, other]
  ascending := Roster.pairwise_insertAscending
  changes := rfl

theorem deregister (r : Roster) (unit : Nat) : Turn unit 0 r (r.deregister unit) where
  others v other := by simp [Roster.mem_deregister, other]
  ascending h := h.sublist List.filter_sublist
  changes := rfl

theorem noteChange (r : Roster) (unit : Nat) : Turn unit 1 r r.noteChange :=
  ⟨fun _ _ => Iff.rfl, id, rfl⟩

end Roster.Turn

namespace Enrolment

variable {e e' e'' : Enrolment} {rosters rosters' rosters'' : Rosters} {place : Nat} {r r' : Roster}

/-- A unit is on the open rosters exactly where it is registered: on the one it holds. -/
def Listed (e : Enrolment) (rosters : Rosters) : Prop :=
  ∀ place r, rosters.openAt place = some r →
    (e.unit ∈ r.units ↔ e.registered = true ∧ e.roster = some place)

/-- How many of so many changes the roster at a place hears of: those told to it. -/
def toldAt (e : Enrolment) (told place : Nat) : Nat := if e.roster = some place then told else 0

/-- A unit did something about its enrolment: it keeps its number and stays listed, and each open
roster was open before and hears of the changes told to it. -/
structure Turn (told : Nat) (e : Enrolment) (rosters : Rosters) (e' : Enrolment)
    (rosters' : Rosters) : Prop where
  unit : e'.unit = e.unit
  listed : e.Listed rosters → e'.Listed rosters'
  each : ∀ place r', rosters'.openAt place = some r' →
    ∃ r, rosters.openAt place = some r ∧ Roster.Turn e.unit (e.toldAt told place) r r'

theorem toldAt_zero (e : Enrolment) (place : Nat) : e.toldAt 0 place = 0 := by simp [toldAt]

theorem Turn.refl (e : Enrolment) (rosters : Rosters) : Turn 0 e rosters e rosters where
  unit := rfl
  listed := id
  each place r' held := ⟨r', held, by rw [toldAt_zero]; exact .refl e.unit r'⟩

/-- One thing after another, as long as the unit holds on to its roster. -/
theorem Turn.trans {told more : Nat} (first : Turn told e rosters e' rosters')
    (second : Turn more e' rosters' e'' rosters'') (same : more = 0 ∨ e'.roster = e.roster) :
    Turn (told + more) e rosters e'' rosters'' where
  unit := second.unit.trans first.unit
  listed h := second.listed (first.listed h)
  each place r'' held := by
    obtain ⟨r', held', turn'⟩ := second.each place r'' held
    obtain ⟨r, held, turn⟩ := first.each place r' held'
    have sum : e.toldAt (told + more) place = e.toldAt told place + e'.toldAt more place := by
      unfold toldAt
      rcases same with rfl | same
      · simp
      · rw [same]; split <;> rfl
    exact ⟨r, held, sum ▸ turn.trans (first.unit ▸ turn')⟩

theorem open?_eq_some :
    e.open? rosters = some (place, r) ↔ e.roster = some place ∧ rosters.openAt place = some r := by
  unfold open? Rosters.openAt
  simp only [Option.bind_eq_bind, Option.bind_eq_some_iff]
  constructor
  · rintro ⟨held, holds, s, isOpen, same⟩
    cases same
    exact ⟨holds, isOpen⟩
  · rintro ⟨holds, isOpen⟩
    exact ⟨place, holds, r, isOpen, rfl⟩

/-- A unit that turns to the roster it holds stays listed if its own entry there is right. -/
theorem turn_held {told : Nat} (registered : Bool) (held : e.open? rosters = some (place, r))
    (turn : Roster.Turn e.unit told r r') (entry : e.Listed rosters →
      (e.unit ∈ r'.units ↔ registered = true)) :
    Turn told e rosters { e with registered } (rosters.set place (some r')) := by
  obtain ⟨holds, isOpen⟩ := open?_eq_some.mp held
  refine ⟨rfl, fun listed other s at_ => ?_, fun other s at_ => ?_⟩
  all_goals
    rw [Rosters.openAt_set isOpen] at at_
    split at at_
  next same =>
    cases at_
    simp [entry listed, holds, same]
  next elsewhere => simp [listed other s at_, holds, elsewhere]
  next same =>
    cases at_
    subst same
    exact ⟨r, isOpen, by simpa [toldAt, holds] using turn⟩
  next elsewhere =>
    have untold : e.toldAt told other = 0 := by simp [toldAt, holds, elsewhere]
    exact ⟨s, at_, untold ▸ .refl e.unit s⟩

/-- A unit that is registered nowhere is listed as such, whatever roster it holds. -/
theorem Listed.free (listed : e.Listed rosters) (free : e.registered = false)
    (roster : Option Nat) : { e with roster }.Listed rosters := by
  intro place r isOpen
  simpa [free] using listed place r isOpen

theorem join_turn (e : Enrolment) (rosters : Rosters) :
    Turn 0 e rosters (e.join rosters).1 (e.join rosters).2 := by
  unfold join
  split
  · exact .refl e rosters
  · split
    next place r held =>
      refine turn_held true held (.register r e.unit) fun _ => ?_
      simp [Roster.mem_register]
    next => exact .refl e rosters

theorem leave_turn (e : Enrolment) (rosters : Rosters) :
    Turn 0 e rosters (e.leave rosters).1 (e.leave rosters).2 := by
  unfold leave
  split
  next registered =>
    dsimp only
    split
    next place r held =>
      refine turn_held false held (.deregister r e.unit) fun _ => ?_
      simp [Roster.mem_deregister]
    next closed =>
      -- the roster the unit is registered with is gone, so no open one lists it
      refine ⟨rfl, fun listed place r isOpen => ?_, (Turn.refl e rosters).each⟩
      have elsewhere : e.roster ≠ some place := fun holds => by
        rw [open?_eq_some.mpr ⟨holds, isOpen⟩] at closed
        exact nomatch closed
      simp [listed place r isOpen, elsewhere]
  next => exact .refl e rosters

theorem tell_turn (e : Enrolment) (rosters : Rosters) :
    Turn 1 e rosters e (e.tell rosters) := by
  unfold tell
  split
  next place r held =>
    refine turn_held e.registered held (.noteChange r e.unit) fun listed => ?_
    obtain ⟨holds, isOpen⟩ := open?_eq_some.mp held
    simpa [Roster.noteChange, holds] using listed place r isOpen
  next closed =>
    refine ⟨rfl, id, fun place r isOpen => ⟨r, isOpen, ?_⟩⟩
    have untold : e.toldAt 1 place = 0 := by
      refine if_neg fun holds => ?_
      rw [open?_eq_some.mpr ⟨holds, isOpen⟩] at closed
      exact nomatch closed
    exact untold ▸ .refl e.unit r

theorem join_roster (e : Enrolment) (rosters : Rosters) :
    (e.join rosters).1.roster = e.roster := by
  unfold join
  split
  · rfl
  · split <;> rfl

theorem leave_roster (e : Enrolment) (rosters : Rosters) :
    (e.leave rosters).1.roster = e.roster ∧ (e.leave rosters).1.registered = false := by
  unfold leave
  split
  · dsimp only
    split <;> exact ⟨rfl, rfl⟩
  next unregistered => exact ⟨rfl, Bool.eq_false_iff.mpr unregistered⟩

theorem call_turn (e : Enrolment) (rosters : Rosters) (c : RosterCall) :
    Turn (if c = .changed then 1 else 0) e rosters (e.call rosters c).1 (e.call rosters c).2 ∧
      (e.call rosters c).1.roster = e.roster := by
  cases c with
  | join => exact ⟨join_turn e rosters, join_roster e rosters⟩
  | leave => exact ⟨leave_turn e rosters, (leave_roster e rosters).1⟩
  | changed => exact ⟨tell_turn e rosters, rfl⟩

/-- Calls, one after another: the roster held hears of every change among them. -/
theorem callAll_turn (e : Enrolment) (rosters : Rosters) (calls : List RosterCall) :
    Turn (calls.count .changed) e rosters (e.callAll rosters calls).1
      (e.callAll rosters calls).2 := by
  induction calls generalizing e rosters with
  | nil => exact .refl e rosters
  | cons c calls ih =>
    obtain ⟨turn, holds⟩ := call_turn e rosters c
    have rest := turn.trans (ih (e.call rosters c).1 (e.call rosters c).2) (.inr holds)
    have count : (c :: calls).count .changed
        = (if c = .changed then 1 else 0) + calls.count .changed := by
      rw [List.count_cons, Nat.add_comm]
      simp
    exact count ▸ rest

/-- A move: the unit leaves the roster it holds before it takes up the other. -/
theorem moveTo_turn (e : Enrolment) (rosters : Rosters) (roster : Option Nat) (takesPart : Bool) :
    Turn 0 e rosters (e.moveTo rosters roster takesPart).1
      (e.moveTo rosters roster takesPart).2 := by
  have left := leave_turn e rosters
  have free := (leave_roster e rosters).2
  unfold moveTo
  generalize e.leave rosters = state at left free ⊢
  obtain ⟨e', rosters'⟩ := state
  have held : Turn 0 e rosters { e' with roster } rosters' :=
    ⟨left.unit, fun listed => (left.listed listed).free free roster, left.each⟩
  dsimp only
  split
  · exact held.trans (join_turn _ rosters') (.inl rfl)
  · exact held

end Enrolment

end UnitDispatch
