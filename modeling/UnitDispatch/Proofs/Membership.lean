import UnitDispatch.Fleet
import UnitDispatch.Quantity.Exact
import UnitDispatch.Proofs.Enrolment

/-! # Membership of rosters

`Fleet.run_rosters_exact`: whatever happens in a fleet of units with numbers of their own, each open
roster lists, in order, the units that are registered and hold it, and has heard of each change of
regulation that a unit made while it held the roster. `Fleet.StepCases` says once what can happen.
-/

namespace UnitDispatch

/-! ## What a unit tells of -/

/-- A setting is the unit's own if it is not passed on to the generator. -/
def UnitSetting.isOwn : UnitSetting → Bool
  | .generator _ => false
  | _ => true

namespace RegulatedUnit

variable {α : Type} [Quantity α]

omit [Quantity α] in
/-- Whether an action changes how a unit regulates: its participation, or a setting of its own. A
key that is not known changes nothing. -/
def Action.changesRegulation : Action α → Bool
  | .participate _ _ _ => true
  | .set setting _ => setting.isOwn
  | .setKey key _ =>
    match UnitSetting.ofKey? key with
    | .ok setting => setting.isOwn
    | .error _ => false
  | _ => false

omit [Quantity α] in
theorem count_callsOfParticipation (u : RegulatedUnit α) (active : Bool) :
    (u.callsOfParticipation active).count .changed = 1 := by
  unfold callsOfParticipation
  split <;> rfl

theorem count_callsOfSetting (u : RegulatedUnit α) (setting : UnitSetting) (value : α) :
    (u.callsOfSetting setting value).count .changed = setting.isOwn.toNat := by
  cases setting
  case enabled => exact count_callsOfParticipation u _
  all_goals rfl

/-- A unit tells its roster of an action once, if the action changes how it regulates. -/
theorem count_changed_calls (u : RegulatedUnit α) (a : Action α) :
    (u.calls a).count .changed = a.changesRegulation.toNat := by
  cases a with
  | start time | startWith time level =>
    simp only [calls]
    split <;> rfl
  | participate active up down => exact count_callsOfParticipation u active
  | set setting value => exact count_callsOfSetting u setting value
  | setKey key value =>
    simp only [calls, Action.changesRegulation]
    cases UnitSetting.ofKey? key with
    | ok setting => exact count_callsOfSetting u setting value
    | error => rfl
  | _ => rfl

end RegulatedUnit

namespace Fleet

variable {α : Type} {f f' : Fleet α}

/-! ## Consistent fleets -/

/-- Members have numbers of their own and are listed where they are registered; open rosters are in
order and list members only. -/
structure Consistent (f : Fleet α) : Prop where
  distinct : ∀ p q m m', f.member? p = some m → f.member? q = some m' →
    m.enrolment.unit = m'.enrolment.unit → p = q
  listed : ∀ p m, f.member? p = some m → m.enrolment.Listed f.rosters
  ascending : ∀ place r, f.rosters.openAt place = some r → r.units.Pairwise (· < ·)
  known : ∀ place r, f.rosters.openAt place = some r → ∀ v ∈ r.units,
    ∃ p m, f.member? p = some m ∧ m.enrolment.unit = v

/-- A roster of a consistent fleet lists those who are registered and hold it. -/
theorem Consistent.mem_units_iff (consistent : f.Consistent) {place : Nat} {r : Roster}
    (isOpen : f.rosters.openAt place = some r) (v : Nat) :
    v ∈ r.units ↔ ∃ p m, f.member? p = some m ∧ m.enrolment.unit = v ∧
      m.enrolment.registered = true ∧ m.enrolment.roster = some place := by
  constructor
  · intro listed
    obtain ⟨p, m, held, rfl⟩ := consistent.known place r isOpen v listed
    exact ⟨p, m, held, rfl, (consistent.listed p m held place r isOpen).mp listed⟩
  · rintro ⟨p, m, held, rfl, registered⟩
    exact (consistent.listed p m held place r isOpen).mpr registered

theorem member?_set {at_ : Nat} {m : Member α} (held : f.member? at_ = some m)
    (next : Option (Member α)) (rosters : Rosters) (p : Nat) :
    member? { members := f.members.set at_ next, rosters } p =
      if at_ = p then next else f.member? p :=
  join_getElem?_set held next p

section Turn

variable {at_ told : Nat} {m : Member α} {enrolment : Enrolment} {rosters : Rosters}
  {next : Option (Member α)}

/-- Who is in a fleet after one member did something about its enrolment was in it before, under the
same number, and is listed where it is registered. -/
theorem Consistent.before_turn (consistent : f.Consistent) (held : f.member? at_ = some m)
    (turn : Enrolment.Turn told m.enrolment f.rosters enrolment rosters)
    (stays : ∀ m', next = some m' → m'.enrolment = enrolment) {p : Nat} {m' : Member α}
    (member : member? { members := f.members.set at_ next, rosters } p = some m') :
    ∃ k, f.member? p = some k ∧ m'.enrolment.unit = k.enrolment.unit ∧
      m'.enrolment.Listed rosters := by
  rw [member?_set held] at member
  split at member
  next same =>
    have kept := stays m' member
    exact ⟨m, same ▸ held, by rw [kept, turn.unit],
      kept ▸ turn.listed (consistent.listed at_ m held)⟩
  next other =>
    refine ⟨m', member, rfl, fun place r' isOpen => ?_⟩
    obtain ⟨r, wasOpen, turned⟩ := turn.each place r' isOpen
    have differs : m'.enrolment.unit ≠ m.enrolment.unit :=
      fun same => other (consistent.distinct at_ p m m' held member same.symm)
    rw [turned.others _ differs, consistent.listed p m' member place r wasOpen]

/-- Who is listed afterwards is in the fleet: a member that leaves is not registered any more. -/
theorem Consistent.known_turn (consistent : f.Consistent) (held : f.member? at_ = some m)
    (turn : Enrolment.Turn told m.enrolment f.rosters enrolment rosters)
    (stays : ∀ m', next = some m' → m'.enrolment = enrolment)
    (leaves : next = none → enrolment.registered = false) {place v : Nat} {r' : Roster}
    (isOpen : rosters.openAt place = some r') (listed : v ∈ r'.units) :
    ∃ p k, member? { members := f.members.set at_ next, rosters } p = some k ∧
      k.enrolment.unit = v := by
  obtain ⟨r, wasOpen, turned⟩ := turn.each place r' isOpen
  by_cases own : v = m.enrolment.unit
  · cases next with
    | some m' =>
      refine ⟨at_, m', by simp [member?_set held], ?_⟩
      rw [stays m' rfl, turn.unit, own]
    | none =>
      have right := turn.listed (consistent.listed at_ m held) place r' isOpen
      rw [turn.unit, ← own, leaves rfl] at right
      exact absurd (right.mp listed).1 Bool.false_ne_true
  · have before := (turned.others v own).mp listed
    obtain ⟨p, k, hk, number⟩ := consistent.known place r wasOpen v before
    have elsewhere : at_ ≠ p := by
      rintro rfl
      rw [held] at hk
      cases hk
      exact own number.symm
    exact ⟨p, k, by simpa [member?_set held, elsewhere] using hk, number⟩

/-- A member that does something about its enrolment keeps the fleet consistent. -/
theorem Consistent.turn (consistent : f.Consistent) (held : f.member? at_ = some m)
    (turn : Enrolment.Turn told m.enrolment f.rosters enrolment rosters)
    (stays : ∀ m', next = some m' → m'.enrolment = enrolment)
    (leaves : next = none → enrolment.registered = false) :
    Consistent { members := f.members.set at_ next, rosters } where
  distinct p q k k' hk hk' same := by
    obtain ⟨j, hj, number, -⟩ := consistent.before_turn held turn stays hk
    obtain ⟨j', hj', number', -⟩ := consistent.before_turn held turn stays hk'
    exact consistent.distinct p q j j' hj hj' (number.symm.trans (same.trans number'))
  listed p k hk := by
    obtain ⟨-, -, -, listed⟩ := consistent.before_turn held turn stays hk
    exact listed
  ascending place r' isOpen := by
    obtain ⟨r, wasOpen, turned⟩ := turn.each place r' isOpen
    exact turned.ascending (consistent.ascending place r wasOpen)
  known place r' isOpen v listed := consistent.known_turn held turn stays leaves isOpen listed

end Turn

/-! ## A fleet at the beginning -/

/-- A fleet of units by number, none of which holds a roster yet, and of so many empty rosters. -/
def assemble (units : List (Nat × RegulatedUnit α)) (rosters : Nat) : Fleet α where
  members := units.map fun (number, unit) => some ⟨unit, { unit := number }⟩
  rosters := List.replicate rosters (some {})

section Assembled

variable {units : List (Nat × RegulatedUnit α)} {rosters : Nat}

theorem openAt_assemble {place : Nat} {r : Roster}
    (isOpen : (assemble units rosters).rosters.openAt place = some r) : r = {} := by
  simp only [assemble, Rosters.openAt, List.getElem?_replicate] at isOpen
  split at isOpen
  · exact (Option.some.inj isOpen).symm
  · exact nomatch isOpen

theorem member?_assemble {p : Nat} {m : Member α}
    (held : (assemble units rosters).member? p = some m) :
    ∃ unit, units[p]? = some (m.enrolment.unit, unit) ∧ m.enrolment.registered = false ∧
      m.enrolment.roster = none := by
  simp only [assemble, member?, List.getElem?_map] at held
  cases entry : units[p]? with
  | none => simp [entry] at held
  | some pair =>
    simp only [entry, Option.map_some, Option.join_some, Option.some.injEq] at held
    subst held
    exact ⟨pair.2, rfl, rfl, rfl⟩

/-- Units with numbers of their own make a consistent fleet: nobody is registered or listed. -/
theorem assemble_consistent (rosters : Nat) (distinct : (units.map Prod.fst).Nodup) :
    (assemble units rosters).Consistent := by
  refine ⟨fun p q m m' held held' same => ?_, fun p m held place r isOpen => ?_,
    fun place r isOpen => ?_, fun place r isOpen v listed => ?_⟩
  · obtain ⟨unit, entry, -⟩ := member?_assemble held
    obtain ⟨unit', entry', -⟩ := member?_assemble held'
    have within : p < units.length := (List.getElem?_eq_some_iff.mp entry).1
    refine (List.getElem?_inj (by simpa using within) distinct).mp ?_
    simp [entry, entry', same]
  · obtain ⟨-, -, free, -⟩ := member?_assemble held
    simp [openAt_assemble isOpen, free]
  · simp [openAt_assemble isOpen]
  · simp [openAt_assemble isOpen] at listed

end Assembled

/-! ## What can happen -/

variable [Quantity α] {e : Event α}

/-- Whether an event is a change of regulation by a unit that holds the roster at a place. -/
def changesAt (f : Fleet α) (place : Nat) : Event α → Bool
  | .act at_ action =>
    (f.member? at_).any fun m => m.enrolment.roster == some place && action.changesRegulation
  | _ => false

/-- How many changes of regulation units make while they hold the roster at a place. -/
def changesMade (f : Fleet α) (place : Nat) : List (Event α) → Nat
  | [] => 0
  | e :: es => (f.changesAt place e).toNat + (f.step e).changesMade place es

/-- What an event comes to: nothing, something that one member does about its enrolment before it
stays or leaves, or the end of a roster. -/
inductive StepCases (f : Fleet α) (e : Event α) : Fleet α → Prop
  | nothing (untold : ∀ place, f.changesAt place e = false) : StepCases f e f
  | turn {at_ : Nat} {m : Member α} {told : Nat} {enrolment : Enrolment} {rosters : Rosters}
      {next : Option (Member α)} (held : f.member? at_ = some m)
      (turn : Enrolment.Turn told m.enrolment f.rosters enrolment rosters)
      (stays : ∀ m', next = some m' → m'.enrolment = enrolment)
      (leaves : next = none → enrolment.registered = false)
      (told : ∀ place, (f.changesAt place e).toNat = m.enrolment.toldAt told place) :
      StepCases f e { members := f.members.set at_ next, rosters }
  | closed {at_ : Nat} (untold : ∀ place, f.changesAt place e = false) :
      StepCases f e { f with rosters := f.rosters.set at_ none }

theorem step_cases (f : Fleet α) (e : Event α) : StepCases f e (f.step e) := by
  cases e with
  | act at_ action =>
    cases held : f.member? at_ with
    | none =>
      simp only [step, held]
      exact .nothing fun place => by simp [changesAt, held]
    | some m =>
      simp only [step, held]
      refine .turn held (Enrolment.callAll_turn m.enrolment f.rosters (m.unit.calls action))
        (fun m' stays => ?_) (fun gone => (Option.some_ne_none _ gone).elim) fun place => ?_
      · cases stays
        rfl
      · simp only [changesAt, held, Option.any_some, Enrolment.toldAt,
          RegulatedUnit.count_changed_calls]
        by_cases holds : m.enrolment.roster = some place <;> simp [holds]
  | attach at_ roster =>
    cases held : f.member? at_ with
    | none =>
      simp only [step, held]
      exact .nothing fun place => rfl
    | some m =>
      simp only [step, held]
      refine .turn held (Enrolment.moveTo_turn m.enrolment f.rosters roster m.unit.enabled)
        (fun m' stays => ?_) (fun gone => (Option.some_ne_none _ gone).elim)
        fun place => (m.enrolment.toldAt_zero place).symm
      cases stays
      rfl
  | dropUnit at_ =>
    cases held : f.member? at_ with
    | none =>
      simp only [step, held]
      exact .nothing fun place => rfl
    | some m =>
      simp only [step, held]
      exact .turn held (Enrolment.leave_turn m.enrolment f.rosters)
        (fun m' stays => (Option.some_ne_none m' stays.symm).elim)
        (fun _ => (Enrolment.leave_roster m.enrolment f.rosters).2)
        fun place => (m.enrolment.toldAt_zero place).symm
  | dropRoster at_ => exact .closed fun place => rfl

/-! ## What every event keeps -/

theorem Consistent.step (consistent : f.Consistent) (e : Event α) : (f.step e).Consistent := by
  have cases := step_cases f e
  generalize f.step e = f' at cases ⊢
  cases cases with
  | nothing => exact consistent
  | turn held turn stays leaves => exact consistent.turn held turn stays leaves
  | closed =>
    exact ⟨consistent.distinct,
      fun p m held place r isOpen =>
        consistent.listed p m held place r (Rosters.openAt_of_closed isOpen),
      fun place r isOpen => consistent.ascending place r (Rosters.openAt_of_closed isOpen),
      fun place r isOpen => consistent.known place r (Rosters.openAt_of_closed isOpen)⟩

/-- What is open after an event was open before it, and has heard of the change there was. -/
theorem changes_step {place : Nat} {r' : Roster}
    (isOpen : (f.step e).rosters.openAt place = some r') :
    ∃ r, f.rosters.openAt place = some r ∧
      r'.changes = r.changes + (f.changesAt place e).toNat := by
  have cases := step_cases f e
  generalize f.step e = f' at cases isOpen
  cases cases with
  | nothing untold => exact ⟨r', isOpen, by simp [untold place]⟩
  | turn held turn stays leaves told =>
    obtain ⟨r, wasOpen, turned⟩ := turn.each place r' isOpen
    exact ⟨r, wasOpen, by rw [turned.changes, told place]⟩
  | closed untold =>
    exact ⟨r', Rosters.openAt_of_closed isOpen, by simp [untold place]⟩

/-! ## Every run -/

theorem Consistent.run (consistent : f.Consistent) (events : List (Event α)) :
    (f.run events).Consistent := by
  induction events generalizing f with
  | nil => exact consistent
  | cons e es ih => exact ih (consistent.step e)

theorem changes_run {events : List (Event α)} {place : Nat} {r' : Roster}
    (isOpen : (f.run events).rosters.openAt place = some r') :
    ∃ r, f.rosters.openAt place = some r ∧
      r'.changes = r.changes + f.changesMade place events := by
  induction events generalizing f with
  | nil => exact ⟨r', isOpen, rfl⟩
  | cons e es ih =>
    obtain ⟨s, midway, later⟩ := ih (f := f.step e) isOpen
    obtain ⟨r, wasOpen, now⟩ := changes_step midway
    exact ⟨r, wasOpen, by rw [later, now, changesMade, Nat.add_assoc]⟩

/-- Whatever happens in a fleet of units with numbers of their own, each open roster lists in order
the units that are registered and hold it, and has heard of each change of regulation that a unit
made while it held the roster. -/
theorem run_rosters_exact {units : List (Nat × RegulatedUnit α)} {rosters : Nat}
    (distinct : (units.map Prod.fst).Nodup) (events : List (Event α)) {place : Nat} {r : Roster}
    (isOpen : ((assemble units rosters).run events).rosters.openAt place = some r) :
    r.units.Pairwise (· < ·) ∧
      (∀ v, v ∈ r.units ↔ ∃ p m, ((assemble units rosters).run events).member? p = some m ∧
        m.enrolment.unit = v ∧ m.enrolment.registered = true ∧
          m.enrolment.roster = some place) ∧
      r.changes = (assemble units rosters).changesMade place events := by
  have consistent := (assemble_consistent rosters distinct).run events
  refine ⟨consistent.ascending place r isOpen, consistent.mem_units_iff isOpen, ?_⟩
  obtain ⟨r₀, wasOpen, changes⟩ := changes_run isOpen
  rw [changes, openAt_assemble wasOpen]
  exact Nat.zero_add _

/-- Three units and two rosters. The first roster is closed while two units are registered with it;
one of them moves on and stays registered, the other takes part no more. Keys that are not known or
passed on to the generator are not heard of, and a unit that is torn down is off the list. -/
theorem run_rosters_exact_moved :
    let unit : RegulatedUnit (Exact ℚ) := .idle 50
    let events : List (Event (Exact ℚ)) := [.attach 0 (some 0), .attach 1 (some 0),
      .act 0 (.participate true (some 0.1) none), .act 1 (.setKey "regenabled" 1), .dropRoster 0,
      .attach 2 (some 1), .act 2 (.set .fraction 0.2), .act 2 (.start 0), .attach 0 (some 1),
      .act 1 (.set .enabled 0), .act 0 (.setKey "rating" 80), .act 0 (.setKey "nonsense" 1),
      .act 0 (.setKey "reserve" 5), .attach 0 (some 1), .act 2 .teardown, .act 2 (.start 60),
      .attach 1 (some 1), .act 1 (.startWith 60 3), .act 1 .teardown]
    let f := (assemble [(5, unit), (2, unit), (9, unit)] 2).run events
    f.rosters.openAt 0 = none ∧ f.rosters.openAt 1 = some ⟨[5, 9], 2⟩ ∧
      (assemble [(5, unit), (2, unit), (9, unit)] 2).changesMade 1 events = 2 := by
  intro unit events f
  have isOpen : f.rosters.openAt 1 = some ⟨[5, 9], 2⟩ := by decide +kernel
  exact ⟨by decide +kernel, isOpen, (run_rosters_exact (by decide) events isOpen).2.2.symm⟩

end Fleet

end UnitDispatch
