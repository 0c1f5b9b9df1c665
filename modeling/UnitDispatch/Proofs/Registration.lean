import UnitDispatch.Proofs.Membership

/-! # Registration and participation

A unit registers with the roster it holds when it begins to take part and deregisters when it ends
to. `Fleet.run_participate_registered` says how far the two go together. A change of participation
brings the registration into line with it, whatever happened before. What is asked of a unit that
does it already changes no registration, and two things part the two: a unit that takes part is
torn down, or one that does not starts with a fraction kept (`RegulatedUnit.parts`).
-/

namespace UnitDispatch

/-! ## Registration in line with participation -/

namespace Enrolment

variable {e : Enrolment} {rosters rosters' : Rosters} {enabled : Bool}

/-- Registration is in line with participation: a unit registered takes part, and a unit that takes
part is registered if the roster it holds is open. -/
structure InLine (e : Enrolment) (rosters : Rosters) (enabled : Bool) : Prop where
  takesPart : e.registered = true → enabled = true
  registered : enabled = true → ∀ place r, e.roster = some place →
    rosters.openAt place = some r → e.registered = true

/-- Rosters that close, or change what they list, leave a unit in line. -/
theorem InLine.of_open (inLine : e.InLine rosters enabled)
    (wasOpen : ∀ place r', rosters'.openAt place = some r' → ∃ r, rosters.openAt place = some r) :
    e.InLine rosters' enabled where
  takesPart := inLine.takesPart
  registered takes place r' holds isOpen := by
    obtain ⟨r, before⟩ := wasOpen place r' isOpen
    exact inLine.registered takes place r holds before

/-- Where a unit is listed if it is in line: on the roster it holds if it takes part. -/
theorem InLine.mem_units_iff (inLine : e.InLine rosters enabled) (listed : e.Listed rosters)
    {place : Nat} {r : Roster} (holds : e.roster = some place)
    (isOpen : rosters.openAt place = some r) : e.unit ∈ r.units ↔ enabled = true := by
  rw [listed place r isOpen]
  exact ⟨fun entry => inLine.takesPart entry.1,
    fun takes => ⟨inLine.registered takes place r holds isOpen, holds⟩⟩

/-! Joining and leaving bring a unit into line, whatever the state it was in. -/

theorem inLine_join (e : Enrolment) (rosters : Rosters) :
    (e.join rosters).1.InLine (e.join rosters).2 true := by
  refine ⟨fun _ => rfl, fun _ place r holds isOpen => ?_⟩
  rw [join_roster] at holds
  unfold join at isOpen ⊢
  by_cases already : e.registered = true
  · simp [already]
  · cases reached : e.open? rosters with
    | some held => simp [already]
    | none =>
      simp only [already, Bool.false_eq_true, if_false, reached] at isOpen
      simp [open?_eq_some.mpr ⟨holds, isOpen⟩] at reached

theorem inLine_leave (e : Enrolment) (rosters : Rosters) :
    (e.leave rosters).1.InLine (e.leave rosters).2 false := by
  refine ⟨fun registered => ?_, fun takes => (Bool.false_ne_true takes).elim⟩
  rw [(leave_roster e rosters).2] at registered
  exact registered

theorem Turn.wasOpen {told : Nat} {e' : Enrolment} (turn : Turn told e rosters e' rosters')
    (place : Nat) (r' : Roster) (isOpen : rosters'.openAt place = some r') :
    ∃ r, rosters.openAt place = some r :=
  have ⟨r, before, _⟩ := turn.each place r' isOpen
  ⟨r, before⟩

theorem InLine.tell (inLine : e.InLine rosters enabled) : e.InLine (e.tell rosters) enabled :=
  inLine.of_open (tell_turn e rosters).wasOpen

/-- A unit that takes up another roster registers there if it takes part. -/
theorem InLine.moveTo (inLine : e.InLine rosters enabled) (roster : Option Nat) :
    (e.moveTo rosters roster enabled).1.InLine (e.moveTo rosters roster enabled).2 enabled := by
  have left := (leave_roster e rosters).2
  unfold Enrolment.moveTo
  generalize e.leave rosters = state at left ⊢
  obtain ⟨e', rosters'⟩ := state
  dsimp only at left ⊢
  by_cases takes : enabled = true
  · subst takes
    simpa using inLine_join { e' with roster } rosters'
  · have free : e.registered = false := by
      by_contra registered
      exact takes (inLine.takesPart (by simpa using registered))
    simp only [free, takes, Bool.or_self, Bool.false_eq_true, if_false]
    exact ⟨fun registered => absurd (left.symm.trans registered) Bool.false_ne_true,
      fun taking => absurd taking Bool.false_ne_true⟩

/-! ## Rosters that stay open -/

/-- A unit closes no roster, whatever it has to tell. -/
theorem call_opens {place : Nat} {r : Roster} (isOpen : rosters.openAt place = some r)
    (e : Enrolment) (c : RosterCall) : ∃ r', (e.call rosters c).2.openAt place = some r' := by
  -- a call writes an open roster into the place of an open one, or nothing at all
  have kept {held : Nat} {s s' : Roster} (reached : e.open? rosters = some (held, s)) :
      ∃ r', Rosters.openAt (rosters.set held (some s')) place = some r' := by
    rw [Rosters.openAt_set (open?_eq_some.mp reached).2]
    by_cases same : held = place
    · exact ⟨s', by simp [same]⟩
    · exact ⟨r, by simp [same, isOpen]⟩
  cases c <;> simp only [call, join, leave, tell]
  case join =>
    split
    · exact ⟨r, isOpen⟩
    · split
      next reached => exact kept reached
      next => exact ⟨r, isOpen⟩
  case leave =>
    split
    · split
      next reached => exact kept reached
      next => exact ⟨r, isOpen⟩
    · exact ⟨r, isOpen⟩
  case changed =>
    split
    next reached => exact kept reached
    next => exact ⟨r, isOpen⟩

theorem callAll_opens {place : Nat} {r : Roster} (isOpen : rosters.openAt place = some r)
    (e : Enrolment) (calls : List RosterCall) :
    ∃ r', (e.callAll rosters calls).2.openAt place = some r' := by
  induction calls generalizing e rosters r with
  | nil => exact ⟨r, isOpen⟩
  | cons c calls ih =>
    obtain ⟨r', stillOpen⟩ := call_opens isOpen e c
    exact ih stillOpen (e.call rosters c).1

/-- A unit holds on to its roster, whatever it has to tell. -/
theorem callAll_roster (e : Enrolment) (rosters : Rosters) (calls : List RosterCall) :
    (e.callAll rosters calls).1.roster = e.roster := by
  induction calls generalizing e rosters with
  | nil => rfl
  | cons c calls ih =>
    exact (ih (e.call rosters c).1 (e.call rosters c).2).trans (call_turn e rosters c).2

end Enrolment

/-! ## What a unit does -/

namespace RegulatedUnit

variable {α : Type} [Quantity α] {u : RegulatedUnit α} {a : Action α}

/-- Whether an action parts the registration of a unit from its participation: a unit that takes
part is torn down, or one that does not starts with a fraction kept. -/
def parts (u : RegulatedUnit α) : Action α → Bool
  | .teardown => u.enabled
  | .start _ | .startWith _ _ => !u.enabled && decide (0 < u.upFraction ∨ 0 < u.downFraction)
  | _ => false

/-- What an action comes to for a unit's registration, by what there is to tell and by the part the
unit takes before and after. -/
inductive CallCases (u : RegulatedUnit α) (a : Action α) : List RosterCall → Bool → Prop
  | nothing : CallCases u a [] u.enabled
  | told : CallCases u a [.changed] u.enabled
  | begun (before : u.enabled = false) : CallCases u a [.join, .changed] true
  | ended (before : u.enabled = true) : CallCases u a [.leave, .changed] false
  | started (apart : u.parts a = !u.enabled) : CallCases u a [.join] u.enabled
  | tornDown (apart : u.parts a = u.enabled) : CallCases u a [.leave] u.enabled

theorem callCases_participate (u : RegulatedUnit α) (a : Action α) (active : Bool) :
    CallCases u a (u.callsOfParticipation active) active := by
  have told (same : u.enabled = active) : CallCases u a [.changed] active := same ▸ .told
  unfold callsOfParticipation
  cases before : u.enabled <;> cases active
  · exact told before
  · exact .begun before
  · exact .ended before
  · exact told before

theorem callCases_set (u : RegulatedUnit α) (a : Action α) (setting : UnitSetting) (value : α) :
    CallCases u a (u.callsOfSetting setting value) (u.set setting value).enabled := by
  cases setting with
  | enabled => exact callCases_participate u a _
  | generator setting => exact .nothing
  | _ => exact .told

theorem callCases_start (time : α) (started : u.parts a = u.parts (.start time)) :
    CallCases u a (u.calls (.start time)) u.enabled := by
  simp only [calls]
  by_cases kept : 0 < u.upFraction ∨ 0 < u.downFraction
  · rw [if_pos kept]
    refine .started ?_
    rw [started]
    simp [parts, kept]
  · rw [if_neg kept]
    exact .nothing

theorem advance_enabled (u : RegulatedUnit α) (time : α) :
    (u.advance time).enabled = u.enabled := by
  unfold advance
  dsimp only
  split <;> rfl

theorem setText_enabled (u : RegulatedUnit α) (key value : String) :
    ((u.setText key value).toOption.getD u).enabled = u.enabled := by
  unfold setText
  cases u.generator.setText key value <;> rfl

theorem receive_enabled (u : RegulatedUnit α) (message : Message α) :
    (u.receive message).1.enabled = u.enabled := by
  cases message <;> rfl

/-- The list is complete. -/
theorem call_cases (u : RegulatedUnit α) (a : Action α) :
    CallCases u a (u.calls a) (u.act a).enabled := by
  cases a with
  | start time => exact callCases_start time rfl
  | startWith time level => exact callCases_start time rfl
  | teardown => exact .tornDown rfl
  | participate active up down => exact callCases_participate u _ active
  | set setting value => exact callCases_set u _ setting value
  | setKey key value =>
    simp only [calls, act, setKey]
    cases UnitSetting.ofKey? key with
    | ok setting => exact callCases_set u _ setting value
    | error => exact .nothing
  | advance time => exact u.advance_enabled time ▸ .nothing
  | setText key value => exact u.setText_enabled key value ▸ .nothing
  | receive message => exact u.receive_enabled message ▸ .nothing
  | _ => exact .nothing

end RegulatedUnit

namespace Member

variable {α : Type} [Quantity α] {m : Member α} {rosters : Rosters}

/-- What does not part the two leaves a member in line. -/
theorem inLine_act {a : RegulatedUnit.Action α}
    (inLine : m.enrolment.InLine rosters m.unit.enabled) (together : m.unit.parts a = false) :
    (m.act rosters a).1.enrolment.InLine (m.act rosters a).2 (m.unit.act a).enabled := by
  have cases := m.unit.call_cases a
  unfold act
  generalize m.unit.calls a = calls, (m.unit.act a).enabled = enabled at cases
  cases cases with
  | nothing => exact inLine
  | told => exact inLine.tell
  | begun => exact (Enrolment.inLine_join m.enrolment rosters).tell
  | ended => exact (Enrolment.inLine_leave m.enrolment rosters).tell
  | started apart =>
    have takes : m.unit.enabled = true := by simpa [together] using apart
    exact takes ▸ Enrolment.inLine_join m.enrolment rosters
  | tornDown apart =>
    have idle : m.unit.enabled = false := apart.symm.trans together
    exact idle ▸ Enrolment.inLine_leave m.enrolment rosters

/-- A change of participation brings a member into line. -/
theorem inLine_participate {active : Bool} (changes : active ≠ m.unit.enabled)
    (up down : Option α) : (m.act rosters (.participate active up down)).1.enrolment.InLine
      (m.act rosters (.participate active up down)).2 active := by
  unfold act RegulatedUnit.calls RegulatedUnit.callsOfParticipation
  cases before : m.unit.enabled <;> cases active
  · exact absurd before.symm changes
  · exact (Enrolment.inLine_join m.enrolment rosters).tell
  · exact (Enrolment.inLine_leave m.enrolment rosters).tell
  · exact absurd before.symm changes

/-- Participation that stays as it is leaves the registration as it is. -/
theorem participate_enabled (up down : Option α) :
    (m.act rosters (.participate m.unit.enabled up down)).1.enrolment = m.enrolment := by
  unfold act RegulatedUnit.calls RegulatedUnit.callsOfParticipation
  cases m.unit.enabled <;> rfl

end Member

/-! ## Fleets -/

namespace Fleet

variable {α : Type} [Quantity α] {f : Fleet α} {e : Event α} {place : Nat}

/-- Whether an event parts the registration of the unit at a place from its participation. -/
def partsAt (f : Fleet α) (place : Nat) : Event α → Bool
  | .act at_ action => at_ == place && (f.member? at_).any (·.unit.parts action)
  | _ => false

/-- Whether any of the events does. -/
def everParts (f : Fleet α) (place : Nat) : List (Event α) → Bool
  | [] => false
  | e :: es => f.partsAt place e || (f.step e).everParts place es

omit [Quantity α] in
/-- The unit at a place, if there is one, is in line. -/
def InLineAt (f : Fleet α) (place : Nat) : Prop :=
  ∀ m, f.member? place = some m → m.enrolment.InLine f.rosters m.unit.enabled

omit [Quantity α] in
/-- What one member does to itself and to rosters that were open leaves the others in line. -/
theorem InLineAt.set (inLine : f.InLineAt place) {at_ : Nat} {m : Member α}
    (held : f.member? at_ = some m) {next : Option (Member α)} {rosters : Rosters}
    (own : at_ = place → ∀ m', next = some m' → m'.enrolment.InLine rosters m'.unit.enabled)
    (wasOpen : ∀ slot r', rosters.openAt slot = some r' →
      ∃ r, f.rosters.openAt slot = some r) :
    InLineAt { members := f.members.set at_ next, rosters } place := by
  intro m' member
  rw [member?_set held] at member
  split at member
  next same => exact own same m' member
  next => exact (inLine m' member).of_open wasOpen

theorem InLineAt.step (inLine : f.InLineAt place) (together : f.partsAt place e = false) :
    (f.step e).InLineAt place := by
  cases e with
  | act at_ action =>
    cases held : f.member? at_ with
    | none => simpa only [Fleet.step, held] using inLine
    | some m =>
      simp only [Fleet.step, held]
      refine inLine.set held (fun same m' stays => ?_)
        (Enrolment.callAll_turn m.enrolment f.rosters (m.unit.calls action)).wasOpen
      subst same
      cases stays
      exact Member.inLine_act (inLine m held) (by simpa [partsAt, held] using together)
  | attach at_ roster =>
    cases held : f.member? at_ with
    | none => simpa only [Fleet.step, held] using inLine
    | some m =>
      simp only [Fleet.step, held]
      refine inLine.set held (fun same m' stays => ?_)
        (Enrolment.moveTo_turn m.enrolment f.rosters roster m.unit.enabled).wasOpen
      subst same
      cases stays
      exact (inLine m held).moveTo roster
  | dropUnit at_ =>
    cases held : f.member? at_ with
    | none => simpa only [Fleet.step, held] using inLine
    | some m =>
      simp only [Fleet.step, held]
      exact inLine.set held (fun _ m' stays => (Option.some_ne_none m' stays.symm).elim)
        (Enrolment.leave_turn m.enrolment f.rosters).wasOpen
  | dropRoster at_ =>
    exact fun m held => (inLine m held).of_open fun slot r isOpen =>
      ⟨r, Rosters.openAt_of_closed isOpen⟩

theorem InLineAt.run (inLine : f.InLineAt place) {events : List (Event α)}
    (together : f.everParts place events = false) : (f.run events).InLineAt place := by
  induction events generalizing f with
  | nil => exact inLine
  | cons e es ih =>
    obtain ⟨now, later⟩ := Bool.or_eq_false_iff.mp together
    exact ih (inLine.step now) later

omit [Quantity α] in
theorem inLineAt_assemble (units : List (Nat × RegulatedUnit α)) (rosters place : Nat) :
    (assemble units rosters).InLineAt place := by
  intro m held
  obtain ⟨-, -, free, none⟩ := member?_assemble held
  refine ⟨fun registered => ?_, fun _ slot r holds => ?_⟩
  · exact absurd (free.symm.trans registered) Bool.false_ne_true
  · exact absurd (none.symm.trans holds) (Option.some_ne_none slot).symm

theorem step_act_rosters {m : Member α} (held : f.member? place = some m)
    (a : RegulatedUnit.Action α) : (f.step (.act place a)).rosters = (m.act f.rosters a).2 := by
  simp only [Fleet.step, held]

/-- Once a unit in line has done something, its open roster lists it exactly if it takes part. -/
theorem Consistent.mem_units_act {m : Member α} {enabled : Bool} {slot : Nat} {r' : Roster}
    (consistent : f.Consistent) (held : f.member? place = some m) (a : RegulatedUnit.Action α)
    (inLine : (m.act f.rosters a).1.enrolment.InLine (m.act f.rosters a).2 enabled)
    (holds : m.enrolment.roster = some slot)
    (isOpen : (m.act f.rosters a).2.openAt slot = some r') :
    m.enrolment.unit ∈ r'.units ↔ enabled = true := by
  have turn := Enrolment.callAll_turn m.enrolment f.rosters (m.unit.calls a)
  have holds' := (Enrolment.callAll_roster m.enrolment f.rosters (m.unit.calls a)).trans holds
  have listed := turn.listed (consistent.listed place m held)
  rw [← turn.unit]
  exact inLine.mem_units_iff listed holds' isOpen

/-- Asked for what it does already, a unit is listed as it was. -/
theorem Consistent.mem_units_enabled {m : Member α} {slot : Nat} {r r' : Roster}
    (consistent : f.Consistent) (held : f.member? place = some m) (up down : Option α)
    (wasOpen : f.rosters.openAt slot = some r)
    (isOpen : (m.act f.rosters (.participate m.unit.enabled up down)).2.openAt slot = some r') :
    m.enrolment.unit ∈ r'.units ↔ m.enrolment.unit ∈ r.units := by
  have before := consistent.listed place m held
  have after := (Enrolment.callAll_turn m.enrolment f.rosters
    (m.unit.calls (.participate m.unit.enabled up down))).listed before slot r' isOpen
  have same : (m.enrolment.callAll f.rosters
      (m.unit.calls (.participate m.unit.enabled up down))).1 = m.enrolment :=
    m.participate_enabled up down
  rw [same] at after
  exact after.trans (before slot r wasOpen).symm

/-- Whatever happened in a fleet of units with numbers of their own, a unit whose roster is open is
asked to take part, or to take no part. If that changes its participation, the roster lists it
afterwards exactly if it takes part; if not, it is listed as it was before. So the roster lists it
exactly if it takes part, unless it was once torn down while it took part or started with a fraction
kept while it did not. -/
theorem run_participate_registered {units : List (Nat × RegulatedUnit α)} {rosters slot : Nat}
    {m : Member α} {r : Roster} (distinct : (units.map Prod.fst).Nodup) (events : List (Event α))
    (held : ((assemble units rosters).run events).member? place = some m)
    (holds : m.enrolment.roster = some slot)
    (isOpen : ((assemble units rosters).run events).rosters.openAt slot = some r)
    (active : Bool) (up down : Option α) :
    ∃ r', (((assemble units rosters).run events).step
        (.act place (.participate active up down))).rosters.openAt slot = some r' ∧
      (active ≠ m.unit.enabled → (m.enrolment.unit ∈ r'.units ↔ active = true)) ∧
      (active = m.unit.enabled → (m.enrolment.unit ∈ r'.units ↔ m.enrolment.unit ∈ r.units)) ∧
      ((assemble units rosters).everParts place events = false →
        (m.enrolment.unit ∈ r'.units ↔ active = true)) := by
  have consistent := (assemble_consistent rosters distinct).run events
  have inLine (together : (assemble units rosters).everParts place events = false) :=
    (inLineAt_assemble units rosters place).run together m held
  generalize (assemble units rosters).run events = f at held isOpen consistent inLine ⊢
  obtain ⟨r', stillOpen⟩ := Enrolment.callAll_opens isOpen m.enrolment
    (m.unit.calls (.participate active up down))
  rw [step_act_rosters held]
  refine ⟨r', stillOpen, fun changes => ?_, fun same => ?_, fun together => ?_⟩
  · exact consistent.mem_units_act held _ (Member.inLine_participate changes up down) holds
      stillOpen
  · subst same
    exact consistent.mem_units_enabled held up down isOpen stillOpen
  · exact consistent.mem_units_act held _ (Member.inLine_act (inLine together) rfl) holds stillOpen

/-- A unit takes part with a fraction kept, starts, and moves to another roster before its own is
closed; another starts with no fraction kept and is torn down while it takes no part. Nothing of
that parts the two, so the roster loses the first when it ends to take part. -/
theorem run_participate_registered_moved :
    let unit : RegulatedUnit (Exact ℚ) := .idle 50
    let events : List (Event (Exact ℚ)) := [.attach 0 (some 0), .act 0 (.start 0),
      .act 1 (.participate true (some 0.1) none), .act 0 .teardown, .attach 1 (some 1),
      .act 1 (.startWith 0 3), .attach 1 (some 0), .dropRoster 1, .act 0 (.set .fraction 0.2)]
    let f := (assemble [(5, unit), (2, unit)] 2).run events
    (f.member? 1).map (·.enrolment) = some ⟨2, some 0, true⟩ ∧
      f.rosters.openAt 0 = some ⟨[2], 1⟩ ∧
      ∃ r', (f.step (.act 1 (.participate false none none))).rosters.openAt 0 = some r' ∧
        2 ∉ r'.units := by
  intro unit events f
  have enrolment : (f.member? 1).map (·.enrolment) = some ⟨2, some 0, true⟩ := by decide +kernel
  have isOpen : f.rosters.openAt 0 = some ⟨[2], 1⟩ := by decide +kernel
  refine ⟨enrolment, isOpen, ?_⟩
  obtain ⟨m, held, stands⟩ := Option.map_eq_some_iff.mp enrolment
  obtain ⟨r', stillOpen, -, -, together⟩ := run_participate_registered (by decide) events held
    (by rw [stands]) isOpen false none none
  rw [stands] at together
  exact ⟨r', stillOpen, fun listed => Bool.false_ne_true ((together (by decide +kernel)).mp listed)⟩

/-- A unit that takes no part but starts with a fraction kept is still listed after it was asked to
take no part. One that is torn down while it takes part is not listed after it was asked to. -/
theorem run_participate_parted :
    let unit : RegulatedUnit (Exact ℚ) := .idle 50
    let f := assemble [(1, unit)] 1
    let started := f.run [.attach 0 (some 0), .act 0 (.set .fraction 0.1), .act 0 (.start 0)]
    let tornDown := f.run [.attach 0 (some 0), .act 0 (.participate true none none),
      .act 0 .teardown]
    (started.member? 0).map (·.enrolment.roster) = some (some 0) ∧
      (tornDown.member? 0).map (·.enrolment.roster) = some (some 0) ∧
      (started.step (.act 0 (.participate false none none))).rosters.openAt 0 =
        some ⟨[1], 2⟩ ∧
      (tornDown.step (.act 0 (.participate true none none))).rosters.openAt 0 =
        some ⟨[], 2⟩ := by
  decide +kernel

end Fleet

end UnitDispatch
