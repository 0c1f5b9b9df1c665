import UnitDispatch.Generator.Action
import UnitDispatch.Proofs.Effect

/-! # Journals

A journal says what befell the setpoints of a generator: which were queued, by whom, which a
revision of the plan took as due and what it left, and which were dropped. It is kept beside the
generator, which knows nothing of it. A relation between a generator, its journal and what becomes
of it holds of every run when it holds of the few things a run is made of: see `RunRelation.run`.
-/

namespace UnitDispatch

open Quantity

deriving instance DecidableEq for Setpoint

/-- Something that befell setpoints. -/
inductive Entry (α : Type) where
  /-- One was put on the schedule. -/
  | queued (p : Setpoint α)
  /-- A revision at `now` took some as due and left others. -/
  | taken (now : α) (due left : List (Setpoint α))
  /-- Some were dropped when the generator was made ready to advance from `start`. -/
  | outdated (start : α) (dropped : List (Setpoint α))
  /-- All were dropped. -/
  | cleared (dropped : List (Setpoint α))
  deriving DecidableEq, Repr

namespace Entry

variable {α : Type}

/-- What came onto the schedule. -/
def entered : Entry α → List (Setpoint α)
  | queued p => [p]
  | _ => []

/-- What was taken off the schedule as due. -/
def served : Entry α → List (Setpoint α)
  | taken _ due _ => due
  | _ => []

def dropped : Entry α → List (Setpoint α)
  | outdated _ dropped | cleared dropped => dropped
  | _ => []

end Entry

namespace Generator

variable {α : Type} [Quantity α]

/-! ## Keeping a journal -/

/-- The setpoint of its own that a generator queues to see to a power. -/
def carried? (g : Generator α) (wanted : α) : Option (Setpoint α) :=
  let power := g.holdTarget wanted
  let lack := g.lack power
  if lack == 0 then none
  else match g.catchup lack with
    | .ramp rate =>
      let finish := g.now + lack / rate
      if g.schedule.precedes finish then none else some ⟨finish, power, true⟩
    | .atOnce | .never => none

def journalOfReplan (g : Generator α) : List (Entry α) :=
  match (g.schedule.due g.now).getLast? with
  | none => []
  | some p => .taken g.now (g.schedule.due g.now) (g.schedule.afterDue g.now).setpoints ::
      (g.takeDue.carried? p.power).toList.map .queued

def journalOfLeg (g : Generator α) : List (Entry α) := (g.moveTo g.review).journalOfReplan

def journalOfLegs (time : α) : Nat → Generator α → List (Entry α)
  | 0, _ => []
  | fuel + 1, g =>
    if g.review ≤ time then
      let next := g.leg
      g.journalOfLeg ++ if next.review ≤ next.now then [] else journalOfLegs time fuel next
    else []

def journalOfAdvance (g : Generator α) (time : α) : List (Entry α) :=
  if isNaN time ∨ time ≤ g.now then [] else journalOfLegs time g.legBound g

/-- Made ready to advance from `time`, with the plan still to be revised. -/
def dropTo (g : Generator α) (time : α) : Generator α :=
  { g with schedule := g.schedule.dropBefore time, now := time, last := time }

def journalOfStart (g : Generator α) (time : α) : List (Entry α) :=
  .outdated time (g.schedule.setpoints.take (g.schedule.countBefore time)) ::
    (g.dropTo time).journalOfReplan

/-- With a setpoint queued, and the plan still to be revised. -/
def enqueue (g : Generator α) (p : Setpoint α) : Generator α :=
  { g with
    schedule := g.schedule.insert p
    review := if p.time < g.review then p.time else g.review }

def journalOfAdd (g : Generator α) (time power : α) : List (Entry α) :=
  let p : Setpoint α := ⟨time, power, false⟩
  .queued p :: if time == (g.enqueue p).review then (g.enqueue p).journalOfReplan else []

def journalOfAddAll (g : Generator α) : List (α × α) → List (Entry α)
  | [] => []
  | p :: rest => g.journalOfAdd p.1 p.2 ++ (g.add p.1 p.2).journalOfAddAll rest

def journalOfClear (g : Generator α) : List (Entry α) := [.cleared g.schedule.setpoints]

def journalOfSet (g : Generator α) (setting : GeneratorSetting) (value : α) : List (Entry α) :=
  match setting with
  | .target => g.journalOfAdd g.now value
  | setting => (g.assign setting value).journalOfReplan

def journalOfAct (g : Generator α) : Action α → List (Entry α)
  | .start time => g.journalOfStart time
  | .add time power => g.journalOfAdd time power
  | .addNow power => g.journalOfAdd g.now power
  | .addAll times powers | .receive (.addTargets times powers) =>
    g.journalOfAddAll (times.zip powers)
  | .clear | .receive .clearTargets => g.journalOfClear
  | .receive (.updateTargets times powers) =>
    g.journalOfClear ++ g.clear.journalOfAddAll (times.zip powers)
  | .advance time => g.journalOfAdvance time
  | .set setting value => g.journalOfSet setting value
  | .setKey key value => (GeneratorSetting.ofKey? key).toOption.elim [] (g.journalOfSet · value)
  | a => (g.configure a).elim [] journalOfReplan

/-- The journal of a run. -/
def journal (g : Generator α) : List (Action α) → List (Entry α)
  | [] => []
  | a :: as => g.journalOfAct a ++ (g.act a).journal as

/-! ## Operations in parts -/

theorem settle_schedule (g : Generator α) (wanted : α) :
    (g.settle wanted).schedule = (g.carried? wanted).elim g.schedule g.schedule.insert := by
  unfold settle carried?
  dsimp only
  split
  · rfl
  · cases g.catchup (g.lack (g.holdTarget wanted)) with
    | ramp rate =>
      dsimp only
      split <;> rfl
    | atOnce | never => rfl

/-- A revision takes what is due, and queues at most a setpoint of the generator's own. -/
theorem mem_journalOfReplan {g : Generator α} {e : Entry α} (he : e ∈ g.journalOfReplan) :
    e = .taken g.now (g.schedule.due g.now) g.takeDue.schedule.setpoints ∨ ∃ q, e = .queued q := by
  unfold journalOfReplan at he
  split at he
  · cases he
  · rcases List.mem_cons.mp he with rfl | own
    · exact .inl rfl
    · obtain ⟨q, -, rfl⟩ := List.mem_map.mp own
      exact .inr ⟨q, rfl⟩

theorem served_replan (g : Generator α) :
    g.journalOfReplan.flatMap Entry.served = g.schedule.due g.now := by
  unfold journalOfReplan
  cases last : (g.schedule.due g.now).getLast? with
  | none => simp [List.getLast?_eq_none_iff.mp last]
  | some q => cases own : g.takeDue.carried? q.power <;> simp [Entry.served, own]

theorem add_eq (g : Generator α) (time power : α) :
    g.add time power =
      if time == (g.enqueue ⟨time, power, false⟩).review then
        (g.enqueue ⟨time, power, false⟩).replan
      else g.enqueue ⟨time, power, false⟩ := by
  unfold add enqueue
  dsimp only
  split <;> rfl

/-! ## Relations that outlast a run -/

/-- Only queues setpoints, or advances to a time for which `T` holds. -/
def Action.Feeds (T : α → Prop) : Action α → Prop
  | .add _ _ | .addNow _ | .addAll _ _ | .receive (.addTargets _ _) | .set .target _ => True
  | .setKey key _ => GeneratorSetting.ofKey? key = .ok .target
  | .advance time => T time
  | _ => False

/-- The same setpoints, and as many counted, at the same time. -/
structure SameBooks (g h : Generator α) : Prop where
  schedule : h.schedule = g.schedule
  consumed : h.consumed = g.consumed
  now : h.now = g.now

/-- A relation between a generator, its journal and what it becomes, that outlasts an advance to a
time below all of which `T` holds. -/
structure LegRelation (T : α → Prop) (R : List (Entry α) → Generator α → Generator α → Prop) :
    Prop where
  below : ∀ {a b}, a ≤ b → T b → T a
  nil : ∀ g, R [] g g
  append : ∀ {l l' g h k}, R l g h → R l' h k → R (l ++ l') g k
  moveTo : ∀ g {time}, T time → R [] g (g.moveTo time)
  replan : ∀ g, R g.journalOfReplan g g.replan

/-- A relation that outlasts setpoints being queued as well. -/
structure FeedRelation (T : α → Prop) (R : List (Entry α) → Generator α → Generator α → Prop) :
    Prop extends LegRelation T R where
  enqueue : ∀ g (p : Setpoint α), p.carried = false → R [.queued p] g (g.enqueue p)

/-- A relation that outlasts every action, if `S` holds of the times of all starts. -/
structure RunRelation (S : α → Prop) (R : List (Entry α) → Generator α → Generator α → Prop) :
    Prop extends FeedRelation (fun _ => True) R where
  dropTo : ∀ g {time}, S time →
    R [.outdated time (g.schedule.setpoints.take (g.schedule.countBefore time))] g (g.dropTo time)
  clear : ∀ g, R g.journalOfClear g g.clear
  frame : ∀ {g h}, SameBooks g h → R [] g h

variable {S T : α → Prop} {R : List (Entry α) → Generator α → Generator α → Prop}

section Advance

variable (legs : LegRelation T R)

include legs

theorem LegRelation.leg (g : Generator α) (time : T g.review) : R g.journalOfLeg g g.leg :=
  legs.append (legs.moveTo g time) (legs.replan (g.moveTo g.review))

theorem LegRelation.legsTo {time : α} (ht : T time) (fuel : Nat) (g : Generator α) :
    R (journalOfLegs time fuel g) g (g.legsTo time fuel) := by
  induction fuel generalizing g with
  | zero => exact legs.nil g
  | succ fuel ih =>
    unfold journalOfLegs Generator.legsTo
    split
    next due =>
      have leg := legs.leg g (legs.below due ht)
      dsimp only
      split
      · exact legs.append leg (legs.nil g.leg)
      · exact legs.append leg (ih g.leg)
    next => exact legs.nil g

theorem LegRelation.advance (g : Generator α) {time : α} (ht : T time) :
    R (g.journalOfAdvance time) g (g.advance time) := by
  unfold journalOfAdvance Generator.advance
  split
  · exact legs.nil g
  · have whole := legs.append (legs.legsTo ht g.legBound g) (legs.moveTo _ ht)
    rwa [List.append_nil] at whole

end Advance

section Feed

variable (feed : FeedRelation T R)

include feed

theorem FeedRelation.add (g : Generator α) (time power : α) :
    R (g.journalOfAdd time power) g (g.add time power) := by
  have queued := feed.enqueue g ⟨time, power, false⟩ rfl
  rw [add_eq]
  unfold journalOfAdd
  dsimp only
  split
  · exact feed.append queued (feed.replan _)
  · exact queued

theorem FeedRelation.addAll (g : Generator α) (times powers : List α) :
    R (g.journalOfAddAll (times.zip powers)) g (g.addAll times powers) := by
  unfold Generator.addAll
  generalize times.zip powers = list
  induction list generalizing g with
  | nil => exact feed.nil g
  | cons p rest ih => exact feed.append (feed.add g p.1 p.2) (ih _)

theorem FeedRelation.act (g : Generator α) {a : Action α} (feeds : a.Feeds T) :
    R (g.journalOfAct a) g (g.act a) := by
  cases a with
  | add time power => exact feed.add g time power
  | addNow power => exact feed.add g g.now power
  | addAll times powers => exact feed.addAll g times powers
  | advance time => exact feed.advance g feeds
  | set setting value =>
    cases setting with
    | target => exact feed.add g g.now value
    | _ => exact feeds.elim
  | setKey key value =>
    have target : GeneratorSetting.ofKey? key = .ok .target := feeds
    show R ((GeneratorSetting.ofKey? key).toOption.elim [] (g.journalOfSet · value)) g
      ((g.setKey key value).toOption.getD g)
    unfold setKey
    rw [target]
    exact feed.add g g.now value
  | receive message =>
    cases message with
    | addTargets times powers => exact feed.addAll g times powers
    | _ => exact feeds.elim
  | _ => exact feeds.elim

theorem FeedRelation.run (g : Generator α) {as : List (Action α)} (feeds : ∀ a ∈ as, a.Feeds T) :
    R (g.journal as) g (g.run as) := by
  induction as generalizing g with
  | nil => exact feed.nil g
  | cons a as ih =>
    obtain ⟨first, rest⟩ := List.forall_mem_cons.mp feeds
    exact feed.append (feed.act g first) (ih (g.act a) rest)

end Feed

section Run

variable (rel : RunRelation S R)

include rel

theorem RunRelation.start (g : Generator α) {time : α} (hs : S time) :
    R (g.journalOfStart time) g (g.start time) := by
  have started : R (g.dropTo time).journalOfReplan (g.dropTo time) (g.start time) := by
    have planned := rel.append (rel.replan (g.dropTo time))
      (rel.frame (h := g.start time) ⟨rfl, rfl, rfl⟩)
    rwa [List.append_nil] at planned
  exact rel.append (rel.dropTo g hs) started

/-- Changing settings and revising the plan. -/
theorem RunRelation.reset {g h : Generator α} (same : SameBooks g h) :
    R h.journalOfReplan g h.replan :=
  rel.append (rel.frame same) (rel.replan h)

theorem RunRelation.set (g : Generator α) (setting : GeneratorSetting) (value : α) :
    R (g.journalOfSet setting value) g (g.set setting value) := by
  cases setting with
  | target => exact rel.add g g.now value
  | _ => exact rel.reset ⟨rfl, rfl, rfl⟩

theorem RunRelation.act (g : Generator α) {a : Action α} (starts : ∀ t, a = .start t → S t) :
    R (g.journalOfAct a) g (g.act a) := by
  cases a with
  | start time => exact rel.start g (starts time rfl)
  | add time power => exact rel.add g time power
  | addNow power => exact rel.add g g.now power
  | addAll times powers => exact rel.addAll g times powers
  | clear => exact rel.clear g
  | advance time => exact rel.advance g trivial
  | set setting value => exact rel.set g setting value
  | setKey key value =>
    show R ((GeneratorSetting.ofKey? key).toOption.elim [] (g.journalOfSet · value)) g
      ((g.setKey key value).toOption.getD g)
    unfold setKey
    cases GeneratorSetting.ofKey? key with
    | error e => exact rel.nil g
    | ok setting => exact rel.set g setting value
  | setText key value =>
    show R ((g.reword key value).elim [] journalOfReplan) g ((g.setText key value).toOption.getD g)
    unfold setText reword
    split
    · cases RampMode.ofName? value with
      | error e => exact rel.nil g
      | ok mode => exact rel.reset ⟨rfl, rfl, rfl⟩
    · exact rel.nil g
  | receive message =>
    cases message with
    | clearTargets => exact rel.clear g
    | addTargets times powers => exact rel.addAll g times powers
    | updateTargets times powers => exact rel.append (rel.clear g) (rel.addAll g.clear times powers)
    | updateReserves | useReserve => exact rel.reset ⟨rfl, rfl, rfl⟩
    | shutdown | startup | updateRegulationTarget => exact rel.nil g
    | registerDispatcher source => exact rel.frame ⟨rfl, rfl, rfl⟩
  | callReserve | holdReserve | setMode | setRampLimits | setPowerLimits =>
    exact rel.reset ⟨rfl, rfl, rfl⟩

theorem RunRelation.run (g : Generator α) {as : List (Action α)}
    (starts : ∀ t, Action.start t ∈ as → S t) : R (g.journal as) g (g.run as) := by
  induction as generalizing g with
  | nil => exact rel.nil g
  | cons a as ih =>
    refine rel.append (rel.act g ?_) (ih (g.act a) ?_)
    · rintro t rfl
      exact starts t List.mem_cons_self
    · intro t ht
      exact starts t (List.mem_cons_of_mem a ht)

end Run

end Generator

end UnitDispatch
