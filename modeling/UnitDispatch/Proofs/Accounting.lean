import Mathlib.Algebra.Order.Group.Multiset
import Mathlib.Data.Multiset.Filter
import UnitDispatch.Proofs.Journal
import UnitDispatch.Proofs.Revision

/-! # Accounting for setpoints

Every setpoint that a generator was given is still on its schedule, was counted as consumed, or was
dropped. The account is drawn up in multisets, so none of them is in two places or counted twice.
What is said of the order of times asks for no more than the laws of `Quantity.Ordered`, and holds
of doubles as it does of exact quantities.
-/

namespace UnitDispatch

open Quantity

namespace Entry

variable {α : Type} [Quantity α]

/-- What was taken as due was due, if it had a time at all. -/
def Timely : Entry α → Prop
  | taken now due _ => ∀ p ∈ due, isNaN p.time = false → p.time ≤ now
  | _ => True

/-- What came onto the schedule has a time. -/
def Scheduled : Entry α → Prop
  | queued p => isNaN p.time = false
  | _ => True

/-- What a start dropped was older than the start. -/
def Older : Entry α → Prop
  | outdated start dropped => ∀ p ∈ dropped, p.time < start
  | _ => True

end Entry

namespace Generator

variable {α : Type}

/-! ## The account -/

/-- All that the entries of a journal name in one part. -/
def gather (part : Entry α → List (Setpoint α)) (log : List (Entry α)) : Multiset (Setpoint α) :=
  ↑(log.flatMap part)

/-- Those setpoints that are not the generator's own. -/
def commanded (s : Multiset (Setpoint α)) : Multiset (Setpoint α) :=
  s.filter fun p => p.carried = false

@[simp] theorem gather_nil (part : Entry α → List (Setpoint α)) : gather part [] = 0 := rfl

@[simp] theorem gather_cons (part : Entry α → List (Setpoint α)) (e : Entry α)
    (log : List (Entry α)) : gather part (e :: log) = ↑(part e) + gather part log := by
  simp [gather]

@[simp] theorem commanded_zero : commanded (0 : Multiset (Setpoint α)) = 0 := rfl

theorem gather_append (part : Entry α → List (Setpoint α)) (l l' : List (Entry α)) :
    gather part (l ++ l') = gather part l + gather part l' := by
  simp [gather]

theorem commanded_add (s t : Multiset (Setpoint α)) :
    commanded (s + t) = commanded s + commanded t :=
  Multiset.filter_add _ s t

/-- From `g` to `h`, the journal accounts for all setpoints and for those counted. -/
structure Accounts (log : List (Entry α)) (g h : Generator α) : Prop where
  setpoints : (g.schedule.setpoints : Multiset (Setpoint α)) + gather Entry.entered log =
    h.schedule.setpoints + gather Entry.served log + gather Entry.dropped log
  consumed : h.consumed = g.consumed + (commanded (gather Entry.served log)).card

theorem Accounts.append {l l' : List (Entry α)} {g h k : Generator α} (one : Accounts l g h)
    (two : Accounts l' h k) : Accounts (l ++ l') g k where
  setpoints := by
    simp only [gather_append]
    calc _ = (↑g.schedule.setpoints + gather Entry.entered l) + gather Entry.entered l' := by
          rw [add_assoc]
      _ = ↑h.schedule.setpoints + gather Entry.entered l' + gather Entry.served l +
          gather Entry.dropped l := by
          rw [one.setpoints]
          ac_rfl
      _ = _ := by
          rw [two.setpoints]
          ac_rfl
  consumed := by
    rw [two.consumed, one.consumed, gather_append, commanded_add, Multiset.card_add, add_assoc]

variable [Quantity α]

theorem settle_consumed (g : Generator α) (wanted : α) :
    (g.settle wanted).consumed = g.consumed := by
  have settles := g.settle_settles wanted
  generalize g.settle wanted = h at settles
  cases settles <;> rfl

theorem replan_accounts (g : Generator α) : Accounts g.journalOfReplan g g.replan := by
  unfold journalOfReplan replan
  cases (g.schedule.due g.now).getLast? with
  | none => exact ⟨by simp [planNext, follow], by simp [planNext, follow]⟩
  | some p =>
    have parts : (g.schedule.setpoints : Multiset (Setpoint α)) =
        g.takeDue.schedule.setpoints + ↑(g.schedule.due g.now) := by
      rw [add_comm, Multiset.coe_add, takeDue, Schedule.due_append_afterDue]
    have counted : (g.takeDue.settle p.power).consumed =
        g.consumed + (commanded (g.schedule.due g.now : Multiset (Setpoint α))).card := by
      rw [settle_consumed]
      simp [takeDue, commanded, List.countP_eq_length_filter]
    dsimp only
    cases own : g.takeDue.carried? p.power with
    | none =>
      refine ⟨?_, by simpa [Entry.served] using counted⟩
      rw [settle_schedule, own]
      simpa [Entry.entered, Entry.served, Entry.dropped] using parts
    | some q =>
      refine ⟨?_, by simpa [Entry.served] using counted⟩
      have inserted := Multiset.coe_eq_coe.mpr (Schedule.insert_perm g.takeDue.schedule q)
      rw [settle_schedule, own, parts, Option.elim_some, inserted, ← Multiset.cons_coe,
        ← Multiset.singleton_add]
      simp only [Option.toList_some, List.map_cons, List.map_nil, gather_cons, gather_nil,
        Entry.entered, Entry.served, Entry.dropped, Multiset.coe_nil, Multiset.coe_singleton,
        add_zero, zero_add]
      ac_rfl

theorem accounts_runRelation : RunRelation (fun _ : α => True) Accounts where
  below := fun _ _ => trivial
  nil g := ⟨by simp, by simp⟩
  append := Accounts.append
  moveTo g time _ := ⟨by simp [moveTo_schedule], by simp [moveTo_consumed]⟩
  replan := replan_accounts
  enqueue g p _ := by
    refine ⟨?_, by simp [enqueue, Entry.served]⟩
    have inserted := Multiset.coe_eq_coe.mpr (Schedule.insert_perm g.schedule p)
    show _ = ((g.schedule.insert p).setpoints : Multiset (Setpoint α)) + _ + _
    rw [inserted, ← Multiset.cons_coe, ← Multiset.singleton_add]
    simp [Entry.entered, Entry.served, Entry.dropped, add_comm]
  dropTo g time _ := by
    refine ⟨?_, by simp [dropTo, Entry.served]⟩
    have parts := List.take_append_drop (g.schedule.countBefore time) g.schedule.setpoints
    show _ = ((g.schedule.dropBefore time).setpoints : Multiset (Setpoint α)) + _ + _
    rw [Schedule.setpoints_dropBefore, ← congrArg Multiset.ofList parts, ← Multiset.coe_add]
    simp only [gather_cons, gather_nil, Entry.entered, Entry.served, Entry.dropped,
      Multiset.coe_nil, add_zero]
    exact add_comm _ _
  clear g := by
    refine ⟨?_, by simp [Generator.clear, journalOfClear, Entry.served]⟩
    simp [journalOfClear, Generator.clear, Schedule.setpoints_clear, Entry.entered, Entry.served,
      Entry.dropped]
  frame same := ⟨by simp [same.schedule], by simp [same.consumed]⟩

/-! ## What is asked for is accepted -/

theorem own_carried {g : Generator α} {wanted : α} {p : Setpoint α}
    (own : g.carried? wanted = some p) : p.carried = true := by
  unfold carried? at own
  dsimp only at own
  split at own
  · cases own
  · cases h : g.catchup (g.lack (g.holdTarget wanted)) with
    | ramp rate =>
      rw [h] at own
      dsimp only at own
      split at own
      · cases own
      · cases own
        rfl
    | atOnce | never =>
      rw [h] at own
      cases own

/-- The powers of the setpoints that were queued on command. -/
def accepted (log : List (Entry α)) : List α :=
  ((log.flatMap Entry.entered).filter fun p => p.carried = false).map (·.power)

omit [Quantity α] in
theorem accepted_append (l l' : List (Entry α)) :
    accepted (l ++ l') = accepted l ++ accepted l' := by
  simp [accepted]

theorem accepted_replan (g : Generator α) : accepted g.journalOfReplan = [] := by
  unfold journalOfReplan
  cases (g.schedule.due g.now).getLast? with
  | none => rfl
  | some p =>
    dsimp only
    cases own : g.takeDue.carried? p.power with
    | none => rfl
    | some q => simp [accepted, Entry.entered, own_carried own]

/-- An advance accepts nothing. -/
theorem accepted_advance (g : Generator α) (time : α) :
    accepted (g.journalOfAdvance time) = [] := by
  have nothing : LegRelation (fun _ => True) fun l (_ _ : Generator α) => accepted l = [] := by
    refine ⟨fun _ _ => trivial, fun _ => rfl, ?_, fun _ _ _ => rfl, accepted_replan⟩
    intro l l' g h k one two
    rw [accepted_append, one, two, List.append_nil]
  exact nothing.advance g trivial

theorem accepted_add (g : Generator α) (time power : α) :
    accepted (g.journalOfAdd time power) = [power] := by
  unfold journalOfAdd
  dsimp only
  rw [← List.singleton_append, accepted_append]
  split
  · rw [accepted_replan]
    rfl
  · rfl

theorem accepted_addAll (g : Generator α) (list : List (α × α)) :
    accepted (g.journalOfAddAll list) = list.map Prod.snd := by
  induction list generalizing g with
  | nil => rfl
  | cons p rest ih =>
    unfold journalOfAddAll
    rw [accepted_append, accepted_add, ih]
    rfl

theorem accepted_set (g : Generator α) (setting : GeneratorSetting) (value : α) :
    accepted (g.journalOfSet setting value) = setting.asked value := by
  cases setting with
  | target => exact accepted_add g g.now value
  | _ => exact accepted_replan _

/-- Every power an action asks for is accepted, and no other. -/
theorem accepted_act (g : Generator α) (a : Action α) :
    accepted (g.journalOfAct a) = a.powers := by
  cases a with
  | start time =>
    show accepted (_ :: (g.dropTo time).journalOfReplan) = []
    rw [← List.singleton_append, accepted_append, accepted_replan]
    rfl
  | add time power => exact accepted_add g time power
  | addNow power => exact accepted_add g g.now power
  | addAll times powers => exact accepted_addAll g _
  | clear => rfl
  | advance time => exact accepted_advance g time
  | set setting value => exact accepted_set g setting value
  | setKey key value =>
    show accepted ((GeneratorSetting.ofKey? key).toOption.elim [] (g.journalOfSet · value)) =
      (GeneratorSetting.ofKey? key).toOption.elim [] (·.asked value)
    cases GeneratorSetting.ofKey? key with
    | error e => rfl
    | ok setting => exact accepted_set g setting value
  | receive message =>
    cases message with
    | clearTargets => rfl
    | addTargets times powers => exact accepted_addAll g _
    | updateTargets times powers =>
      show accepted (g.journalOfClear ++ g.clear.journalOfAddAll (times.zip powers)) = _
      rw [accepted_append, accepted_addAll]
      rfl
    | updateReserves | useReserve => exact accepted_replan _
    | _ => rfl
  | setText key value =>
    show accepted ((g.reword key value).elim [] journalOfReplan) = []
    cases g.reword key value with
    | none => rfl
    | some h => exact accepted_replan h
  | _ => exact accepted_replan _

theorem accepted_run (g : Generator α) (as : List (Action α)) :
    accepted (g.journal as) = as.flatMap Action.powers := by
  induction as generalizing g with
  | nil => rfl
  | cons a as ih =>
    unfold journal
    rw [accepted_append, accepted_act, ih]
    rfl

/-! ## When setpoints are counted and dropped -/

/-- What holds of `g` holds of `h`, and all entries are good, provided that all are admissible. -/
def Assures (I : Generator α → Prop) (A G : Entry α → Prop) (log : List (Entry α))
    (g h : Generator α) : Prop :=
  I g → (∀ e ∈ log, A e) → I h ∧ ∀ e ∈ log, G e

section Assures

variable {I : Generator α → Prop} {A G : Entry α → Prop} {g h k : Generator α}

omit [Quantity α] in
theorem Assures.of_nil (keep : I g → I h) : Assures I A G [] g h :=
  fun holds _ => ⟨keep holds, nofun⟩

omit [Quantity α] in
theorem Assures.append {l l' : List (Entry α)} (one : Assures I A G l g h)
    (two : Assures I A G l' h k) : Assures I A G (l ++ l') g k := by
  intro holds admissible
  obtain ⟨admits, admits'⟩ := List.forall_mem_append.mp admissible
  obtain ⟨between, good⟩ := one holds admits
  obtain ⟨after, good'⟩ := two between admits'
  exact ⟨after, List.forall_mem_append.mpr ⟨good, good'⟩⟩

omit [Quantity α] in
theorem Assures.of_singleton {e : Entry α} (step : I g → A e → I h ∧ G e) :
    Assures I A G [e] g h := by
  intro holds admissible
  obtain ⟨after, good⟩ := step holds (admissible e List.mem_cons_self)
  exact ⟨after, List.forall_mem_singleton.mpr good⟩

end Assures

variable [Ordered α]

/-- The clock shows a time, and no setpoint is taken as due before its time, as long as no start
is at an undefined time. -/
theorem timely_runRelation : RunRelation (fun time : α => isNaN time = false)
    (Assures (fun g => isNaN g.now = false) (fun _ => True) Entry.Timely) where
  below := fun _ _ => trivial
  nil g := .of_nil id
  append := Assures.append
  moveTo g time _ := by
    refine .of_nil ?_
    intro defined
    unfold Generator.moveTo
    dsimp only
    split
    next ahead => exact Ordered.defined_of_sub (Ordered.defined_of_lt ahead).2
    next => exact defined
  replan g := by
    intro defined _
    refine ⟨(congrArg isNaN (replan_samePlant g).now).trans defined, ?_⟩
    intro e he
    rcases mem_journalOfReplan he with rfl | ⟨q, rfl⟩
    · intro p hp time
      exact Ordered.le_of_not_lt defined time (Schedule.not_lt_of_mem_due hp)
    · trivial
  enqueue g p _ := .of_singleton fun defined _ => ⟨defined, trivial⟩
  dropTo g time dated := .of_singleton fun _ _ => ⟨dated, trivial⟩
  clear g := .of_singleton fun defined _ => ⟨defined, trivial⟩
  frame same := .of_nil fun defined => by rwa [same.now]

/-- The schedule is in order, and its times are times. -/
structure Timed (g : Generator α) : Prop where
  sorted : g.schedule.Sorted
  times : ∀ p ∈ g.schedule.setpoints, isNaN p.time = false

omit [Ordered α] in
theorem Timed.of_schedule {g h : Generator α} (timed : g.Timed)
    (same : h.schedule = g.schedule) : h.Timed := by
  refine ⟨?_, ?_⟩ <;> rw [same]
  · exact timed.sorted
  · exact timed.times

theorem Timed.insert {g h : Generator α} {p : Setpoint α} (timed : g.Timed)
    (time : isNaN p.time = false) (schedule : h.schedule = g.schedule.insert p) : h.Timed := by
  refine ⟨?_, ?_⟩ <;> rw [schedule]
  · exact timed.sorted.insert_defined timed.times time
  · intro q hq
    rcases Schedule.mem_insert.mp hq with rfl | hq
    · exact time
    · exact timed.times q hq

omit [Ordered α] in
theorem Timed.takeDue {g : Generator α} (timed : g.Timed) : g.takeDue.Timed := by
  refine ⟨timed.sorted.afterDue, ?_⟩
  intro q hq
  exact timed.times q (Schedule.mem_of_mem_afterDue hq)

/-- A schedule stays in order when the setpoint that the generator queues itself has a time. -/
theorem Timed.settle {g : Generator α} (timed : g.Timed) {wanted : α}
    (times : ∀ q, g.carried? wanted = some q → isNaN q.time = false) : (g.settle wanted).Timed := by
  have schedule := settle_schedule g wanted
  cases own : g.carried? wanted with
  | none =>
    rw [own] at schedule
    exact timed.of_schedule schedule
  | some q =>
    rw [own] at schedule
    exact timed.insert (times q own) schedule

/-- A start drops what is older, as long as every setpoint has a time. -/
theorem older_runRelation : RunRelation (fun _ : α => True)
    (Assures Timed Entry.Scheduled Entry.Older) where
  below := fun _ _ => trivial
  nil g := .of_nil id
  append := Assures.append
  moveTo g time _ := .of_nil fun timed => timed.of_schedule (moveTo_schedule g time)
  replan g := by
    intro timed admissible
    refine ⟨?_, ?_⟩
    · unfold journalOfReplan at admissible
      unfold Generator.replan
      cases last : (g.schedule.due g.now).getLast? with
      | none => exact timed.of_schedule rfl
      | some p =>
        rw [last] at admissible
        refine timed.takeDue.settle ?_
        intro q own
        exact admissible (.queued q)
          (List.mem_cons_of_mem _ (List.mem_map_of_mem (Option.mem_toList.mpr own)))
    · intro e he
      rcases mem_journalOfReplan he with rfl | ⟨q, rfl⟩ <;> trivial
  enqueue g p _ := .of_singleton fun timed time => ⟨timed.insert time rfl, trivial⟩
  dropTo g time _ := by
    refine .of_singleton ?_
    intro timed _
    refine ⟨⟨timed.sorted.dropBefore, ?_⟩, ?_⟩
    · intro q hq
      exact timed.times q (Schedule.mem_of_mem_dropBefore hq)
    · intro q hq
      exact timed.sorted.lt_of_mem_dropped hq
  clear g := .of_singleton fun _ _ => ⟨⟨List.Pairwise.nil, nofun⟩, trivial⟩
  frame same := .of_nil fun timed => timed.of_schedule same.schedule

/-! ## Every run -/

/-- Whatever is done to a generator, each setpoint that it accepted on command is still on its
schedule, was counted as consumed or was dropped, and none of them twice. If no start is at an
undefined time, none is counted before it is due. If every setpoint has a time, starts drop only
what is older. -/
theorem run_accounts (o : α) (as : List (Action α)) :
    let g := (idle o).run as
    let log := (idle o).journal as
    accepted log = as.flatMap Action.powers ∧
      commanded (gather Entry.entered log) = commanded g.schedule.setpoints +
        commanded (gather Entry.served log) + commanded (gather Entry.dropped log) ∧
      g.consumed = (commanded (gather Entry.served log)).card ∧
      ((∀ t, Action.start t ∈ as → isNaN t = false) → ∀ e ∈ log, e.Timely) ∧
      ((∀ e ∈ log, e.Scheduled) → ∀ e ∈ log, e.Older) := by
  intro g log
  have accounts : Accounts log (idle o) g := accounts_runRelation.run (idle o) fun _ _ => trivial
  refine ⟨accepted_run (idle o) as, ?_, ?_, ?_, ?_⟩
  · have empty : ((idle o).schedule.setpoints : Multiset (Setpoint α)) = 0 := rfl
    have whole := accounts.setpoints
    rw [empty, zero_add] at whole
    rw [whole, commanded_add, commanded_add]
  · have none : (idle o).consumed = 0 := rfl
    have counted := accounts.consumed
    rwa [none, zero_add] at counted
  · intro dated
    exact (timely_runRelation.run (idle o) dated Ordered.defined_zero fun _ _ => trivial).2
  · intro scheduled
    have timed : (idle o).Timed := ⟨List.Pairwise.nil, nofun⟩
    exact (older_runRelation.run (idle o) (fun _ _ => trivial) timed scheduled).2

/-- In doubles: setpoints that are dropped as outdated, counted at a start and by an advance, carried
on by the generator itself, and still queued. -/
theorem run_accounts_doubles :
    let as : List (Action Float) := [.setRampLimits 2 1, .add 1 7, .add 3 8, .start 3, .addNow 100,
      .advance 4, .receive (.addTargets [5, 90] [6, 9]), .advance 6]
    let g := (idle 10).run as
    let log := (idle 10).journal as
    commanded (gather Entry.entered log) = commanded g.schedule.setpoints +
        commanded (gather Entry.served log) + commanded (gather Entry.dropped log) ∧
      g.consumed = (commanded (gather Entry.served log)).card ∧ ∀ e ∈ log, e.Timely := by
  intro as
  obtain ⟨-, whole, counted, timely, -⟩ := run_accounts 10 as
  refine ⟨whole, counted, timely ?_⟩
  intro t ht
  have three : t = 3 := by simpa [as] using ht
  rw [three]
  rfl

/-- A start at an undefined time counts a setpoint whose time has not come. -/
theorem counted_at_undefined_time :
    let as : List (Action (Exact ℚ)) := [.add (.fin 10) (.fin 5), .start .nan]
    let g := (idle (.fin 0)).run as
    let p : Setpoint (Exact ℚ) := ⟨.fin 10, .fin 5, false⟩
    g.consumed = 1 ∧ .taken g.now [p] [] ∈ (idle (.fin 0)).journal as ∧ isNaN p.time = false ∧
      ¬ p.time ≤ g.now := by
  intro as g p
  have journal : (idle (.fin 0)).journal as =
      [.queued p, .outdated .nan [], .taken .nan [p] [], .queued ⟨.nan, .fin 5, true⟩] := by
    decide +kernel
  have now : g.now = .nan := by decide +kernel
  refine ⟨by decide +kernel, ?_, Exact.isNaN_fin 10, ?_⟩
  · rw [journal, now]
    exact List.mem_cons_of_mem _ (List.mem_cons_of_mem _ List.mem_cons_self)
  · rw [now]
    exact Exact.not_le_nan _

end Generator

end UnitDispatch
