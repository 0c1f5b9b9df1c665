import UnitDispatch.Proofs.Monotone
import UnitDispatch.Proofs.Schedule

/-! # Schedules as stable queues

What a schedule holds, said without its ring. A backlog is the plain list of what came and has not
been taken, in the order in which it came; it is searched from one end to the other. A schedule
asked for the same things gives the same answers and holds the same setpoints, in the order of their
times and, at one time, in the order in which they came: `answerAll_stable`.
-/

namespace UnitDispatch

open Quantity

/-- A setpoint that came, numbered by those that came before it. -/
structure Arrival (α : Type) extends Setpoint α where
  number : Nat
  deriving Repr

/-- What came and has not been taken, in the order in which it came. -/
structure Backlog (α : Type) where
  waiting : List (Arrival α) := []
  /-- How many have come. -/
  came : Nat := 0
  deriving Repr

/-- What a queue of setpoints can be asked for. -/
inductive Request (α : Type) where
  | insert (p : Setpoint α)
  | removeFirst
  | dropBefore (time : α)
  | clear
  deriving Repr

/-- What a queue of setpoints answers. -/
inductive Reply (α : Type) where
  | done
  | removed (first : Option (Setpoint α))
  | dropped (count : Nat)
  deriving Repr

/-- Carries out requests one after another. -/
def answerAll {σ α : Type} (answer : σ → Request α → Reply α × σ) (s : σ) :
    List (Request α) → List (Reply α) × σ
  | [] => ([], s)
  | r :: rest =>
    let (reply, s) := answer s r
    let (replies, s) := answerAll answer s rest
    (reply :: replies, s)

variable {α : Type} [Quantity α]

/-- Whether a request queues nothing at an undefined time. -/
def Request.isDefined : Request α → Bool
  | .insert p => !isNaN p.time
  | _ => true

/-- Carries out a request on a schedule. -/
def Schedule.answer (s : Schedule α) : Request α → Reply α × Schedule α
  | .insert p => (.done, s.insert p)
  | .removeFirst => (.removed s.first?, s.removeFirst)
  | .dropBefore time => (.dropped (s.countBefore time), s.dropBefore time)
  | .clear => (.done, s.clear)

namespace Arrival

/-- The order of a stable queue: by time, and at one time by arrival. -/
def Precedes (a b : Arrival α) : Prop := a.time < b.time ∨ (a.time == b.time) ∧ a.number < b.number

/-- Whether nothing in a list is due earlier. -/
def earliestOf (l : List (Arrival α)) (a : Arrival α) : Bool :=
  l.all fun b => decide (a.time ≤ b.time)

end Arrival

open Arrival

/-- Carries out a request on a backlog. Of the earliest, the one that came first is taken. -/
def Backlog.answer (b : Backlog α) : Request α → Reply α × Backlog α
  | .insert p => (.done, ⟨b.waiting ++ [{ p with number := b.came }], b.came + 1⟩)
  | .removeFirst =>
    let earliest := earliestOf b.waiting
    (.removed ((b.waiting.find? earliest).map (·.toSetpoint)),
      { b with waiting := b.waiting.eraseP earliest })
  | .dropBefore time =>
    (.dropped (b.waiting.countP fun a => decide (a.time < time)),
      { b with waiting := b.waiting.filter fun a => !decide (a.time < time) })
  | .clear => (.done, { b with waiting := [] })

namespace Backlog

/-- The arrivals are numbered as they came, and none has an undefined time. -/
structure Numbered (b : Backlog α) : Prop where
  ascending : b.waiting.Pairwise fun x y => x.number < y.number
  below : ∀ a ∈ b.waiting, a.number < b.came
  defined : ∀ a ∈ b.waiting, isNaN a.time = false

/-- Arrivals stay numbered as they came. -/
theorem Numbered.answer {b : Backlog α} (h : b.Numbered) {r : Request α}
    (defined : r.isDefined = true) : (b.answer r).2.Numbered := by
  have kept {left : List (Arrival α)} (sub : left.Sublist b.waiting) :
      ({ b with waiting := left } : Backlog α).Numbered :=
    ⟨h.ascending.sublist sub, fun a ha => h.below a (sub.subset ha),
      fun a ha => h.defined a (sub.subset ha)⟩
  cases r with
  | insert p =>
    refine ⟨?_, ?_, ?_⟩
    · refine List.pairwise_append.mpr ⟨h.ascending, List.pairwise_singleton _ _, ?_⟩
      intro x hx y hy
      rw [List.mem_singleton.mp hy]
      exact h.below x hx
    · intro x hx
      rcases List.mem_append.mp hx with hx | hx
      · exact Nat.lt_succ_of_lt (h.below x hx)
      · rw [List.mem_singleton.mp hx]
        exact Nat.lt_succ_self b.came
    · intro x hx
      rcases List.mem_append.mp hx with hx | hx
      · exact h.defined x hx
      · rw [List.mem_singleton.mp hx]
        simpa [Request.isDefined] using defined
  | removeFirst => exact kept List.eraseP_sublist
  | dropBefore time => exact kept List.filter_sublist
  | clear => exact kept (List.nil_sublist _)

end Backlog

namespace Schedule

/-- A schedule holds a backlog, in an order. -/
structure Holds (s : Schedule α) (b : Backlog α) (order : List (Arrival α)) : Prop where
  all : order.Perm b.waiting
  ordered : order.Pairwise Precedes
  shown : s.setpoints = order.map (·.toSetpoint)

/-- A search by bisection finds the place that a linear scan finds. -/
structure Scans (s : Schedule α) (time : α) : Prop where
  upTo : s.countUpTo time = (s.setpoints.takeWhile fun p => decide (p.time ≤ time)).length
  before : s.countBefore time = (s.setpoints.takeWhile fun p => decide (p.time < time)).length

section Steps

variable [Rounded α] {s : Schedule α} {b : Backlog α} {order : List (Arrival α)}

theorem le_of_precedes {x y : Arrival α} (h : Precedes x y) : x.time ≤ y.time := by
  rcases h with lt | ⟨same, -⟩
  · exact Ordered.le_of_lt lt
  · exact (Rounded.beq_iff.mp same).1

theorem Holds.sorted (h : s.Holds b order) : s.Sorted := by
  unfold Sorted
  rw [h.shown, List.pairwise_map]
  exact h.ordered.imp le_of_precedes

theorem Holds.scans (h : s.Holds b order) (time : α) : s.Scans time :=
  ⟨h.sorted.countUpTo_eq, h.sorted.countBefore_eq⟩

/-! ## What each request does -/

/-- An arrival takes its place behind all that are due no later, which came before it. -/
theorem Holds.insert (h : s.Holds b order) (numbered : b.Numbered) {p : Setpoint α}
    (hp : isNaN p.time = false) :
    ∃ order', (s.insert p).Holds (b.answer (.insert p)).2 order' := by
  let a : Arrival α := { p with number := b.came }
  let early (x : Arrival α) : Bool := decide (x.time ≤ p.time)
  have parts : order.takeWhile early ++ order.dropWhile early = order :=
    List.takeWhile_append_dropWhile
  have parted : order.Pairwise fun x y => early y = true → early x = true := by
    refine h.ordered.imp ?_
    intro x y precedes hy
    exact decide_eq_true (Ordered.le_trans (le_of_precedes precedes) (of_decide_eq_true hy))
  have waits {x : Arrival α} (hx : x ∈ order) : x ∈ b.waiting := h.all.mem_iff.mp hx
  -- What is due with it has come before it, since its number is the highest so far.
  have front : ∀ x ∈ order.takeWhile early, Precedes x a := by
    intro x hx
    have le : x.time ≤ p.time := of_decide_eq_true (List.mem_takeWhile_imp (p := early) hx)
    have here := waits ((List.takeWhile_sublist _).subset hx)
    by_cases lt : x.time < p.time
    · exact .inl lt
    · have ge := Ordered.le_of_not_lt (numbered.defined x here) hp lt
      exact .inr ⟨Rounded.beq_iff.mpr ⟨le, ge⟩, numbered.below x here⟩
  -- What is not due by then is due later: no time is undefined.
  have back : ∀ x ∈ order.dropWhile early, Precedes a x := by
    intro x hx
    have late : ¬ x.time ≤ p.time := by simpa [early] using not_of_mem_dropWhile parted hx
    have here := waits ((List.dropWhile_sublist _).subset hx)
    refine .inl ?_
    by_contra lt
    exact late (Ordered.le_of_not_lt hp (numbered.defined x here) lt)
  have ordered := h.ordered
  rw [← parts, List.pairwise_append] at ordered
  refine ⟨order.takeWhile early ++ a :: order.dropWhile early, ?_, ?_, ?_⟩
  · have moved : (order.takeWhile early ++ a :: order.dropWhile early).Perm (a :: order) := by
      have := @List.perm_middle _ a (order.takeWhile early) (order.dropWhile early)
      rwa [parts] at this
    exact moved.trans ((h.all.cons a).trans (List.perm_append_singleton a b.waiting).symm)
  · rw [List.pairwise_append, List.pairwise_cons]
    refine ⟨ordered.1, ⟨back, ordered.2.1⟩, ?_⟩
    intro x hx y hy
    rcases List.mem_cons.mp hy with rfl | hy
    · exact front x hx
    · exact ordered.2.2 x hx y hy
  · rw [h.sorted.setpoints_insert_eq, h.shown, List.takeWhile_map, List.dropWhile_map,
      List.map_append, List.map_cons]
    rfl

/-- The first in order is the one that a search through the arrivals finds, since it is due no
later than any other and came before those due with it. -/
theorem Holds.find_first {a : Arrival α} {rest : List (Arrival α)}
    (h : s.Holds b (a :: rest)) (numbered : b.Numbered) :
    ∃ before after, b.waiting = before ++ a :: after ∧
      (∀ x ∈ before, ¬ earliestOf b.waiting x = true) ∧ earliestOf b.waiting a = true := by
  obtain ⟨first, -⟩ := List.pairwise_cons.mp h.ordered
  have here : a ∈ b.waiting := h.all.mem_iff.mp List.mem_cons_self
  have earliest : earliestOf b.waiting a = true := by
    refine List.all_eq_true.mpr fun x hx => decide_eq_true ?_
    rcases List.mem_cons.mp (h.all.mem_iff.mpr hx) with rfl | hx
    · exact Ordered.le_refl (numbered.defined x here)
    · exact le_of_precedes (first x hx)
  obtain ⟨before, after, split⟩ := List.append_of_mem here
  refine ⟨before, after, split, ?_, earliest⟩
  intro x hx found
  have le : x.time ≤ a.time := of_decide_eq_true (List.all_eq_true.mp found a here)
  have ascending := numbered.ascending
  rw [split, List.pairwise_append] at ascending
  have sooner := ascending.2.2 x hx a List.mem_cons_self
  have waits : x ∈ b.waiting := split ▸ List.mem_append_left _ hx
  rcases List.mem_cons.mp (h.all.mem_iff.mpr waits) with rfl | hx
  · exact Nat.lt_irrefl _ sooner
  · rcases first x hx with lt | ⟨-, later⟩
    · exact Rounded.not_lt_of_le le lt
    · omega

theorem Holds.removeFirst (h : s.Holds b order) (numbered : b.Numbered) :
    (s.answer .removeFirst).1 = (b.answer .removeFirst).1 ∧
      ∃ order', s.removeFirst.Holds (b.answer .removeFirst).2 order' := by
  cases order with
  | nil =>
    have none : b.waiting = [] := h.all.nil_eq.symm
    refine ⟨?_, [], ?_, List.Pairwise.nil, ?_⟩
    · simp [answer, Backlog.answer, first?, h.shown, none]
    · simp [Backlog.answer, none]
    · rw [setpoints_removeFirst, h.shown]
      rfl
  | cons a rest =>
    obtain ⟨before, after, split, others, earliest⟩ := h.find_first numbered
    have found : b.waiting.find? (earliestOf b.waiting) = some a := by
      refine List.find?_eq_some_iff_append.mpr ⟨earliest, before, after, split, ?_⟩
      intro x hx
      simpa using others x hx
    have left : b.waiting.eraseP (earliestOf b.waiting) = before ++ after := by
      generalize earliestOf b.waiting = test at others earliest
      rw [split, List.eraseP_append_right _ others, List.eraseP_cons_of_pos earliest]
    refine ⟨?_, rest, ?_, (List.pairwise_cons.mp h.ordered).2, ?_⟩
    · simp [answer, Backlog.answer, first?, h.shown, found]
    · show rest.Perm (b.waiting.eraseP (earliestOf b.waiting))
      rw [left]
      have all := h.all
      rw [split] at all
      exact (all.trans List.perm_middle).cons_inv
    · rw [setpoints_removeFirst, h.shown]
      rfl

theorem Holds.dropBefore (h : s.Holds b order) (time : α) :
    (s.answer (.dropBefore time)).1 = (b.answer (.dropBefore time)).1 ∧
      (s.dropBefore time).Holds (b.answer (.dropBefore time)).2
        (order.filter fun a => !decide (a.time < time)) := by
  have left : (s.dropBefore time).setpoints =
      (order.filter fun a => !decide (a.time < time)).map (·.toSetpoint) := by
    rw [h.sorted.setpoints_dropBefore_eq, h.shown, List.filter_map]
    rfl
  refine ⟨?_, h.all.filter _, h.ordered.sublist List.filter_sublist, left⟩
  -- What was dropped is what the schedule has lost.
  have few : s.countBefore time ≤ s.size := by
    rw [(h.scans time).before]
    exact (List.takeWhile_sublist _).length_le
  have lost := size_dropBefore s time
  have counted := List.length_eq_countP_add_countP (fun a => decide (a.time < time)) (l := order)
  simp only [size, left, h.shown, List.length_map] at few lost
  rw [← List.countP_eq_length_filter] at lost
  simp only [decide_not, Bool.decide_eq_true] at counted
  show Reply.dropped _ = Reply.dropped _
  rw [← h.all.countP_eq]
  congr 1
  omega

omit [Rounded α] in
theorem holds_clear (s : Schedule α) (b : Backlog α) : s.clear.Holds (b.answer .clear).2 [] :=
  ⟨.refl _, .nil, rfl⟩

/-- A schedule and the backlog it holds answer alike, and it goes on holding it. -/
theorem Holds.answer (h : s.Holds b order) (numbered : b.Numbered) {r : Request α}
    (defined : r.isDefined = true) :
    (s.answer r).1 = (b.answer r).1 ∧ ∃ order', (s.answer r).2.Holds (b.answer r).2 order' := by
  cases r with
  | insert p => exact ⟨rfl, h.insert numbered (by simpa [Request.isDefined] using defined)⟩
  | removeFirst => exact h.removeFirst numbered
  | dropBefore time => exact ⟨(h.dropBefore time).1, _, (h.dropBefore time).2⟩
  | clear => exact ⟨rfl, [], holds_clear s b⟩

theorem Holds.answerAll (h : s.Holds b order) (numbered : b.Numbered) {rs : List (Request α)}
    (defined : ∀ r ∈ rs, r.isDefined = true) :
    (answerAll Schedule.answer s rs).1 = (answerAll Backlog.answer b rs).1 ∧ ∃ order',
      (answerAll Schedule.answer s rs).2.Holds (answerAll Backlog.answer b rs).2 order' := by
  induction rs generalizing s b order with
  | nil => exact ⟨rfl, order, h⟩
  | cons r rest ih =>
    obtain ⟨first, defined⟩ := List.forall_mem_cons.mp defined
    obtain ⟨same, order', next⟩ := h.answer numbered first
    obtain ⟨replies, last⟩ := ih next (numbered.answer first) defined
    exact ⟨congrArg₂ List.cons same replies, last⟩

end Steps

/-- A schedule is a stable queue: whatever it is asked for, as long as no undefined time is queued,
it answers as the backlog of what came does and holds what waits there, by time and then by arrival.
Bisection finds the place of a linear scan in it, whatever time is looked for. -/
theorem answerAll_stable [Rounded α] (rs : List (Request α))
    (defined : ∀ r ∈ rs, r.isDefined = true) :
    let (replies, s) := answerAll Schedule.answer {} rs
    let (expected, b) := answerAll Backlog.answer {} rs
    replies = expected ∧ (∃ order, s.Holds b order) ∧ ∀ time, s.Scans time := by
  have empty : Holds ({} : Schedule α) {} [] := ⟨.refl _, .nil, rfl⟩
  have none : ({} : Backlog α).Numbered := ⟨.nil, nofun, nofun⟩
  obtain ⟨replies, order, held⟩ := empty.answerAll none defined
  exact ⟨replies, ⟨order, held⟩, held.scans⟩

/-- Both zeros and both infinities, setpoints of the generator's own among them, and searches for
a zero and for no time at all. -/
theorem answerAll_stable_zeros :
    let inf : Float := 1 / 0
    let rs : List (Request Float) := [.insert ⟨0.0, 1, false⟩, .insert ⟨inf, 2, false⟩,
      .insert ⟨-0.0, 3, true⟩, .insert ⟨-inf, 4, false⟩, .insert ⟨0.0, 5, true⟩,
      .dropBefore (0 / 0), .dropBefore 0.0, .removeFirst, .insert ⟨-0.0, 6, false⟩, .removeFirst]
    let (replies, s) := answerAll Schedule.answer {} rs
    let (expected, b) := answerAll Backlog.answer {} rs
    replies = expected ∧ (∃ order, s.Holds b order) ∧ ∀ time, s.Scans time := by
  intro inf rs
  exact answerAll_stable rs (by decide +kernel)

end Schedule

end UnitDispatch
