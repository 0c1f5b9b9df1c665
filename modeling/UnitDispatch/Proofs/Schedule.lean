import Mathlib.Data.List.TakeWhile
import UnitDispatch.Proofs.Order
import UnitDispatch.Schedule

/-! # Sorted schedules

A schedule whose setpoints stand in the order of their times. Bisection then finds the places that
a linear scan finds, so insertion and removal can be stated as `takeWhile` and `dropWhile`. What is
left after the due setpoints are taken lies ahead: `lt_of_mem_afterDue`.
-/

namespace UnitDispatch

open Quantity

namespace Schedule

/-- The setpoints stand in the order of their times. -/
def Sorted {α : Type} [Quantity α] (s : Schedule α) : Prop :=
  s.setpoints.Pairwise fun p q => p.time ≤ q.time

/-- Where a test parts a list in two, what is left after the leading members that pass it fails
it. -/
theorem not_of_mem_dropWhile {β : Type} {l : List β} {x : β} {test : β → Bool}
    (parted : l.Pairwise fun a b => test b = true → test a = true) (hx : x ∈ l.dropWhile test) :
    ¬ test x = true := by
  induction l with
  | nil => simp at hx
  | cons a l ih =>
    obtain ⟨first, rest⟩ := List.pairwise_cons.mp parted
    by_cases pass : test a = true
    · rw [List.dropWhile_cons_of_pos pass] at hx
      exact ih rest hx
    · rw [List.dropWhile_cons_of_neg pass] at hx
      rcases List.mem_cons.mp hx with rfl | hx
      · exact pass
      · exact fun hb => pass (first x hx hb)

theorem mem_of_first? {α : Type} {s : Schedule α} {p : Setpoint α} (h : s.first? = some p) :
    p ∈ s.setpoints :=
  List.mem_of_head? h

theorem first?_eq_none_iff {α : Type} {s : Schedule α} : s.first? = none ↔ s.setpoints = [] :=
  List.head?_eq_none_iff

variable {α : Type} [Quantity α] {s : Schedule α} {p q : Setpoint α} {time now : α}

/-! ## Members -/

theorem mem_insert : q ∈ (s.insert p).setpoints ↔ q = p ∨ q ∈ s.setpoints := by
  rw [(insert_perm s p).mem_iff, List.mem_cons]

theorem insert_nonempty (s : Schedule α) (p : Setpoint α) : (s.insert p).setpoints ≠ [] :=
  List.ne_nil_of_mem (mem_insert.mpr (.inl rfl))

theorem mem_of_mem_dropBefore (hq : q ∈ (s.dropBefore time).setpoints) : q ∈ s.setpoints := by
  rw [setpoints_dropBefore] at hq
  exact List.mem_of_mem_drop hq

theorem mem_of_mem_afterDue (hq : q ∈ (s.afterDue now).setpoints) : q ∈ s.setpoints :=
  List.dropWhile_subset _ hq

theorem mem_of_mem_due (hq : q ∈ s.due now) : q ∈ s.setpoints :=
  (List.takeWhile_sublist _).subset hq

theorem not_lt_of_mem_due (hq : q ∈ s.due now) : ¬ now < q.time := by
  simpa using List.mem_takeWhile_imp hq

theorem due_eq_nil (ahead : ∀ q ∈ s.setpoints, now < q.time) : s.due now = [] := by
  unfold due
  cases hs : s.setpoints with
  | nil => rfl
  | cons q rest =>
    have := ahead q (by rw [hs]; exact List.mem_cons_self)
    rw [List.takeWhile_cons_of_neg (by simpa using this)]

theorem due_of_cons {l : List (Setpoint α)} (hs : s.setpoints = p :: l) (due : ¬ now < p.time)
    (ahead : ∀ q ∈ l, now < q.time) : s.due now = [p] ∧ (s.afterDue now).setpoints = l := by
  have only : s.due now = [p] := by
    unfold Schedule.due
    rw [hs, List.takeWhile_cons_of_pos (by simpa using due)]
    cases l with
    | nil => rfl
    | cons q l => rw [List.takeWhile_cons_of_neg (by simpa using ahead q List.mem_cons_self)]
  refine ⟨only, ?_⟩
  have parts := due_append_afterDue s now
  rw [only, hs] at parts
  exact List.cons_injective parts

theorem size_afterDue (s : Schedule α) (now : α) :
    (s.afterDue now).size + (s.due now).length = s.size := by
  have := congrArg List.length (due_append_afterDue s now)
  rw [List.length_append] at this
  unfold size
  omega

theorem size_afterDue_lt (some : s.due now ≠ []) : (s.afterDue now).size < s.size := by
  have := size_afterDue s now
  have := List.length_pos_iff.mpr some
  omega

theorem Sorted.dropBefore (h : s.Sorted) : (s.dropBefore time).Sorted := by
  unfold Sorted
  rw [setpoints_dropBefore]
  exact h.sublist (List.drop_sublist _ _)

theorem Sorted.afterDue (h : s.Sorted) : (s.afterDue now).Sorted :=
  h.sublist (List.dropWhile_sublist _)

section Order

variable [Ordered α]

/-! ## Insertion -/

/-- A time parts a sorted schedule in two. -/
theorem Sorted.parted (h : s.Sorted) (time : α) :
    s.setpoints.Pairwise fun a b =>
      decide (b.time ≤ time) = true → decide (a.time ≤ time) = true := by
  refine List.Pairwise.imp ?_ h
  intro a b le hb
  exact decide_eq_true (Ordered.le_trans le (of_decide_eq_true hb))

theorem Sorted.countUpTo_eq (h : s.Sorted) :
    s.countUpTo time = (s.setpoints.takeWhile fun q => decide (q.time ≤ time)).length :=
  Ring.count_eq_takeWhile (h.parted time)

/-- A setpoint goes behind all that are due no later and before all others. -/
theorem Sorted.setpoints_insert_eq (h : s.Sorted) :
    (s.insert p).setpoints = s.setpoints.takeWhile (fun q => decide (q.time ≤ p.time)) ++
      p :: s.setpoints.dropWhile (fun q => decide (q.time ≤ p.time)) := by
  have parts := List.takeWhile_append_dropWhile (p := fun q => decide (q.time ≤ p.time))
    (l := s.setpoints)
  have front := congrArg (List.take (s.countUpTo p.time)) parts
  have back := congrArg (List.drop (s.countUpTo p.time)) parts
  rw [h.countUpTo_eq, List.take_left] at front
  rw [h.countUpTo_eq, List.drop_left] at back
  rw [setpoints_insert, h.countUpTo_eq, ← front, ← back]

theorem Sorted.insert_defined (h : s.Sorted) (times : ∀ q ∈ s.setpoints, isNaN q.time = false)
    (hp : isNaN p.time = false) : (s.insert p).Sorted := by
  have later : ∀ q ∈ s.setpoints.dropWhile (fun q => decide (q.time ≤ p.time)),
      p.time ≤ q.time := by
    intro q hq
    have fails := not_of_mem_dropWhile (h.parted p.time) hq
    exact Ordered.le_of_not_le (times q (List.dropWhile_subset _ hq)) hp (by simpa using fails)
  unfold Sorted
  rw [h.setpoints_insert_eq, List.pairwise_append, List.pairwise_cons]
  refine ⟨h.sublist (List.takeWhile_sublist _), ⟨later, h.sublist (List.dropWhile_sublist _)⟩, ?_⟩
  intro a ha b hb
  have before : a.time ≤ p.time := by simpa using List.mem_takeWhile_imp ha
  rcases List.mem_cons.mp hb with rfl | hb
  · exact before
  · exact Ordered.le_trans before (later b hb)

theorem Sorted.insert (h : s.Sorted) (times : ∀ q ∈ s.setpoints, isFinite q.time = true)
    (hp : isFinite p.time = true) : (s.insert p).Sorted := by
  refine h.insert_defined ?_ (Ordered.defined_of_isFinite hp)
  intro q hq
  exact Ordered.defined_of_isFinite (times q hq)

/-- A setpoint that is due no earlier than the first does not get before it. -/
theorem Sorted.first?_insert (h : s.Sorted) (first : s.first? = some q) (le : q.time ≤ p.time) :
    (s.insert p).first? = some q := by
  obtain ⟨rest, hs⟩ := List.head?_eq_some_iff.mp first
  unfold first?
  rw [h.setpoints_insert_eq, hs, List.takeWhile_cons_of_pos (by simpa using le)]
  rfl

/-! ## Removal -/

/-- What is left after the due setpoints are taken lies ahead. -/
theorem Sorted.lt_of_mem_afterDue (h : s.Sorted) (hq : q ∈ (s.afterDue now).setpoints) :
    now < q.time := by
  have closed : s.setpoints.Pairwise fun a b =>
      (!decide (now < b.time)) = true → (!decide (now < a.time)) = true := by
    refine List.Pairwise.imp ?_ h
    intro a b le hb
    simp only [Bool.not_eq_true', decide_eq_false_iff_not] at hb ⊢
    exact fun ha => hb (Ordered.lt_of_lt_of_le ha le)
  simpa using not_of_mem_dropWhile closed hq

theorem Sorted.parted_before (h : s.Sorted) (time : α) :
    s.setpoints.Pairwise fun a b =>
      decide (b.time < time) = true → decide (a.time < time) = true := by
  refine List.Pairwise.imp ?_ h
  intro a b le hb
  exact decide_eq_true (Ordered.lt_of_le_of_lt le (of_decide_eq_true hb))

theorem Sorted.countBefore_eq (h : s.Sorted) :
    s.countBefore time = (s.setpoints.takeWhile fun q => decide (q.time < time)).length :=
  Ring.count_eq_takeWhile (h.parted_before time)

/-- Only setpoints due strictly before a time are dropped at it. -/
theorem Sorted.lt_of_mem_dropped (h : s.Sorted)
    (hq : q ∈ s.setpoints.take (s.countBefore time)) : q.time < time := by
  have parts := List.takeWhile_append_dropWhile (p := fun q => decide (q.time < time))
    (l := s.setpoints)
  have front := congrArg (List.take (s.countBefore time)) parts
  rw [h.countBefore_eq, List.take_left] at front
  rw [h.countBefore_eq, ← front] at hq
  simpa using List.mem_takeWhile_imp hq

/-- All setpoints due strictly before a time are dropped at it, and no others. -/
theorem Sorted.setpoints_dropBefore_eq (h : s.Sorted) :
    (s.dropBefore time).setpoints = s.setpoints.filter fun q => !decide (q.time < time) := by
  have parts := List.takeWhile_append_dropWhile (p := fun q => decide (q.time < time))
    (l := s.setpoints)
  have back := congrArg (List.drop (s.countBefore time)) parts
  rw [h.countBefore_eq, List.drop_left] at back
  have dropped := congrArg (List.filter fun q => !decide (q.time < time)) parts
  rw [List.filter_append, List.filter_eq_nil_iff.mpr, List.filter_eq_self.mpr,
    List.nil_append] at dropped
  · rw [setpoints_dropBefore, h.countBefore_eq, ← back, dropped]
  · intro q hq
    simpa using not_of_mem_dropWhile (h.parted_before time) hq
  · intro q hq
    simpa using List.mem_takeWhile_imp hq

/-- The setpoint due first is due no later than any other. -/
theorem Sorted.first?_le (h : s.Sorted) (hp : s.first? = some p) (hf : isFinite p.time = true)
    (hq : q ∈ s.setpoints) : p.time ≤ q.time := by
  obtain ⟨rest, hs⟩ := List.head?_eq_some_iff.mp hp
  unfold Sorted at h
  rw [hs] at h hq
  rcases List.mem_cons.mp hq with rfl | hq
  · exact Ordered.le_refl (Ordered.defined_of_isFinite hf)
  · exact (List.pairwise_cons.mp h).1 q hq

end Order

/-- When a setpoint falls due, it is the last of those due if it came last. -/
theorem Sorted.due_insert {K : Type} [Field K] [LinearOrder K] {s : Schedule (Exact K)}
    {p : Setpoint (Exact K)} (h : s.Sorted) (times : ∀ q ∈ s.setpoints, isFinite q.time = true)
    (hp : isFinite p.time = true) : ((s.insert p).due p.time).getLast? = some p := by
  obtain ⟨t, ht⟩ := Exact.isFinite_iff.mp hp
  have passed : ∀ q ∈ s.setpoints.takeWhile (fun q => decide (q.time ≤ p.time)),
      (!decide (p.time < q.time)) = true := by
    intro q hq
    have le : q.time ≤ p.time := by simpa using List.mem_takeWhile_imp hq
    have early : ¬ p.time < q.time := by
      intro lt
      exact Exact.not_le_of_lt lt le
    simpa using early
  have later : ∀ q ∈ s.setpoints.dropWhile (fun q => decide (q.time ≤ p.time)),
      ¬ (!decide (p.time < q.time)) = true := by
    intro q hq
    obtain ⟨u, hu⟩ := Exact.isFinite_iff.mp (times q (List.dropWhile_subset _ hq))
    have fails := not_of_mem_dropWhile (h.parted p.time) hq
    simp only [ht, hu, Exact.fin_le, Exact.fin_lt, decide_eq_true_eq, not_le] at fails ⊢
    simpa using fails
  have rest : (s.setpoints.dropWhile (fun q => decide (q.time ≤ p.time))).takeWhile
      (fun q => !decide (p.time < q.time)) = [] := by
    rw [List.takeWhile_eq_nil_iff]
    intro pos
    exact later _ (List.getElem_mem pos)
  unfold due
  rw [h.setpoints_insert_eq, List.takeWhile_append_of_pos passed,
    List.takeWhile_cons_of_pos (by simp [ht]), rest]
  exact List.getLast?_concat

end Schedule

end UnitDispatch
