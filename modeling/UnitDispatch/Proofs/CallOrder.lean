import UnitDispatch.Proofs.Schedule
import UnitDispatch.Proofs.Separation
import UnitDispatch.Simulation

/-! # The order of calls on the reserve

Calls are put in the order of their times before a simulation takes its first step. The order is
total, a negative zero being earlier than a positive one and an undefined time at one end or the
other, and the sort is stable: `Simulation.inOrder_arranged`.
-/

namespace UnitDispatch

open Quantity

/-! ## Times -/

namespace Quantity

variable {α : Type} [Quantity α]

/-- A time comes no later than another, where a negative zero is earlier than a positive one: the
signs of zeros show in their inverses. -/
def NoLater (a b : α) : Prop := a < b ∨ (a == b) = true ∧ ¬ 1 / b < 1 / a

instance (a b : α) : Decidable (NoLater a b) := inferInstanceAs (Decidable (_ ∨ _ ∧ _))

/-- Neither of two times is later. -/
def atOnce (a b : α) : Bool := decide (NoLater a b) && decide (NoLater b a)

variable [Separated α] {a b c : α}

theorem NoLater.defined (noLater : NoLater a b) : isNaN a = false ∧ isNaN b = false := by
  rcases noLater with lt | ⟨eq, -⟩
  · exact Ordered.defined_of_lt lt
  · exact Signed.defined_of_le (Rounded.beq_iff.mp eq).1

theorem NoLater.le (noLater : NoLater a b) : a ≤ b := by
  rcases noLater with lt | ⟨eq, -⟩
  · exact Ordered.le_of_lt lt
  · exact (Rounded.beq_iff.mp eq).1

theorem NoLater.trans (first : NoLater a b) (second : NoLater b c) : NoLater a c := by
  rcases first with lt | ⟨eq, sign⟩
  · exact .inl (Ordered.lt_of_lt_of_le lt second.le)
  · have defined := (NoLater.defined (.inr ⟨eq, sign⟩)).1
    obtain ⟨defined', defined''⟩ := second.defined
    obtain ⟨le, ge⟩ := Rounded.beq_iff.mp eq
    rcases second with lt' | ⟨eq', sign'⟩
    · exact .inl (Ordered.lt_of_le_of_lt le lt')
    · obtain ⟨le', ge'⟩ := Rounded.beq_iff.mp eq'
      refine .inr ⟨Rounded.beq_iff.mpr ⟨Ordered.le_trans le le', Ordered.le_trans ge' ge⟩, ?_⟩
      have inverse := Ordered.le_of_not_lt (Separated.inverse_defined defined')
        (Separated.inverse_defined defined) sign
      have inverse' := Ordered.le_of_not_lt (Separated.inverse_defined defined'')
        (Separated.inverse_defined defined') sign'
      exact Rounded.not_lt_of_le (Ordered.le_trans inverse inverse')

theorem noLater_total (ha : isNaN a = false) (hb : isNaN b = false) :
    NoLater a b ∨ NoLater b a := by
  by_cases lt : a < b
  · exact .inl (.inl lt)
  by_cases gt : b < a
  · exact .inr (.inl gt)
  have le := Ordered.le_of_not_lt hb ha gt
  have ge := Ordered.le_of_not_lt ha hb lt
  by_cases sign : 1 / b < 1 / a
  · refine .inr (.inr ⟨Rounded.beq_iff.mpr ⟨ge, le⟩, ?_⟩)
    exact Rounded.not_lt_of_le (Ordered.le_of_lt sign)
  · exact .inl (.inr ⟨Rounded.beq_iff.mpr ⟨le, ge⟩, sign⟩)

end Quantity

/-! ## Lists parted by a test -/

/-- Where a test parts a list in two, its leading members that pass the test are all that do, and
the others all that do not. -/
theorem parted_by {β : Type} {l : List β} {test : β → Bool}
    (parted : l.Pairwise fun a b => test b = true → test a = true) :
    l.takeWhile test = l.filter test ∧ l.dropWhile test = l.filter (!test ·) := by
  have passed : (l.takeWhile test).filter test = l.takeWhile test :=
    List.filter_eq_self.mpr fun x hx => List.mem_takeWhile_imp hx
  have failed : (l.dropWhile test).filter test = [] :=
    List.filter_eq_nil_iff.mpr fun x hx => Schedule.not_of_mem_dropWhile parted hx
  have passed' : (l.takeWhile test).filter (!test ·) = [] :=
    List.filter_eq_nil_iff.mpr fun x hx => by simp [List.mem_takeWhile_imp hx]
  have failed' : (l.dropWhile test).filter (!test ·) = l.dropWhile test :=
    List.filter_eq_self.mpr fun x hx => by
      simpa using Schedule.not_of_mem_dropWhile parted hx
  have whole (p : β → Bool) : l.filter p =
      (l.takeWhile test).filter p ++ (l.dropWhile test).filter p := by
    rw [← List.filter_append, List.takeWhile_append_dropWhile]
  rw [whole test, whole (!test ·), passed, failed, passed', failed', List.append_nil,
    List.nil_append]
  exact ⟨rfl, rfl⟩

/-! ## Calls -/

namespace Simulation

variable {α : Type} [Quantity α] [Separated α] {a b : ReserveCall α}
  {calls : List (ReserveCall α)}

omit [Separated α] in
theorem mayPrecede_iff (ha : isNaN a.time = false) (hb : isNaN b.time = false) :
    mayPrecede a b = true ↔ NoLater a.time b.time := by
  simp [mayPrecede, NoLater, ha, hb]

/-- An undefined time stands at the end it belongs to. -/
theorem mayPrecede_trans (a b c : ReserveCall α) (first : mayPrecede a b = true)
    (second : mayPrecede b c = true) : mayPrecede a c = true := by
  cases ha : isNaN a.time <;> cases hb : isNaN b.time <;> cases hc : isNaN c.time
  case false.false.false =>
    rw [mayPrecede_iff ha hb] at first
    rw [mayPrecede_iff hb hc] at second
    exact (mayPrecede_iff ha hc).mpr (first.trans second)
  all_goals
    unfold mayPrecede at first second ⊢
    simp only [ha, hb, hc] at first second ⊢
    grind

theorem mayPrecede_total (a b : ReserveCall α) : mayPrecede a b || mayPrecede b a := by
  cases ha : isNaN a.time <;> cases hb : isNaN b.time
  case false.false =>
    rw [Bool.or_eq_true, mayPrecede_iff ha hb, mayPrecede_iff hb ha]
    exact noLater_total ha hb
  all_goals
    unfold mayPrecede
    simp only [ha, hb]
    grind

/-- Calls in another order: the same calls, in the order of their times, those with one time in the
order given. -/
structure Arranged (calls order : List (ReserveCall α)) : Prop where
  perm : order.Perm calls
  ascending : order.Pairwise fun a b => NoLater a.time b.time
  stable : ∀ time : α, order.filter (fun c => atOnce time c.time) =
    calls.filter fun c => atOnce time c.time

theorem inOrder_pairwise (calls : List (ReserveCall α)) :
    (inOrder calls).Pairwise fun a b => mayPrecede a b = true :=
  List.pairwise_mergeSort mayPrecede_trans mayPrecede_total calls

omit [Separated α] in
theorem inOrder_perm (calls : List (ReserveCall α)) : (inOrder calls).Perm calls :=
  List.mergeSort_perm calls mayPrecede

/-- Calls at one time stay in the order given. -/
theorem filter_inOrder (defined : ∀ c ∈ calls, isNaN c.time = false) (time : α) :
    (inOrder calls).filter (fun c => atOnce time c.time) =
      calls.filter fun c => atOnce time c.time := by
  have together : (calls.filter fun c => atOnce time c.time).Pairwise
      fun a b => mayPrecede a b = true := by
    refine List.pairwise_of_forall_mem_list fun a ha b hb => ?_
    obtain ⟨inA, nowA⟩ := List.mem_filter.mp ha
    obtain ⟨inB, nowB⟩ := List.mem_filter.mp hb
    simp only [atOnce, Bool.and_eq_true, decide_eq_true_iff] at nowA nowB
    exact (mayPrecede_iff (defined a inA) (defined b inB)).mpr (nowA.2.trans nowB.1)
  have kept : (calls.filter fun c => atOnce time c.time).Sublist (inOrder calls) :=
    List.sublist_mergeSort mayPrecede_trans mayPrecede_total together List.filter_sublist
  have within := kept.filter fun c => atOnce time c.time
  simp only [List.filter_filter, Bool.and_self] at within
  exact (within.eq_of_length ((inOrder_perm calls).filter _).length_eq.symm).symm

/-- Calls at defined times are put in order. -/
theorem inOrder_arranged (defined : ∀ c ∈ calls, isNaN c.time = false) :
    Arranged calls (inOrder calls) := by
  refine ⟨inOrder_perm calls, ?_, filter_inOrder defined⟩
  refine (inOrder_pairwise calls).imp_of_mem fun {a b} ha hb precedes => ?_
  have givenA := defined a ((inOrder_perm calls).mem_iff.mp ha)
  have givenB := defined b ((inOrder_perm calls).mem_iff.mp hb)
  exact (mayPrecede_iff givenA givenB).mp precedes

end Simulation

end UnitDispatch
