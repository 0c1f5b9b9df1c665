import Mathlib.Data.List.Chain
import UnitDispatch.Proofs.Schedule

/-! # Schedules with undefined times

An undefined time compares with none, so a schedule that holds one is out of order, and bisection
need not find the place that a linear scan finds. It finds a cut all the same: the member in front
of it passes the test, the one behind it fails (`Ring.count_cut`). So neighbours with times are in
order whatever is queued and taken (`Chained`), and a schedule that has got rid of its undefined
times is sorted.
-/

namespace UnitDispatch

open Quantity

/-! ## Cuts -/

/-- A place in a list behind a member that passes a test, and in front of one that fails it. -/
structure Cut {β : Type} (test : β → Bool) (xs : List β) (place : Nat) : Prop where
  le : place ≤ xs.length
  front : ∀ n x, place = n + 1 → xs[n]? = some x → test x = true
  back : ∀ x, xs[place]? = some x → test x = false

section Cuts

variable {β : Type} {test : β → Bool} {xs : List β} {k place fuel : Nat}

/-- A cut behind a member that passes. -/
theorem Cut.of_drop (cut : Cut test (xs.drop k) place) {mid : β} (here : xs[k]? = some mid)
    (passes : test mid = true) : Cut test xs (k + place) := by
  have short : k < xs.length := (List.getElem?_eq_some_iff.mp here).1
  have le := cut.le
  rw [List.length_drop] at le
  refine ⟨by omega, ?_, ?_⟩
  · intro n x eq hx
    cases place with
    | zero =>
      have fails := cut.back mid (by rw [List.getElem?_drop]; exact here)
      rw [passes] at fails
      cases fails
    | succ m =>
      refine cut.front m x rfl ?_
      rw [List.getElem?_drop, show k + m = n by omega]
      exact hx
  · intro x hx
    exact cut.back x (by rwa [List.getElem?_drop])

/-- A cut in front of a member that fails. -/
theorem Cut.of_take (cut : Cut test (xs.take k) place)
    (fails : place = k → ∀ x, xs[k]? = some x → test x = false) : Cut test xs place := by
  have le := cut.le
  rw [List.length_take] at le
  refine ⟨by omega, ?_, ?_⟩
  · intro n x eq hx
    refine cut.front n x eq ?_
    rwa [List.getElem?_take_of_lt (by omega)]
  · intro x hx
    rcases (show place ≤ k by omega).lt_or_eq with short | rfl
    · exact cut.back x (by rwa [List.getElem?_take_of_lt short])
    · exact fails rfl x hx

theorem bisectWith_cut (len : xs.length ≤ fuel) : Cut test xs (bisectWith test fuel xs) := by
  induction fuel generalizing xs with
  | zero =>
    rw [List.length_eq_zero_iff.mp (Nat.le_zero.mp len)]
    exact ⟨Nat.le_refl _, nofun, nofun⟩
  | succ fuel ih =>
    match xs with
    | [] => exact ⟨Nat.le_refl _, nofun, nofun⟩
    | [x] =>
      by_cases passes : test x = true
      · rw [show bisectWith test (fuel + 1) [x] = 1 from if_pos passes]
        refine ⟨Nat.le_refl _, ?_, by simp⟩
        rintro n y eq hy
        obtain rfl : n = 0 := by omega
        simp only [List.getElem?_cons_zero, Option.some.injEq] at hy
        rwa [← hy]
      · rw [show bisectWith test (fuel + 1) [x] = 0 from if_neg passes]
        refine ⟨Nat.zero_le _, nofun, ?_⟩
        intro y hy
        simp only [List.getElem?_cons_zero, Option.some.injEq] at hy
        rw [← hy]
        exact Bool.eq_false_iff.mpr passes
    | x :: y :: zs =>
      simp only [bisectWith]
      generalize hxs : x :: y :: zs = xs at *
      have two : 2 ≤ xs.length := by simp [← hxs]
      split
      next cut =>
        have := congrArg List.length cut
        simp at this
        omega
      next mid rest cut =>
        have here : xs[xs.length / 2]? = some mid := by
          rw [← List.head?_drop, cut]
          rfl
        split
        next passes =>
          rw [← cut]
          exact (ih (by rw [List.length_drop]; omega)).of_drop here passes
        next fails =>
          have left : Cut test (xs.take (xs.length - xs.length / 2)) _ :=
            ih (by rw [List.length_take]; omega)
          refine left.of_take ?_
          intro all z hz
          -- the last one kept is the one looked at, unless that is the next one
          rcases Nat.even_or_odd' xs.length with ⟨m, even | odd⟩
          · rw [show xs.length - xs.length / 2 = xs.length / 2 by omega, here] at hz
            cases hz
            exact Bool.eq_false_iff.mpr fails
          · refine (fails (left.front (xs.length / 2) mid (by omega) ?_)).elim
            rwa [List.getElem?_take_of_lt (by omega)]

end Cuts

/-- A count in a ring is a cut in its members, whatever the test. -/
theorem Ring.count_cut {β : Type} (test : β → Bool) (r : Ring β) :
    Cut test r.members (r.count test) := by
  unfold Ring.count
  split
  next passes =>
    cases first : r.back.head? with
    | none =>
      rw [first] at passes
      cases passes
    | some mid =>
      rw [first] at passes
      have here : r.members[r.slots - r.start]? = some mid := by
        rwa [← List.head?_drop]
      have len : r.front.length = r.slots - r.start := by
        unfold front
        rw [List.length_take]
        exact Nat.min_eq_left (List.getElem?_eq_some_iff.mp here).1.le
      rw [len]
      exact (bisectWith_cut (Nat.le_refl _)).of_drop here passes
  next fails =>
    refine (bisectWith_cut (Nat.le_refl _)).of_take ?_
    intro _ x hx
    rw [← List.head?_drop] at hx
    unfold Ring.back at fails
    rw [hx] at fails
    exact Bool.eq_false_iff.mpr fails

namespace Schedule

variable {α : Type} [Quantity α] {s : Schedule α} {p : Setpoint α} {time now : α}

/-- Neighbours that have times are in order. -/
def Chained (s : Schedule α) : Prop :=
  s.setpoints.IsChain fun p q => isNaN p.time = false → isNaN q.time = false → p.time ≤ q.time

theorem chained_of_empty (empty : s.setpoints = []) : s.Chained := by
  unfold Chained
  rw [empty]
  exact .nil

theorem Chained.dropBefore (chained : s.Chained) : (s.dropBefore time).Chained := by
  unfold Chained
  rw [setpoints_dropBefore]
  exact List.IsChain.drop chained _

theorem Chained.afterDue (chained : s.Chained) : (s.afterDue now).Chained :=
  List.IsChain.suffix chained (List.dropWhile_suffix _)

variable [Ordered α]

/-- Whatever its time, a setpoint is queued between such as it may stand between. -/
theorem Chained.insert (chained : s.Chained) (p : Setpoint α) : (s.insert p).Chained := by
  have cut : Cut _ s.setpoints (s.countUpTo p.time) := Ring.count_cut _ s.ring
  unfold Chained
  rw [setpoints_insert, List.isChain_append, List.isChain_cons]
  refine ⟨List.IsChain.take chained _, ⟨?_, List.IsChain.drop chained _⟩, ?_⟩
  · intro q hq hp defined
    rw [Option.mem_def, List.head?_drop] at hq
    have later := cut.back q hq
    exact Ordered.le_of_not_le defined hp (of_decide_eq_false later)
  · intro q hq x hx defined _
    obtain rfl := Option.mem_some_iff.mp hx
    rw [Option.mem_def, List.getLast?_take] at hq
    split at hq
    · cases hq
    next some =>
      obtain ⟨n, place⟩ := Nat.exists_eq_succ_of_ne_zero some
      have le := cut.le
      rw [place, Nat.succ_sub_one, List.getElem?_eq_getElem (by omega), Option.some_or] at hq
      exact of_decide_eq_true (cut.front n q place (by rw [← hq]; exact List.getElem?_eq_getElem _))

/-- Without undefined times, that is a schedule in order. -/
theorem Chained.sorted (chained : s.Chained) (times : ∀ q ∈ s.setpoints, isNaN q.time = false) :
    s.Sorted := by
  let Before (p q : Setpoint α) : Prop := p.time ≤ q.time
  have : Trans Before Before Before := ⟨Ordered.le_trans⟩
  have inOrder : s.setpoints.IsChain Before := by
    refine List.IsChain.imp_of_mem_imp ?_ chained
    intro p q hp hq le
    exact le (times p hp) (times q hq)
  exact inOrder.pairwise

end Schedule

end UnitDispatch
