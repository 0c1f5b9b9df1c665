import UnitDispatch.Bisection

/-! # Rings

A ring holds its members in a row of slots that closes on itself: the first member stands in the
slot `start`, and behind the last slot of the row comes the first. The end of the row so parts the
members into two runs, and a search bisects one of them. `count_eq_takeWhile` says that it finds
what a linear scan of all members finds, wherever the test parts the members in two; of other
members the count depends on where the row ends.
-/

namespace UnitDispatch

/-- Members in a closed row of slots. -/
structure Ring (β : Type) where
  members : List β := []
  /-- How many slots the row has. -/
  slots : Nat := 0
  /-- The slot of the first member. -/
  start : Nat := 0
  deriving Repr

namespace Ring

variable {β : Type}

def size (r : Ring β) : Nat := r.members.length

/-- The members up to the end of the row. -/
def front (r : Ring β) : List β := r.members.take (r.slots - r.start)

/-- The members that come round to the beginning of the row. -/
def back (r : Ring β) : List β := r.members.drop (r.slots - r.start)

/-- How many leading members pass a test that parts the members in two. -/
def count (test : β → Bool) (r : Ring β) : Nat :=
  if r.back.head?.any test then r.front.length + bisect test r.back else bisect test r.front

/-- The slot that comes so many slots behind the start. -/
def slot (r : Ring β) (n : Nat) : Nat := (r.start + n) % r.slots

/-- A full ring gets twice its slots, and no fewer than four. The shorter run is moved: members
that come round go behind the others, or else those before the end of the row go to the new end. -/
def widen (r : Ring β) : Ring β :=
  let slots := max (2 * r.slots) 4
  let stays := r.start = 0 ∨ r.back.length < r.front.length
  { r with slots, start := if stays then r.start else slots - r.front.length }

/-- A ring with a free slot. -/
def withRoom (r : Ring β) : Ring β := if r.size < r.slots then r else r.widen

/-- Puts a member at a place and moves those on the shorter side of it by one slot. -/
def insertAt (r : Ring β) (place : Nat) (x : β) : Ring β :=
  let r := r.withRoom
  { r with
    members := r.members.take place ++ x :: r.members.drop place
    start := if r.size - place < place then r.start else r.slot (r.slots - 1) }

/-- Takes away the leading members that pass a test, one by one. -/
def dropWhile (test : β → Bool) (r : Ring β) : Ring β :=
  { r with
    members := r.members.dropWhile test
    start := r.slot (r.members.takeWhile test).length }

/-- Takes away the first member. -/
def dropFirst (r : Ring β) : Ring β :=
  { r with members := r.members.tail, start := r.slot (min 1 r.size) }

/-- Takes away so many leading members at once; a ring left without members starts afresh. -/
def drop (r : Ring β) (n : Nat) : Ring β :=
  { r with members := r.members.drop n, start := if n < r.size then r.slot n else 0 }

/-- Takes away all members and keeps the slots. -/
def clear (r : Ring β) : Ring β := { r with members := [], start := 0 }

/-! ## What the operations do to the members -/

theorem members_withRoom (r : Ring β) : r.withRoom.members = r.members := by
  unfold withRoom
  split <;> rfl

theorem members_insertAt (r : Ring β) (place : Nat) (x : β) :
    (r.insertAt place x).members = r.members.take place ++ x :: r.members.drop place := by
  simp only [insertAt, members_withRoom]

theorem front_append_back (r : Ring β) : r.front ++ r.back = r.members :=
  List.take_append_drop _ _

/-- A count in one of the runs is a count in all members that the test parts in two. -/
theorem count_eq_takeWhile {test : β → Bool} {r : Ring β}
    (parted : r.members.Pairwise fun x y => test y = true → test x = true) :
    r.count test = (r.members.takeWhile test).length := by
  unfold count
  have front_parted : r.front.Pairwise fun x y => test y = true → test x = true :=
    parted.sublist (List.take_sublist _ _)
  have back_parted : r.back.Pairwise fun x y => test y = true → test x = true :=
    parted.sublist (List.drop_sublist _ _)
  rw [bisect_eq_takeWhile front_parted, bisect_eq_takeWhile back_parted]
  match cut : r.back with
  | [] =>
    have all := front_append_back r
    rw [cut, List.append_nil] at all
    simp [all]
  | mid :: rest =>
    have shorter := congrArg List.length cut
    simp only [back, List.length_drop, List.length_cons] at shorter
    by_cases passes : test mid = true
    · rw [length_takeWhile_of_pass parted cut passes]
      simp only [List.head?_cons, Option.any_some, passes, if_true, front, List.length_take]
      omega
    · have fails : test mid = false := Bool.eq_false_iff.mpr passes
      have few := length_takeWhile_le cut fails
      simp only [List.head?_cons, Option.any_some, fails, Bool.false_eq_true, if_false, front]
      rw [← List.take_takeWhile, List.length_take]
      omega

end Ring

end UnitDispatch
