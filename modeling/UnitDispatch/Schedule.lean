import UnitDispatch.Ring
import UnitDispatch.Setpoint

/-! # Schedules

A schedule holds setpoints in the order in which they fall due; setpoints with one time keep the
order in which they came. It keeps them in a ring, in which places are found by bisection:
`Ring.count_eq_takeWhile` says that this is the place a linear scan finds, as long as no setpoint
has an undefined time.
-/

namespace UnitDispatch

/-- Setpoints in the order in which they fall due. -/
structure Schedule (α : Type) where
  ring : Ring (Setpoint α) := {}
  deriving Repr

namespace Schedule

variable {α : Type} [Quantity α]

/-- The setpoints, the first to fall due in front. -/
def setpoints (s : Schedule α) : List (Setpoint α) := s.ring.members

/-- The setpoint due first. -/
def first? (s : Schedule α) : Option (Setpoint α) := s.setpoints.head?

def size (s : Schedule α) : Nat := s.setpoints.length

def isEmpty (s : Schedule α) : Bool := s.setpoints.isEmpty

/-- How many setpoints are due no later than `time`. -/
def countUpTo (s : Schedule α) (time : α) : Nat := s.ring.count fun p => decide (p.time ≤ time)

/-- How many setpoints are due strictly before `time`. -/
def countBefore (s : Schedule α) (time : α) : Nat := s.ring.count fun p => decide (p.time < time)

/-- Adds a setpoint behind all that are due no later. -/
def insert (s : Schedule α) (p : Setpoint α) : Schedule α :=
  ⟨s.ring.insertAt (s.countUpTo p.time) p⟩

/-- Takes away the setpoint due first. -/
def removeFirst (s : Schedule α) : Schedule α := ⟨s.ring.dropFirst⟩

/-- Takes away the setpoints due strictly before `time`. -/
def dropBefore (s : Schedule α) (time : α) : Schedule α := ⟨s.ring.drop (s.countBefore time)⟩

/-- Takes away all setpoints. -/
def clear (s : Schedule α) : Schedule α := ⟨s.ring.clear⟩

/-- The leading setpoints that are not later than `now`. -/
def due (s : Schedule α) (now : α) : List (Setpoint α) :=
  s.setpoints.takeWhile fun p => !decide (now < p.time)

/-- The schedule without its due setpoints. -/
def afterDue (s : Schedule α) (now : α) : Schedule α :=
  ⟨s.ring.dropWhile fun p => !decide (now < p.time)⟩

/-- Whether some setpoint falls due strictly before `time`: the first one does. -/
def precedes (s : Schedule α) (time : α) : Bool :=
  s.first?.any fun p => decide (p.time < time)

/-! ## What the operations do to the setpoints -/

theorem setpoints_insert (s : Schedule α) (p : Setpoint α) :
    (s.insert p).setpoints = s.setpoints.take (s.countUpTo p.time) ++
      p :: s.setpoints.drop (s.countUpTo p.time) :=
  Ring.members_insertAt _ _ _

theorem insert_perm (s : Schedule α) (p : Setpoint α) :
    (s.insert p).setpoints.Perm (p :: s.setpoints) := by
  rw [setpoints_insert]
  exact List.perm_middle.trans (by rw [List.take_append_drop])

theorem size_insert (s : Schedule α) (p : Setpoint α) : (s.insert p).size = s.size + 1 :=
  (insert_perm s p).length_eq

omit [Quantity α] in
theorem setpoints_removeFirst (s : Schedule α) : s.removeFirst.setpoints = s.setpoints.tail := rfl

theorem setpoints_dropBefore (s : Schedule α) (time : α) :
    (s.dropBefore time).setpoints = s.setpoints.drop (s.countBefore time) := rfl

omit [Quantity α] in
theorem setpoints_clear (s : Schedule α) : s.clear.setpoints = [] := rfl

theorem due_append_afterDue (s : Schedule α) (now : α) :
    s.due now ++ (s.afterDue now).setpoints = s.setpoints :=
  List.takeWhile_append_dropWhile

theorem size_dropBefore (s : Schedule α) (time : α) :
    (s.dropBefore time).size = s.size - s.countBefore time := by
  simp [size, setpoints_dropBefore]

end Schedule

end UnitDispatch
