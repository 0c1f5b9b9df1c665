import UnitDispatch.Quantity

/-! # Setpoints

A setpoint is a power that becomes due at a time. Setpoints compare by time alone, so two with one
time and different powers count as equal.
-/

namespace UnitDispatch

/-- A power that is to be reached at `time`. -/
structure Setpoint (α : Type) where
  time : α
  power : α
  /-- Queued by the generator itself, to finish a setpoint its ramp limits held up. -/
  carried : Bool := false
  deriving Repr

namespace Setpoint

variable {α : Type} [Quantity α]

instance : BEq (Setpoint α) := ⟨fun a b => a.time == b.time⟩
instance : LT (Setpoint α) := ⟨fun a b => a.time < b.time⟩
instance : LE (Setpoint α) := ⟨fun a b => a.time ≤ b.time⟩
instance : DecidableLT (Setpoint α) := fun a b => Quantity.ltDecidable a.time b.time
instance : DecidableLE (Setpoint α) := fun a b => Quantity.leDecidable a.time b.time

/-- The order of two setpoints is that of their times. -/
def compare? (a b : Setpoint α) : Option Ordering := Quantity.compare? a.time b.time

theorem lt_iff {a b : Setpoint α} : a < b ↔ a.time < b.time := Iff.rfl

theorem le_iff {a b : Setpoint α} : a ≤ b ↔ a.time ≤ b.time := Iff.rfl

end Setpoint

end UnitDispatch
