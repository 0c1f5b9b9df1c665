import UnitDispatch.Quantity

/-! # Clocks

A clock yields a fixed number of equal steps. The time at the end of a step is computed from its
index, so a long run gathers no rounding drift.
-/

namespace UnitDispatch

/-- A number of equal steps, some of them taken. -/
structure Clock (α : Type) where
  start : α
  step : α
  total : Nat
  /-- Steps taken. -/
  current : Nat := 0
  deriving Repr

namespace Clock

variable {α : Type} [Quantity α]

/-- The time after `n` whole steps. -/
def timeAfter (c : Clock α) (n : Nat) : α := c.start + Quantity.ofNat n * c.step

/-- Takes a step: its index and the time at its end. -/
def tick? (c : Clock α) : Option ((Nat × α) × Clock α) :=
  if c.current < c.total then
    some ((c.current, c.timeAfter (c.current + 1)), { c with current := c.current + 1 })
  else none

/-- The steps left to take. -/
def remaining (c : Clock α) : List (Nat × α) :=
  (List.range' c.current (c.total - c.current)).map fun k => (k, c.timeAfter (k + 1))

/-- The clock with no steps left. -/
def finished (c : Clock α) : Clock α := { c with current := max c.current c.total }

theorem remaining_eq_nil {c : Clock α} (h : c.total ≤ c.current) : c.remaining = [] := by
  simp [remaining, Nat.sub_eq_zero_of_le h]

theorem remaining_eq_cons {c : Clock α} (h : c.current < c.total) :
    c.remaining = (c.current, c.timeAfter (c.current + 1)) ::
      Clock.remaining { c with current := c.current + 1 } := by
  obtain ⟨n, hn⟩ := Nat.exists_eq_add_of_lt h
  have : c.total - c.current = n + 1 := by omega
  have rest : c.total - (c.current + 1) = n := by omega
  simp [remaining, this, rest, List.range'_succ, timeAfter]

theorem length_remaining (c : Clock α) : c.remaining.length = c.total - c.current := by
  simp [remaining]

end Clock

end UnitDispatch
