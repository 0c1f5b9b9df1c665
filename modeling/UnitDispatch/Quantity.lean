/-! # Quantities

Times, powers and ramp rates are quantities. The rules of dispatch are written once over the class
`Quantity`: a running program computes with doubles, a proof may compute with exact numbers.

A comparison with an undefined quantity is always false, so an undefined quantity is one that
differs from itself. `lesser`, `greater` and `limit` look past an undefined argument, `clamp`
passes it on.
-/

namespace UnitDispatch

/-- A number type in which dispatch can be computed: arithmetic, decidable comparisons, decimal
literals, a magnitude and an unbounded value above all others. -/
class Quantity (α : Type) extends
    Add α, Sub α, Mul α, Div α, Neg α, LT α, LE α, BEq α, OfScientific α where
  ltDecidable : DecidableLT α
  leDecidable : DecidableLE α
  /-- The value without its sign. -/
  magnitude : α → α
  /-- Greater than every bounded value. -/
  unbounded : α

attribute [reducible, instance] Quantity.ltDecidable Quantity.leDecidable

namespace Quantity

variable {α : Type} [Quantity α]

/-- The quantity nearest to a whole number. -/
def ofNat (n : Nat) : α := OfScientific.ofScientific n false 0

instance (priority := low) (n : Nat) : OfNat α n := ⟨ofNat n⟩

/-- An undefined quantity is the one that does not equal itself. -/
def isNaN (x : α) : Bool := !(x == x)

/-- Neither undefined nor unbounded. -/
def isFinite (x : α) : Bool := decide (-unbounded < x) && decide (x < unbounded)

/-- Unbounded in either direction. -/
def isInfinite (x : α) : Bool := x == unbounded || x == -unbounded

/-- The smaller of two quantities, the second if they are equal; an undefined one gives way. -/
def lesser (a b : α) : α :=
  if isNaN a then b else if b ≤ a then b else a

/-- The larger of two quantities, the second if they are equal; an undefined one gives way. -/
def greater (a b : α) : α :=
  if isNaN a then b else if a ≤ b then b else a

/-- Holds `x` down to `high` and then up to `low`, so that `low` wins where the bounds cross. -/
def limit (low high x : α) : α := greater (lesser x high) low

/-- Holds `x` between `low` and `high`; an undefined `x` stays undefined. -/
def clamp (low high x : α) : α :=
  if x < low then low else if high < x then high else x

/-- The order of two quantities, if they have one. -/
def compare? (a b : α) : Option Ordering :=
  if a < b then some .lt
  else if a == b then some .eq
  else if b < a then some .gt
  else none

/-! ## What the selections return -/

theorem lesser_eq_or (a b : α) : lesser a b = a ∨ lesser a b = b := by
  unfold lesser
  split
  · exact .inr rfl
  · split
    · exact .inr rfl
    · exact .inl rfl

theorem greater_eq_or (a b : α) : greater a b = a ∨ greater a b = b := by
  unfold greater
  split
  · exact .inr rfl
  · split
    · exact .inr rfl
    · exact .inl rfl

/-- A limited value is the value itself or one of its bounds. -/
theorem limit_eq_or (low high x : α) :
    limit low high x = x ∨ limit low high x = high ∨ limit low high x = low := by
  rcases greater_eq_or (lesser x high) low with h | h
  · rcases lesser_eq_or x high with h' | h'
    · exact .inl (h.trans h')
    · exact .inr (.inl (h.trans h'))
  · exact .inr (.inr h)

theorem lesser_of_isNaN {a : α} (h : isNaN a = true) (b : α) : lesser a b = b := by
  simp [lesser, h]

theorem greater_of_isNaN {a : α} (h : isNaN a = true) (b : α) : greater a b = b := by
  simp [greater, h]

end Quantity

/-- Doubles are the quantities of a running program. -/
instance : Quantity Float where
  ltDecidable := inferInstance
  leDecidable := inferInstance
  magnitude := Float.abs
  unbounded := 1.0 / 0.0

end UnitDispatch
