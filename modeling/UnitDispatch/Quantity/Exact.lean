import Mathlib.Algebra.Order.Field.Basic
import Mathlib.Algebra.Order.Group.Abs
import Mathlib.Tactic.Ring
import UnitDispatch.Quantity

/-! # Exact quantities

The elements of an ordered field, with two unbounded values and an undefined one, as quantities that
are not rounded. Arithmetic follows the rules of doubles where a value is not finite; a zero has no
sign. On finite values the selections are those of the field's order: `lesser_fin`, `greater_fin`
and `limit_fin`.
-/

namespace UnitDispatch

/-- A field element, unbounded in one direction, or undefined. -/
inductive Exact (K : Type) where
  | fin (x : K)
  | posInf
  | negInf
  | nan
  deriving DecidableEq, Repr

namespace Exact

variable {K : Type} [Field K] [LinearOrder K]

/-! ## Operations -/

def neg : Exact K → Exact K
  | fin x => fin (-x)
  | posInf => negInf
  | negInf => posInf
  | nan => nan

def add : Exact K → Exact K → Exact K
  | fin x, fin y => fin (x + y)
  | nan, _ | _, nan | posInf, negInf | negInf, posInf => nan
  | posInf, _ | _, posInf => posInf
  | negInf, _ | _, negInf => negInf

/-- Unbounded, in the direction of a sign; undefined where the sign is zero. -/
def unboundedBy (sign : K) : Exact K :=
  if 0 < sign then posInf else if sign < 0 then negInf else nan

/-- A finite value that has the sign of a quantity. -/
def signOf : Exact K → K
  | fin x => x
  | posInf => 1
  | negInf => -1
  | nan => 0

def mul : Exact K → Exact K → Exact K
  | fin x, fin y => fin (x * y)
  | nan, _ | _, nan => nan
  | a, b => unboundedBy (signOf a * signOf b)

/-- A quotient by zero is unbounded, as the zero were positive. -/
def div : Exact K → Exact K → Exact K
  | fin x, fin y => if y = 0 then unboundedBy x else fin (x / y)
  | nan, _ | _, nan => nan
  | fin _, _ => fin 0
  | posInf, fin y => if y < 0 then negInf else posInf
  | negInf, fin y => if y < 0 then posInf else negInf
  | _, _ => nan

def lt : Exact K → Exact K → Prop
  | fin x, fin y => x < y
  | nan, _ | _, nan => False
  | a, b => a ≠ b ∧ (a = negInf ∨ b = posInf)

def le : Exact K → Exact K → Prop
  | fin x, fin y => x ≤ y
  | nan, _ | _, nan => False
  | a, b => a = negInf ∨ b = posInf

/-- Equality, which an undefined quantity fails even with itself. -/
def same : Exact K → Exact K → Bool
  | nan, nan => false
  | a, b => decide (a = b)

def abs : Exact K → Exact K
  | fin x => fin |x|
  | nan => nan
  | _ => posInf

/-- A decimal literal. -/
def ofDecimal (mantissa : Nat) (negative : Bool) (exponent : Nat) : Exact K :=
  fin (if negative then mantissa / 10 ^ exponent else mantissa * 10 ^ exponent)

instance ltDecidable : (a b : Exact K) → Decidable (lt a b)
  | fin x, fin y => inferInstanceAs (Decidable (x < y))
  | nan, _ => isFalse id
  | fin _, nan | posInf, nan | negInf, nan => isFalse id
  | fin _, posInf => isTrue ⟨nofun, .inr rfl⟩
  | fin _, negInf => isFalse fun h => h.2.elim nofun nofun
  | posInf, fin _ => isFalse fun h => h.2.elim nofun nofun
  | posInf, posInf => isFalse fun h => h.1 rfl
  | posInf, negInf => isFalse fun h => h.2.elim nofun nofun
  | negInf, fin _ => isTrue ⟨nofun, .inl rfl⟩
  | negInf, posInf => isTrue ⟨nofun, .inl rfl⟩
  | negInf, negInf => isFalse fun h => h.1 rfl

instance leDecidable : (a b : Exact K) → Decidable (le a b)
  | fin x, fin y => inferInstanceAs (Decidable (x ≤ y))
  | nan, _ => isFalse id
  | fin _, nan | posInf, nan | negInf, nan => isFalse id
  | fin _, posInf => isTrue (.inr rfl)
  | fin _, negInf => isFalse fun h => h.elim nofun nofun
  | posInf, fin _ => isFalse fun h => h.elim nofun nofun
  | posInf, posInf => isTrue (.inr rfl)
  | posInf, negInf => isFalse fun h => h.elim nofun nofun
  | negInf, fin _ => isTrue (.inl rfl)
  | negInf, posInf => isTrue (.inl rfl)
  | negInf, negInf => isTrue (.inl rfl)

instance : Quantity (Exact K) where
  add := add
  sub a b := add a (neg b)
  mul := mul
  div := div
  neg := neg
  lt := lt
  le := le
  beq := same
  ofScientific := ofDecimal
  ltDecidable := ltDecidable
  leDecidable := leDecidable
  magnitude := abs
  unbounded := posInf

/-! ## Finite values -/

theorem fin_add (x y : K) : (fin x + fin y : Exact K) = fin (x + y) := rfl

theorem fin_sub (x y : K) : (fin x - fin y : Exact K) = fin (x - y) :=
  congrArg fin (sub_eq_add_neg x y).symm

theorem fin_mul (x y : K) : (fin x * fin y : Exact K) = fin (x * y) := rfl

theorem neg_fin (x : K) : (-fin x : Exact K) = fin (-x) := rfl

theorem fin_div {y : K} (x : K) (h : y ≠ 0) : (fin x / fin y : Exact K) = fin (x / y) := if_neg h

theorem fin_lt {x y : K} : (fin x : Exact K) < fin y ↔ x < y := Iff.rfl

theorem fin_le {x y : K} : (fin x : Exact K) ≤ fin y ↔ x ≤ y := Iff.rfl

theorem fin_beq {x y : K} : ((fin x : Exact K) == fin y) = decide (x = y) := by
  change decide (fin x = fin y) = decide (x = y)
  simp

theorem magnitude_fin (x : K) : Quantity.magnitude (fin x : Exact K) = fin |x| := rfl

theorem unbounded_eq : (Quantity.unbounded : Exact K) = posInf := rfl

theorem isNaN_fin (x : K) : Quantity.isNaN (fin x : Exact K) = false := by
  simp [Quantity.isNaN, fin_beq]

theorem isFinite_iff {a : Exact K} : Quantity.isFinite a = true ↔ ∃ x, a = fin x := by
  unfold Quantity.isFinite
  rw [Bool.and_eq_true, decide_eq_true_iff, decide_eq_true_iff]
  constructor
  · rintro ⟨low, high⟩
    cases a with
    | fin x => exact ⟨x, rfl⟩
    | posInf => exact (high.1 rfl).elim
    | negInf => exact (low.1 rfl).elim
    | nan => exact low.elim
  · rintro ⟨x, rfl⟩
    exact ⟨⟨nofun, .inl rfl⟩, ⟨nofun, .inr rfl⟩⟩

theorem lesser_fin (x y : K) : Quantity.lesser (fin x : Exact K) (fin y) = fin (min x y) := by
  unfold Quantity.lesser
  rw [isNaN_fin, if_neg Bool.false_ne_true]
  split
  next h => rw [min_eq_right (fin_le.mp h)]
  next h => rw [min_eq_left (le_of_lt (not_le.mp fun le => h (fin_le.mpr le)))]

theorem greater_fin (x y : K) : Quantity.greater (fin x : Exact K) (fin y) = fin (max x y) := by
  unfold Quantity.greater
  rw [isNaN_fin, if_neg Bool.false_ne_true]
  split
  next h => rw [max_eq_right (fin_le.mp h)]
  next h => rw [max_eq_left (le_of_lt (not_le.mp fun le => h (fin_le.mpr le)))]

theorem limit_fin (low high x : K) :
    Quantity.limit (fin low : Exact K) (fin high) (fin x) = fin (max (min x high) low) := by
  unfold Quantity.limit
  rw [lesser_fin, greater_fin]

theorem ofNat_eq (n : Nat) : (Quantity.ofNat n : Exact K) = fin (n : K) := by
  change ofDecimal n false 0 = fin (n : K)
  simp [ofDecimal]

end Exact

end UnitDispatch
