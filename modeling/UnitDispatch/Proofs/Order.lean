import Mathlib.Data.Prod.Lex
import Mathlib.Order.Compare
import UnitDispatch.Proofs.Exact

/-! # The order of quantities

What can be said of times and powers without arithmetic: quantities that are defined can be
compared. `Ordered` collects the few laws, and both exact quantities and doubles satisfy them, so a
result that rests on them alone holds of the running program.
-/

namespace UnitDispatch

namespace Quantity

/-- A number type whose defined quantities are in a linear order. -/
class Ordered (α : Type) [Quantity α] : Prop where
  le_trans : ∀ {a b c : α}, a ≤ b → b ≤ c → a ≤ c
  lt_of_le_of_lt : ∀ {a b c : α}, a ≤ b → b < c → a < c
  lt_of_lt_of_le : ∀ {a b c : α}, a < b → b ≤ c → a < c
  le_of_lt : ∀ {a b : α}, a < b → a ≤ b
  le_of_not_lt : ∀ {a b : α}, isNaN a = false → isNaN b = false → ¬ a < b → b ≤ a
  defined_zero : isNaN (0 : α) = false
  defined_of_lt : ∀ {a b : α}, a < b → isNaN a = false ∧ isNaN b = false
  defined_of_sub : ∀ {a b : α}, isNaN (a - b) = false → isNaN a = false

namespace Ordered

variable {α : Type} [Quantity α] [Ordered α] {a b : α}

theorem le_of_not_le (ha : isNaN a = false) (hb : isNaN b = false) (h : ¬ a ≤ b) : b ≤ a := by
  refine le_of_not_lt ha hb ?_
  intro lt
  exact h (le_of_lt lt)

theorem le_refl (ha : isNaN a = false) : a ≤ a := by
  by_cases lt : a < a
  · exact le_of_lt lt
  · exact le_of_not_lt ha ha lt

theorem defined_of_isFinite (finite : isFinite a = true) : isNaN a = false := by
  unfold isFinite at finite
  rw [Bool.and_eq_true, decide_eq_true_iff, decide_eq_true_iff] at finite
  exact (defined_of_lt finite.2).1

end Ordered

end Quantity

open Quantity

/-! ## Exact quantities -/

namespace Exact

variable {K : Type} [Field K] [LinearOrder K]

instance : Ordered (Exact K) where
  le_trans := le_trans
  lt_of_le_of_lt := by
    intro a b c le lt
    cases a <;> cases b <;> cases c <;> simp_all
    exact le.trans_lt lt
  lt_of_lt_of_le := lt_of_lt_of_le
  le_of_lt := le_of_lt
  le_of_not_lt := by
    intro a b ha hb h
    cases a <;> cases b <;> simp_all [isNaN_nan]
  defined_zero := by simp
  defined_of_lt := by
    intro a b lt
    cases a <;> cases b <;> simp_all
  defined_of_sub := by
    intro a b defined
    cases a with
    | nan => cases defined
    | _ => simp

end Exact

/-! ## Doubles -/

namespace Doubles

open Float.Model

/-- Where a double stands among the others: by sign and size, then exponent, then mantissa. -/
def rank : UnpackedFloat → Option (ℤ ×ₗ ℤ ×ₗ ℤ)
  | .notANumber => none
  | .infinity .positive => some (toLex (2, toLex (0, 0)))
  | .infinity .negative => some (toLex (-2, toLex (0, 0)))
  | .zero _ => some (toLex (0, toLex (0, 0)))
  | .finite .positive m e _ => some (toLex (1, toLex (e, (m : ℤ))))
  | .finite .negative m e _ => some (toLex (-1, toLex (-e, -(m : ℤ))))

theorem compare_neg (a b : ℤ) : compare (-a) (-b) = (compare a b).swap := by
  rcases lt_trichotomy a b with h | rfl | h
  · rw [compare_lt_iff_lt.mpr h, compare_gt_iff_gt.mpr (Int.neg_lt_neg h)]
    rfl
  · rw [compare_eq_iff_eq.mpr rfl, compare_eq_iff_eq.mpr rfl]
    rfl
  · rw [compare_gt_iff_gt.mpr h, compare_lt_iff_lt.mpr (Int.neg_lt_neg h)]
    rfl

theorem compare_natCast (m n : ℕ) : compare (m : ℤ) (n : ℤ) = compare m n := by
  rcases lt_trichotomy m n with h | rfl | h
  · rw [compare_lt_iff_lt.mpr h, compare_lt_iff_lt.mpr (Int.ofNat_lt.mpr h)]
  · rw [compare_eq_iff_eq.mpr rfl, compare_eq_iff_eq.mpr rfl]
  · rw [compare_gt_iff_gt.mpr h, compare_gt_iff_gt.mpr (Int.ofNat_lt.mpr h)]

/-- Doubles compare as their ranks do. -/
theorem compare_eq (u v : UnpackedFloat) :
    u.compare v = (rank u).bind fun x => (rank v).map (compare x) := by
  have up (e e' : ℤ) (m m' : ℕ) : (compare e e').then (compare m m') =
      compare (toLex (e, (m : ℤ))) (toLex (e', (m' : ℤ))) :=
    congrArg (compare e e').then (compare_natCast m m').symm
  have down (e e' : ℤ) (m m' : ℕ) : ((compare e e').then (compare m m')).swap =
      compare (toLex (-e, -(m : ℤ))) (toLex (-e', -(m' : ℤ))) := by
    rw [Ordering.swap_then, ← compare_neg, ← compare_natCast m m', ← compare_neg]
    rfl
  rcases u with (_ | _) | _ | _ | ⟨_ | _, m, e, _⟩ <;>
    rcases v with (_ | _) | _ | _ | ⟨_ | _, m', e', _⟩ <;>
    first
    | rfl
    | exact congrArg some (up e e' m m')
    | exact congrArg some (down e e' m m')

theorem lt_iff_rank (u v : UnpackedFloat) :
    u.lt v = true ↔ ∃ x ∈ rank u, ∃ y ∈ rank v, x < y := by
  show (u.compare v == some .lt) = true ↔ _
  rw [compare_eq]
  cases rank u <;> cases rank v <;> simp [compare_lt_iff_lt]

theorem le_iff_rank (u v : UnpackedFloat) :
    u.le v = true ↔ ∃ x ∈ rank u, ∃ y ∈ rank v, x ≤ y := by
  show (u.compare v).any (·.isLE) = true ↔ _
  rw [compare_eq]
  cases rank u <;> cases rank v <;> simp [← Ordering.ne_gt_iff_isLE, compare_le_iff_le]

theorem beq_iff_rank (u v : UnpackedFloat) :
    u.beq v = true ↔ ∃ x ∈ rank u, ∃ y ∈ rank v, x = y := by
  show (u.compare v == some .eq) = true ↔ _
  rw [compare_eq]
  cases rank u <;> cases rank v <;> simp [compare_eq_iff_eq]
  exact eq_comm

theorem beq_self_eq (u : UnpackedFloat) : u.beq u = (rank u).isSome := by
  show (u.compare u == some .eq) = _
  rw [compare_eq]
  cases rank u <;> simp

/-- Where a packed double stands. -/
def place (x : Float) : Option (ℤ ×ₗ ℤ ×ₗ ℤ) := rank x.toModel.unpack

theorem lt_iff {a b : Float} : a < b ↔ ∃ x ∈ place a, ∃ y ∈ place b, x < y :=
  (decide_eq_true_iff (p := a.toModel < b.toModel)).trans (lt_iff_rank _ _)

theorem le_iff {a b : Float} : a ≤ b ↔ ∃ x ∈ place a, ∃ y ∈ place b, x ≤ y :=
  (decide_eq_true_iff (p := a.toModel ≤ b.toModel)).trans (le_iff_rank _ _)

theorem isNaN_eq (a : Float) : Quantity.isNaN a = (place a).isNone := by
  have self : (a == a) = (place a).isSome := beq_self_eq a.toModel.unpack
  unfold Quantity.isNaN
  rw [self, Option.not_isSome]

theorem eq_notANumber_of_rank {u : UnpackedFloat} (h : rank u = none) : u = .notANumber := by
  rcases u with (_ | _) | _ | _ | ⟨_ | _, m, e, _⟩ <;> first | rfl | cases h

/-- What is not a number stays so when something is taken from it. -/
theorem place_sub {a : Float} (h : place a = none) (b : Float) : place (a - b) = none := by
  have difference : (a - b).toModel =
      Float.Model.pack (UnpackedFloat.sub .binary64 a.toModel.unpack b.toModel.unpack) := rfl
  have undefined : UnpackedFloat.sub .binary64 .notANumber b.toModel.unpack = .notANumber := by
    cases b.toModel.unpack <;> rfl
  unfold place
  rw [difference, eq_notANumber_of_rank h, undefined]
  rfl

instance : Ordered Float where
  le_trans := by
    intro a b c h k
    obtain ⟨x, hx, y, hy, le⟩ := le_iff.mp h
    obtain ⟨y', hy', z, hz, le'⟩ := le_iff.mp k
    obtain rfl := Option.mem_unique hy hy'
    exact le_iff.mpr ⟨x, hx, z, hz, le.trans le'⟩
  lt_of_le_of_lt := by
    intro a b c h k
    obtain ⟨x, hx, y, hy, le⟩ := le_iff.mp h
    obtain ⟨y', hy', z, hz, lt⟩ := lt_iff.mp k
    obtain rfl := Option.mem_unique hy hy'
    exact lt_iff.mpr ⟨x, hx, z, hz, le.trans_lt lt⟩
  lt_of_lt_of_le := by
    intro a b c h k
    obtain ⟨x, hx, y, hy, lt⟩ := lt_iff.mp h
    obtain ⟨y', hy', z, hz, le⟩ := le_iff.mp k
    obtain rfl := Option.mem_unique hy hy'
    exact lt_iff.mpr ⟨x, hx, z, hz, lt.trans_le le⟩
  le_of_lt := by
    intro a b h
    obtain ⟨x, hx, y, hy, lt⟩ := lt_iff.mp h
    exact le_iff.mpr ⟨x, hx, y, hy, lt.le⟩
  le_of_not_lt := by
    intro a b ha hb h
    rw [isNaN_eq, Option.isNone_eq_false_iff, Option.isSome_iff_exists] at ha hb
    obtain ⟨x, hx⟩ := ha
    obtain ⟨y, hy⟩ := hb
    refine le_iff.mpr ⟨y, hy, x, hx, le_of_not_gt ?_⟩
    intro lt
    exact h (lt_iff.mpr ⟨x, hx, y, hy, lt⟩)
  defined_zero := rfl
  defined_of_lt := by
    intro a b h
    obtain ⟨x, hx, y, hy, -⟩ := lt_iff.mp h
    rw [isNaN_eq, isNaN_eq, Option.mem_def.mp hx, Option.mem_def.mp hy]
    exact ⟨rfl, rfl⟩
  defined_of_sub := by
    intro a b defined
    rw [isNaN_eq, Option.isNone_eq_false_iff, Option.isSome_iff_ne_none] at defined ⊢
    intro undefined
    exact defined (place_sub undefined b)

end Doubles

end UnitDispatch
