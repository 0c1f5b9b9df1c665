import Mathlib.Tactic.Positivity
import UnitDispatch.Proofs.Order

/-! # The laws of arithmetic

What can be said of sums and products without knowing how they are rounded. `Signed` says that a
finite product has the sign its factors give it, and `Rounded` that an operation that gives a result
at all does not turn the way its arguments lead. Exact quantities satisfy the laws here, doubles do
with more work, so what rests on them holds in the running program too.
-/

namespace UnitDispatch

namespace Quantity

/-- An ordered number type in which negation and finite products follow the rule of signs. -/
class Signed (α : Type) [Quantity α] : Prop extends Ordered α where
  defined_of_le : ∀ {a b : α}, a ≤ b → isNaN a = false ∧ isNaN b = false
  zero_le_one : (0 : α) ≤ 1
  isFinite_zero : isFinite (0 : α) = true
  isFinite_one : isFinite (1 : α) = true
  isFinite_neg : ∀ {a : α}, isFinite a = true → isFinite (-a) = true
  neg_nonpos : ∀ {a : α}, 0 ≤ a → -a ≤ 0
  mul_nonneg : ∀ {a b : α}, isFinite a = true → isFinite b = true → 0 ≤ a → 0 ≤ b → 0 ≤ a * b
  mul_nonpos : ∀ {a b : α}, isFinite a = true → isFinite b = true → a ≤ 0 → 0 ≤ b → a * b ≤ 0

section Selections

variable {α : Type} [Quantity α] {a b x : α}

theorem beq_self_of_defined (defined : isNaN a = false) : (a == a) = true := by
  simpa [isNaN] using defined

theorem le_lesser (ha : isNaN a = false → x ≤ a) (hb : x ≤ b) : x ≤ lesser a b := by
  unfold lesser
  split
  · exact hb
  next defined =>
    split
    · exact hb
    · exact ha (Bool.eq_false_iff.mpr defined)

theorem greater_le (ha : isNaN a = false → a ≤ x) (hb : b ≤ x) : greater a b ≤ x := by
  unfold greater
  split
  · exact hb
  next defined =>
    split
    · exact hb
    · exact ha (Bool.eq_false_iff.mpr defined)

end Selections

namespace Ordered

variable {α : Type} [Quantity α] [Ordered α] {b low high : α}

theorem lesser_le_right (hb : isNaN b = false) (a : α) : lesser a b ≤ b := by
  unfold lesser
  split
  · exact le_refl hb
  next defined =>
    split
    · exact le_refl hb
    next below => exact le_of_not_le hb (Bool.eq_false_iff.mpr defined) below

theorem le_greater_right (hb : isNaN b = false) (a : α) : b ≤ greater a b := by
  unfold greater
  split
  · exact le_refl hb
  next defined =>
    split
    · exact le_refl hb
    next above => exact le_of_not_le (Bool.eq_false_iff.mpr defined) hb above

/-- Between defined bounds that do not cross, every value is held, even an undefined one. -/
theorem limit_mem (hl : isNaN low = false) (hh : isNaN high = false) (room : low ≤ high) (x : α) :
    low ≤ limit low high x ∧ limit low high x ≤ high := by
  have cut : isNaN (lesser x high) = false ∧ lesser x high ≤ high := by
    unfold lesser
    split
    · exact ⟨hh, le_refl hh⟩
    next defined =>
      have hx : isNaN x = false := by simpa using defined
      split
      · exact ⟨hh, le_refl hh⟩
      next below => exact ⟨hx, le_of_not_le hh hx below⟩
  obtain ⟨defined, below⟩ := cut
  unfold limit greater
  rw [defined, if_neg Bool.false_ne_true]
  split
  · exact ⟨le_refl hl, room⟩
  next above => exact ⟨le_of_not_le defined hl above, below⟩

/-- A clamped value that is defined lies between the bounds. -/
theorem clamp_mem (hl : isNaN low = false) (hh : isNaN high = false) (room : low ≤ high) {x : α}
    (hx : isNaN x = false) : low ≤ clamp low high x ∧ clamp low high x ≤ high := by
  unfold clamp
  split
  · exact ⟨le_refl hl, room⟩
  next above =>
    split
    · exact ⟨room, le_refl hh⟩
    next below => exact ⟨le_of_not_lt hx hl above, le_of_not_lt hh hx below⟩

end Ordered

namespace Signed

variable {α : Type} [Quantity α] [Signed α] {a : α}

/-- What lies between zero and one is finite. -/
theorem isFinite_of_mem (low : 0 ≤ a) (high : a ≤ 1) : isFinite a = true := by
  have zero := isFinite_zero (α := α)
  have one := isFinite_one (α := α)
  unfold isFinite at zero one ⊢
  rw [Bool.and_eq_true, decide_eq_true_iff, decide_eq_true_iff] at zero one ⊢
  exact ⟨Ordered.lt_of_lt_of_le zero.1 low, Ordered.lt_of_le_of_lt high one.2⟩

end Signed

/-- A number type in which a result that is defined respects the order of the arguments, rounded as
it may be; to be equal is to be level in that order. -/
class Rounded (α : Type) [Quantity α] : Prop extends Signed α where
  not_lt_of_le : ∀ {a b : α}, a ≤ b → ¬ b < a
  beq_iff : ∀ {a b : α}, (a == b) = true ↔ a ≤ b ∧ b ≤ a
  le_unbounded : ∀ {a : α}, isNaN a = false → a ≤ unbounded
  zero_lt_thousandth : (0 : α) < 1e-3
  defined_of_add : ∀ {a b : α}, isNaN (a + b) = false → isNaN b = false
  defined_of_sub_right : ∀ {a b : α}, isNaN (a - b) = false → isNaN b = false
  defined_of_mul : ∀ {a b : α}, isNaN (a * b) = false → isNaN a = false
  defined_of_div : ∀ {a b : α}, isNaN (a / b) = false → isNaN a = false
  le_add : ∀ {a b : α}, 0 ≤ b → isNaN (a + b) = false → a ≤ a + b
  add_le : ∀ {a b : α}, b ≤ 0 → isNaN (a + b) = false → a + b ≤ a
  sub_le : ∀ {a b : α}, 0 ≤ b → isNaN (a - b) = false → a - b ≤ a
  sub_nonneg : ∀ {a b : α}, b ≤ a → isNaN (a - b) = false → 0 ≤ a - b
  sub_nonpos : ∀ {a b : α}, a ≤ b → isNaN (a - b) = false → a - b ≤ 0
  mul_nonneg_of_defined : ∀ {a b : α}, 0 ≤ a → 0 ≤ b → isNaN (a * b) = false → 0 ≤ a * b
  mul_nonpos_of_defined : ∀ {a b : α}, a ≤ 0 → 0 ≤ b → isNaN (a * b) = false → a * b ≤ 0
  div_nonneg_of_defined : ∀ {a b : α}, 0 ≤ a → ¬ b ≤ 0 → isNaN (a / b) = false → 0 ≤ a / b

namespace Rounded

variable {α : Type} [Quantity α] [Rounded α] {a b : α}

theorem unbounded_defined : isNaN (unbounded : α) = false :=
  (Signed.defined_of_le (le_unbounded Ordered.defined_zero)).2

theorem le_of_sub_pos (positive : 0 < a - b) : b ≤ a := by
  have defined := (Ordered.defined_of_lt positive).2
  by_contra above
  have below : a ≤ b := Ordered.le_of_not_le (defined_of_sub_right defined)
    (Ordered.defined_of_sub defined) above
  exact not_lt_of_le (sub_nonpos below defined) positive

end Rounded

end Quantity

open Quantity

/-! ## Exact quantities -/

namespace Exact

variable {K : Type} [Field K] [LinearOrder K] [IsStrictOrderedRing K]

instance : Signed (Exact K) where
  defined_of_le := by
    intro a b le
    cases a <;> cases b <;> simp_all
  zero_le_one := by simp [one_eq]
  isFinite_zero := isFinite_iff.mpr ⟨0, zero_eq⟩
  isFinite_one := isFinite_iff.mpr ⟨1, one_eq⟩
  isFinite_neg := by
    intro a finite
    obtain ⟨x, rfl⟩ := isFinite_iff.mp finite
    exact isFinite_fin (-x)
  neg_nonpos := by
    intro a nonneg
    obtain ⟨x, hx, rfl⟩ | rfl := eq_of_nonneg nonneg
    · rw [neg_fin, zero_eq, fin_le]
      exact neg_nonpos.mpr hx
    · simp [zero_eq]
  mul_nonneg := by
    intro a b fa fb ha hb
    obtain ⟨x, rfl⟩ := isFinite_iff.mp fa
    obtain ⟨y, rfl⟩ := isFinite_iff.mp fb
    rw [zero_eq, fin_le] at ha hb
    rw [zero_eq, fin_mul, fin_le]
    exact mul_nonneg ha hb
  mul_nonpos := by
    intro a b fa fb ha hb
    obtain ⟨x, rfl⟩ := isFinite_iff.mp fa
    obtain ⟨y, rfl⟩ := isFinite_iff.mp fb
    rw [zero_eq, fin_le] at ha hb
    rw [zero_eq, fin_mul, fin_le]
    exact mul_nonpos_of_nonpos_of_nonneg ha hb

omit [IsStrictOrderedRing K] in
theorem unboundedBy_side (s : K) (defined : isNaN (unboundedBy s) = false) :
    (0 ≤ s → 0 ≤ unboundedBy s) ∧ (s ≤ 0 → unboundedBy s ≤ 0) := by
  revert defined
  unfold unboundedBy
  split_ifs with up down
  · exact fun _ => ⟨fun _ => .inr rfl, fun le => absurd up (not_lt.mpr le)⟩
  · exact fun _ => ⟨fun le => absurd down (not_lt.mpr le), fun _ => .inl rfl⟩
  · nofun

instance : Rounded (Exact K) where
  not_lt_of_le := by
    intro a b le
    cases a <;> cases b <;> simp_all
  beq_iff := by
    intro a b
    show same a b = true ↔ _
    cases a <;> cases b <;> simp [same, le_antisymm_iff (α := K)]
  le_unbounded := by
    intro a defined
    cases a with
    | fin x => exact fin_le_posInf x
    | posInf => exact posInf_le_posInf
    | negInf => exact .inl rfl
    | nan => cases defined
  zero_lt_thousandth := by
    rw [ofScientific_fin, zero_eq, fin_lt]
    positivity
  defined_of_add := by
    intro a b defined
    cases a <;> cases b <;> first | rfl | simp | cases defined
  defined_of_sub_right := by
    intro a b defined
    cases a <;> cases b <;> first | rfl | simp | cases defined
  defined_of_mul := by
    intro a b defined
    cases a <;> cases b <;> first | rfl | simp | cases defined
  defined_of_div := by
    intro a b defined
    cases a <;> cases b <;> first | rfl | simp | cases defined
  le_add := by
    intro a b nonneg defined
    obtain ⟨x, hx, rfl⟩ | rfl := eq_of_nonneg nonneg <;> cases a <;>
      first
      | exact .inr rfl
      | exact .inl rfl
      | cases defined
      | simpa using hx
  add_le := by
    intro a b nonpos defined
    cases b <;> cases a <;>
      first
      | exact .inr rfl
      | exact .inl rfl
      | (cases defined; done)
      | (refine absurd nonpos ?_; simp; done)
      | simpa using nonpos
  sub_le := by
    intro a b nonneg defined
    obtain ⟨x, hx, rfl⟩ | rfl := eq_of_nonneg nonneg <;> cases a <;>
      first
      | exact .inr rfl
      | exact .inl rfl
      | cases defined
      | simpa using hx
  sub_nonneg := by
    intro a b le defined
    cases a <;> cases b <;>
      first
      | exact .inr rfl
      | (cases defined; done)
      | (refine absurd le ?_; simp; done)
      | simpa using le
  sub_nonpos := by
    intro a b le defined
    cases a <;> cases b <;>
      first
      | exact .inl rfl
      | (cases defined; done)
      | (refine absurd le ?_; simp; done)
      | simpa using le
  mul_nonneg_of_defined := by
    intro a b ha hb defined
    obtain ⟨x, hx, rfl⟩ | rfl := eq_of_nonneg ha <;> obtain ⟨y, hy, rfl⟩ | rfl := eq_of_nonneg hb
    · simpa using mul_nonneg hx hy
    · exact (unboundedBy_side (x * 1) defined).1 (by simpa using hx)
    · exact (unboundedBy_side (1 * y) defined).1 (by simpa using hy)
    · exact (unboundedBy_side (1 * 1) defined).1 (by simp)
  mul_nonpos_of_defined := by
    intro a b ha hb defined
    obtain ⟨y, hy, rfl⟩ | rfl := eq_of_nonneg hb <;> cases a
    · have hx := fin_le.mp (zero_eq (K := K) ▸ ha)
      simpa using mul_nonpos_of_nonpos_of_nonneg hx hy
    · exact absurd ha (by simp)
    · exact (unboundedBy_side (-1 * y) defined).2 (by simpa using hy)
    · cases defined
    next x =>
      have hx := fin_le.mp (zero_eq (K := K) ▸ ha)
      exact (unboundedBy_side (x * 1) defined).2 (by simpa using hx)
    · exact absurd ha (by simp)
    · exact (unboundedBy_side (-1 * 1) defined).2 (by simp)
    · cases defined
  div_nonneg_of_defined := by
    intro a b ha hb defined
    refine (div_nonneg_or_nan ha hb).resolve_right ?_
    intro undefined
    rw [undefined] at defined
    cases defined

end Exact

end UnitDispatch
