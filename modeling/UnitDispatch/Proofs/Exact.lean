import Mathlib.Algebra.Order.Field.Basic
import Mathlib.Order.Interval.Set.UnorderedInterval
import Mathlib.Tactic.FieldSimp
import Mathlib.Tactic.Linarith
import Mathlib.Tactic.Ring
import UnitDispatch.Quantity.Exact

/-! # Order and limits of exact quantities

What proofs about dispatch need of exact quantities: comparisons with the values that are not
finite, a transitive order, and what `limit` makes of a finite value. `limit_isFinite` asks
little of the bounds; `limit_spec` has bounds on either side of zero, as ramp limits are.
-/

namespace UnitDispatch

open Quantity

namespace Exact

variable {K : Type} [Field K] [LinearOrder K]

attribute [simp] fin_add fin_sub fin_mul neg_fin fin_lt fin_le fin_beq magnitude_fin unbounded_eq
  isNaN_fin lesser_fin greater_fin

/-! ## Literals -/

/-- A numeral stands for the field's number. -/
theorem ofNat_fin (n : Nat) : (OfNat.ofNat n : Exact K) = fin (n : K) := ofNat_eq n

@[simp] theorem zero_eq : (0 : Exact K) = fin 0 := by rw [ofNat_fin, Nat.cast_zero]

@[simp] theorem one_eq : (1 : Exact K) = fin 1 := by rw [ofNat_fin, Nat.cast_one]

@[simp] theorem two_eq : (2 : Exact K) = fin 2 := by
  rw [ofNat_fin]
  exact congrArg fin Nat.cast_ofNat

/-- A decimal fraction stands for the field's number. -/
theorem ofScientific_fin (m e : Nat) :
    (OfScientific.ofScientific m true e : Exact K) = fin ((m : K) / 10 ^ e) := rfl

/-! ## Comparisons at the ends -/

@[simp] theorem fin_lt_posInf (x : K) : (fin x : Exact K) < posInf := ⟨by simp, .inr rfl⟩

@[simp] theorem negInf_lt_fin (x : K) : negInf < (fin x : Exact K) := ⟨by simp, .inl rfl⟩

@[simp] theorem negInf_lt_posInf : (negInf : Exact K) < posInf := ⟨by simp, .inl rfl⟩

@[simp] theorem not_posInf_lt (a : Exact K) : ¬ posInf < a := by
  intro h
  cases a with
  | fin x | negInf => obtain ⟨-, h | h⟩ := h <;> cases h
  | posInf => exact h.1 rfl
  | nan => exact h

@[simp] theorem not_lt_negInf (a : Exact K) : ¬ a < negInf := by
  intro h
  cases a with
  | fin x | posInf => obtain ⟨-, h | h⟩ := h <;> cases h
  | negInf => exact h.1 rfl
  | nan => exact h

@[simp] theorem not_nan_lt (a : Exact K) : ¬ nan < a := id

@[simp] theorem not_lt_nan (a : Exact K) : ¬ a < nan := by cases a <;> exact id

@[simp] theorem not_nan_le (a : Exact K) : ¬ nan ≤ a := id

@[simp] theorem not_le_nan (a : Exact K) : ¬ a ≤ nan := by cases a <;> exact id

@[simp] theorem fin_le_posInf (x : K) : (fin x : Exact K) ≤ posInf := .inr rfl

@[simp] theorem posInf_le_posInf : (posInf : Exact K) ≤ posInf := .inr rfl

@[simp] theorem negInf_le_fin (x : K) : negInf ≤ (fin x : Exact K) := .inl rfl

@[simp] theorem negInf_le_posInf : (negInf : Exact K) ≤ posInf := .inl rfl

@[simp] theorem negInf_le_negInf : (negInf : Exact K) ≤ negInf := .inl rfl

@[simp] theorem not_posInf_le_fin (x : K) : ¬ posInf ≤ (fin x : Exact K) := by
  rintro (h | h) <;> cases h

@[simp] theorem not_posInf_le_negInf : ¬ (posInf : Exact K) ≤ negInf := by
  rintro (h | h) <;> cases h

@[simp] theorem not_fin_le_negInf (x : K) : ¬ (fin x : Exact K) ≤ negInf := by
  rintro (h | h) <;> cases h

@[simp] theorem neg_posInf : (-posInf : Exact K) = negInf := rfl

@[simp] theorem neg_negInf : (-negInf : Exact K) = posInf := rfl

/-! ## The order -/

theorem le_trans {a b c : Exact K} (h : a ≤ b) (k : b ≤ c) : a ≤ c := by
  cases a <;> cases b <;> cases c <;> simp_all
  exact h.trans k

theorem lt_of_lt_of_le {a b c : Exact K} (h : a < b) (k : b ≤ c) : a < c := by
  cases a <;> cases b <;> cases c <;> simp_all
  exact h.trans_le k

theorem le_of_lt {a b : Exact K} (h : a < b) : a ≤ b := by
  cases a <;> cases b <;> simp_all
  exact h.le

theorem not_le_of_lt {a b : Exact K} (h : a < b) : ¬ b ≤ a := by
  cases a <;> cases b <;> simp_all

theorem isInfinite_fin (x : K) : isInfinite (fin x : Exact K) = false := rfl

theorem isFinite_fin (x : K) : isFinite (fin x : Exact K) = true := isFinite_iff.mpr ⟨x, rfl⟩

/-- Finite quantities can be compared. -/
theorem le_of_not_lt {a b : Exact K} (ha : isFinite a = true) (hb : isFinite b = true)
    (h : ¬ a < b) : b ≤ a := by
  obtain ⟨x, rfl⟩ := isFinite_iff.mp ha
  obtain ⟨y, rfl⟩ := isFinite_iff.mp hb
  simpa using h

/-- What lies between two numbers is one. -/
theorem isFinite_of_between {a : Exact K} {x y : K} (low : fin x ≤ a) (high : a ≤ fin y) :
    isFinite a = true := by
  cases a with
  | fin z => exact isFinite_fin z
  | posInf => exact (not_posInf_le_fin y high).elim
  | negInf => exact (not_fin_le_negInf x low).elim
  | nan => exact high.elim

/-- Above some number, whatever does not come before a time comes after it. -/
theorem fin_lt_of_not_le {a : Exact K} {x y : K} (low : fin x < a) (h : ¬ a ≤ fin y) :
    fin y < a := by
  cases a with
  | fin z => exact fin_lt.mpr (not_le.mp h)
  | posInf => exact fin_lt_posInf y
  | negInf => exact (not_lt_negInf _ low).elim
  | nan => exact (not_lt_nan _ low).elim

/-- A quantity that is not negative is a number or unbounded. -/
theorem eq_of_nonneg {a : Exact K} (h : 0 ≤ a) : (∃ x, 0 ≤ x ∧ a = fin x) ∨ a = posInf := by
  cases a with
  | fin x => exact .inl ⟨x, by simpa using h, rfl⟩
  | posInf => exact .inr rfl
  | negInf => simp at h
  | nan => simp at h

/-- A quantity above the lower end is a number or unbounded. -/
theorem eq_of_negInf_lt {a : Exact K} (h : negInf < a) : (∃ x, a = fin x) ∨ a = posInf := by
  cases a with
  | fin x => exact .inl ⟨x, rfl⟩
  | posInf => exact .inr rfl
  | negInf => simp at h
  | nan => simp at h

theorem negInf_lt_of_nonneg {a : Exact K} (h : 0 ≤ a) : negInf < a :=
  lt_of_lt_of_le (by simp) h

/-- A magnitude bounds what its negative bounds from below. -/
theorem neg_le_fin [IsStrictOrderedRing K] {down : Exact K} {x : K} (h : fin (-x) ≤ down) :
    -down ≤ fin x := by
  cases down with
  | fin d => exact fin_le.mpr (neg_le.mp (fin_le.mp h))
  | posInf => simp
  | negInf => simp at h
  | nan => simp at h

theorem neg_le_of_nonneg [IsStrictOrderedRing K] {down : Exact K} {x : K} (h : 0 ≤ down)
    (hx : 0 ≤ x) : -down ≤ fin x :=
  neg_le_fin (le_trans (by simpa using hx) h)

theorem sub_le_self [IsStrictOrderedRing K] {a b : Exact K} (h : 0 ≤ a - b) (hb : 0 ≤ b) :
    a - b ≤ a := by
  obtain ⟨y, hy, rfl⟩ | rfl := eq_of_nonneg hb
  · cases a with
    | fin x => simpa using hy
    | posInf => exact posInf_le_posInf
    | negInf => exact negInf_le_negInf
    | nan => exact (not_le_nan _ h).elim
  · cases a with
    | fin x | negInf =>
      change 0 ≤ negInf at h
      simp at h
    | posInf | nan => exact (not_le_nan _ h).elim

/-! ## Arithmetic at the ends -/

theorem posInf_sub_fin (x : K) : (posInf - fin x : Exact K) = posInf := rfl

theorem negInf_sub_fin (x : K) : (negInf - fin x : Exact K) = negInf := rfl

theorem fin_add_posInf (x : K) : (fin x + posInf : Exact K) = posInf := rfl

theorem fin_add_negInf (x : K) : (fin x + negInf : Exact K) = negInf := rfl

theorem posInf_mul_fin [IsStrictOrderedRing K] {t : K} (h : 0 < t) :
    (posInf * fin t : Exact K) = posInf := by
  change unboundedBy (1 * t) = posInf
  rw [one_mul]
  exact if_pos h

theorem negInf_mul_fin [IsStrictOrderedRing K] {t : K} (h : 0 < t) :
    (negInf * fin t : Exact K) = negInf := by
  change unboundedBy (-1 * t) = negInf
  have low : -1 * t < 0 := by linarith
  unfold unboundedBy
  rw [if_neg low.le.not_gt, if_pos low]

/-- A number taken away can be put back. -/
theorem eq_of_sub_fin {a : Exact K} {x y : K} (h : a - fin x = fin y) : a = fin (y + x) := by
  cases a with
  | fin z =>
    rw [fin_sub] at h
    rw [← fin.inj h, sub_add_cancel]
  | posInf => cases (posInf_sub_fin x).symm.trans h
  | negInf => cases (negInf_sub_fin x).symm.trans h
  | nan => cases h

theorem fin_add_le_of_le_sub [IsStrictOrderedRing K] {a : Exact K} {x y : K}
    (h : fin x ≤ a - fin y) : fin (x + y) ≤ a := by
  cases a with
  | fin z =>
    rw [fin_sub, fin_le] at h
    exact fin_le.mpr (by linarith)
  | posInf => exact fin_le_posInf _
  | negInf => exact (not_fin_le_negInf x h).elim
  | nan => exact (not_le_nan _ h).elim

theorem le_fin_sub_of_add_le [IsStrictOrderedRing K] {a : Exact K} {x y : K}
    (h : a + fin y ≤ fin x) : a ≤ fin (x - y) := by
  cases a with
  | fin z =>
    rw [fin_add, fin_le] at h
    exact fin_le.mpr (by linarith)
  | posInf => exact (not_posInf_le_fin x h).elim
  | negInf => exact negInf_le_fin _
  | nan => exact h.elim

/-- A number times a quantity of its sign is positive. -/
theorem fin_mul_pos [IsStrictOrderedRing K] {x : K} {a : Exact K}
    (h : 0 < x ∧ 0 < a ∨ x < 0 ∧ a < 0) : 0 < fin x * a := by
  have ends (sign : K) (positive : 0 < x * sign) : (0 : Exact K) < unboundedBy (x * sign) := by
    unfold unboundedBy
    rw [if_pos positive, zero_eq]
    exact fin_lt_posInf 0
  rw [zero_eq] at h
  cases a with
  | fin y =>
    rw [zero_eq, fin_mul, fin_lt]
    rcases h with ⟨hx, ha⟩ | ⟨hx, ha⟩
    · exact mul_pos hx (fin_lt.mp ha)
    · exact mul_pos_of_neg_of_neg hx (fin_lt.mp ha)
  | posInf => exact ends 1 (by simpa using h)
  | negInf => exact ends (-1) (by simpa using h)
  | nan => simp at h

theorem mul_le_fin [IsStrictOrderedRing K] {a : Exact K} {x t : K} (h : a ≤ fin x) (ht : 0 < t) :
    a * fin t ≤ fin (x * t) := by
  cases a with
  | fin y => exact fin_le.mpr (mul_le_mul_of_nonneg_right (fin_le.mp h) ht.le)
  | posInf => simp at h
  | negInf =>
    rw [negInf_mul_fin ht]
    exact negInf_le_fin _
  | nan => simp at h

theorem fin_le_mul [IsStrictOrderedRing K] {a : Exact K} {x t : K} (h : fin x ≤ a) (ht : 0 < t) :
    fin (x * t) ≤ a * fin t := by
  cases a with
  | fin y => exact fin_le.mpr (mul_le_mul_of_nonneg_right (fin_le.mp h) ht.le)
  | posInf =>
    rw [posInf_mul_fin ht]
    exact fin_le_posInf _
  | negInf => simp at h
  | nan => simp at h

/-- A rate that does not make up for more than `x` in time `t`. -/
theorem le_fin_div_of_mul_le [IsStrictOrderedRing K] {a : Exact K} {x t : K}
    (h : a * fin t ≤ fin x) (ht : 0 < t) : a ≤ fin (x / t) := by
  cases a with
  | fin y =>
    rw [fin_mul, fin_le] at h
    exact fin_le.mpr ((le_div_iff₀ ht).mpr h)
  | posInf =>
    rw [posInf_mul_fin ht] at h
    exact (not_posInf_le_fin x h).elim
  | negInf => exact negInf_le_fin _
  | nan => exact h.elim

/-- A rate that makes up for at least `x` in time `t`. -/
theorem fin_div_le_of_le_mul [IsStrictOrderedRing K] {a : Exact K} {x t : K}
    (h : fin x ≤ a * fin t) (ht : 0 < t) : fin (x / t) ≤ a := by
  cases a with
  | fin y =>
    rw [fin_mul, fin_le] at h
    exact fin_le.mpr ((div_le_iff₀ ht).mpr h)
  | posInf => exact fin_le_posInf _
  | negInf =>
    rw [negInf_mul_fin ht] at h
    exact (not_fin_le_negInf x h).elim
  | nan => exact (not_le_nan _ h).elim

/-- A quotient of a value that is not negative and one that is positive is not negative, if it is
defined. -/
theorem div_nonneg_or_nan [IsStrictOrderedRing K] {a b : Exact K} (ha : 0 ≤ a) (hb : ¬ b ≤ 0) :
    0 ≤ a / b ∨ a / b = nan := by
  obtain ⟨x, hx, rfl⟩ | rfl := eq_of_nonneg ha
  · cases b with
    | fin y =>
      have pos : 0 < y := by simpa using hb
      rw [fin_div x pos.ne']
      exact .inl (by simpa using div_nonneg hx pos.le)
    | posInf | negInf => exact .inl (by simp; exact le_rfl)
    | nan => exact .inr rfl
  · cases b with
    | fin y =>
      have : ¬ y < 0 := not_lt.mpr (by simpa using hb : 0 < y).le
      exact .inl (by rw [show (posInf : Exact K) / fin y = posInf from if_neg this]; simp)
    | posInf | negInf | nan => exact .inr rfl

/-! ## Limits -/

@[simp] theorem isNaN_posInf : isNaN (posInf : Exact K) = false := by
  change (!decide ((posInf : Exact K) = posInf)) = false
  rw [decide_eq_true rfl, Bool.not_true]

@[simp] theorem isNaN_negInf : isNaN (negInf : Exact K) = false := by
  change (!decide ((negInf : Exact K) = negInf)) = false
  rw [decide_eq_true rfl, Bool.not_true]

@[simp] theorem lesser_posInf (x : K) : lesser (fin x : Exact K) posInf = fin x := by
  simp [lesser]

@[simp] theorem lesser_negInf (x : K) : lesser (fin x : Exact K) negInf = negInf := by
  simp [lesser]

@[simp] theorem greater_negInf (x : K) : greater (fin x : Exact K) negInf = fin x := by
  simp [greater]

@[simp] theorem greater_posInf (x : K) : greater (fin x : Exact K) posInf = posInf := by
  simp [greater]

theorem isNaN_nan : isNaN (nan : Exact K) = true := rfl

theorem greater_pos {b : Exact K} (a : Exact K) (hb : 0 < b) : 0 < greater a b := by
  unfold greater
  split
  next => exact hb
  next defined =>
    split
    next => exact hb
    next above =>
      cases a <;> cases b <;> simp_all [isNaN_nan]
      exact hb.trans above

theorem lesser_pos {a b : Exact K} (ha : 0 < a) (hb : 0 < b) : 0 < lesser a b := by
  rcases lesser_eq_or a b with h | h <;> rw [h] <;> assumption

theorem neg_lt_posInf {down : Exact K} (h : negInf < down) : -down < posInf := by
  obtain ⟨d, rfl⟩ | rfl := eq_of_negInf_lt h
  · exact fin_lt_posInf (-d)
  · exact negInf_lt_posInf

theorem negInf_lt_sub {a : Exact K} (h : negInf < a) (x : K) : negInf < a - fin x := by
  obtain ⟨y, rfl⟩ | rfl := eq_of_negInf_lt h
  · exact negInf_lt_fin (y + -x)
  · exact negInf_lt_posInf

theorem add_lt_posInf {a : Exact K} (h : a < posInf) (x : K) : a + fin x < posInf := by
  cases a with
  | fin y => exact fin_lt_posInf (y + x)
  | posInf => simp at h
  | negInf => exact negInf_lt_posInf
  | nan => simp at h

/-- A finite value stays finite between bounds that leave room for some. -/
theorem limit_isFinite {low high : Exact K} (hl : low < posInf) (hh : negInf < high) (x : K) :
    isFinite (limit low high (fin x)) = true := by
  unfold limit
  obtain ⟨u, rfl⟩ | rfl := eq_of_negInf_lt hh <;> cases low <;> simp_all [isFinite_fin]

/-- A bound not below `m` moves a finite value toward `m`, if at all. -/
theorem lesser_toward {high : Exact K} {m : K} (hm : fin m ≤ high) (x : K) :
    ∃ y, lesser (fin x) high = fin y ∧ fin y ≤ high ∧ y ∈ Set.uIcc m x := by
  cases high with
  | fin b =>
    refine ⟨min x b, lesser_fin x b, fin_le.mpr (min_le_right x b), ?_⟩
    rcases le_total x b with h | h
    · rw [min_eq_left h]
      exact Set.right_mem_uIcc
    · rw [min_eq_right h]
      exact Set.mem_uIcc_of_le (fin_le.mp hm) h
  | posInf => exact ⟨x, lesser_posInf x, fin_le_posInf x, Set.right_mem_uIcc⟩
  | negInf => exact (not_fin_le_negInf m hm).elim
  | nan => exact (not_le_nan _ hm).elim

/-- A bound not above `m` moves a finite value toward `m`, if at all. -/
theorem greater_toward {low : Exact K} {m : K} (hm : low ≤ fin m) (x : K) :
    ∃ y, greater (fin x) low = fin y ∧ low ≤ fin y ∧ y ∈ Set.uIcc m x := by
  cases low with
  | fin a =>
    refine ⟨max x a, greater_fin x a, fin_le.mpr (le_max_right x a), ?_⟩
    rcases le_total x a with h | h
    · rw [max_eq_right h]
      exact Set.mem_uIcc_of_ge h (fin_le.mp hm)
    · rw [max_eq_left h]
      exact Set.right_mem_uIcc
  | negInf => exact ⟨x, greater_negInf x, negInf_le_fin x, Set.right_mem_uIcc⟩
  | posInf => exact (not_posInf_le_fin m hm).elim
  | nan => exact hm.elim

/-- Bounds on either side of `m` move a finite value toward `m`, if at all. -/
theorem limit_toward {low high : Exact K} {m : K} (hl : low ≤ fin m) (hh : fin m ≤ high) (x : K) :
    ∃ y, limit low high (fin x) = fin y ∧ low ≤ fin y ∧ fin y ≤ high ∧ y ∈ Set.uIcc m x := by
  obtain ⟨y, cut, most, between⟩ := lesser_toward hh x
  obtain ⟨z, raised, least, between'⟩ := greater_toward hl y
  refine ⟨z, ?_, least, ?_, Set.uIcc_subset_uIcc_left between between'⟩
  · unfold limit
    rw [cut, raised]
  · rcases Set.mem_uIcc.mp between' with ⟨-, le⟩ | ⟨-, le⟩
    · exact le_trans (fin_le.mpr le) most
    · exact le_trans (fin_le.mpr le) hh

/-- Bounds on either side of zero move a finite value toward zero, if at all. -/
theorem limit_spec [IsStrictOrderedRing K] {down up : Exact K} (hd : 0 ≤ down) (hu : 0 ≤ up)
    (x : K) :
    ∃ y, limit (-down) up (fin x) = fin y ∧ -down ≤ fin y ∧ fin y ≤ up ∧ y ∈ Set.uIcc 0 x :=
  limit_toward (neg_le_of_nonneg hd le_rfl) (zero_eq (K := K) ▸ hu) x

/-- Between finite bounds every value is held at a number, even an undefined one. -/
theorem limit_mem_Icc {low high : K} (room : low ≤ high) (x : Exact K) :
    ∃ w, limit (fin low) (fin high) x = fin w ∧ w ∈ Set.Icc low high := by
  cases x with
  | fin x =>
    refine ⟨max (min x high) low, limit_fin low high x, le_max_right _ _, ?_⟩
    exact max_le (min_le_right x high) room
  | posInf => exact ⟨high, by simp [limit, lesser, room], room, le_rfl⟩
  | negInf => exact ⟨low, by simp [limit, lesser, greater], le_rfl, room⟩
  | nan => exact ⟨high, by simp [limit, lesser, isNaN_nan, room], room, le_rfl⟩

/-- A value within the bounds stays as it is. -/
theorem limit_eq_self {low high : Exact K} {x : K} (hl : low ≤ fin x) (hh : fin x ≤ high) :
    limit low high (fin x) = fin x := by
  unfold limit
  cases high <;> cases low <;> simp_all

theorem lesser_self (a : Exact K) : lesser a a = a := by
  rcases lesser_eq_or a a with h | h <;> exact h

@[simp] theorem lesser_nan (a : Exact K) : lesser a nan = a := by
  cases a <;> simp [lesser, isNaN_nan]

@[simp] theorem greater_nan (a : Exact K) : greater a nan = a := by
  cases a <;> simp [greater, isNaN_nan]

/-- A value that has been limited once stays as it is. -/
theorem limit_limit (low high x : Exact K) :
    limit low high (limit low high x) = limit low high x := by
  have again : lesser (lesser x high) high = lesser x high := by
    rcases lesser_eq_or x high with h | h
    · rw [h, h]
    · rw [h, lesser_self]
  unfold limit
  rcases greater_eq_or (lesser x high) low with upper | lower
  · rw [upper, again, upper]
  · rw [lower]
    cases low with
    | nan =>
      rw [greater_nan] at lower ⊢
      rw [← lower, again]
    | posInf => cases lesser posInf high <;> simp [greater, isNaN_nan]
    | negInf => cases high <;> simp [lesser, greater]
    | fin y =>
      cases high with
      | fin b => rw [lesser_fin, greater_fin, max_eq_right (min_le_left y b)]
      | posInf => rw [lesser_posInf, greater_fin, max_self]
      | negInf => rw [lesser_negInf, greater, if_neg (by simp), if_pos (negInf_le_fin y)]
      | nan => rw [lesser_nan, greater_fin, max_self]

/-- A limited value is defined when one of its bounds is. -/
theorem isNaN_limit {low high : Exact K} (defined : isNaN low = false ∨ isNaN high = false)
    (x : Exact K) : isNaN (limit low high x) = false := by
  unfold limit
  cases low with
  | nan =>
    have top := defined.resolve_left (by simp [isNaN_nan])
    rw [greater_nan]
    unfold lesser
    split
    · exact top
    next value =>
      split
      · exact top
      · simpa using value
  | fin | posInf | negInf =>
    unfold greater
    split
    · simp
    next value =>
      split
      · simp
      · simpa using value

end Exact

end UnitDispatch
