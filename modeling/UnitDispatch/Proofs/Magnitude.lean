import UnitDispatch.Proofs.Rounding

/-! # How large doubles get

Doubles are graded by the power of two that they do not pass (`UpTo`). Each operation of a running
program is given its grade once: sums and products add up, a sum whose smaller term is lost in
rounding stays where it is (`UpTo.absorb`), and a value held between bounds takes their grade even
if it was undefined before (`upTo_limit`). A graded double is finite, so nothing that has a grade is
undefined.
-/

namespace UnitDispatch

open Quantity

namespace Doubles

open Float.Model UnpackedFloat

/-- Finite, and at most a power of two. -/
def UpTo (k : ℕ) (x : Float) : Prop := Spans k x.toModel.unpack

instance (k : ℕ) (x : Float) : Decidable (UpTo k x) :=
  inferInstanceAs (Decidable (Spans k x.toModel.unpack))

/-- At least one over a power of two, or unbounded, in either direction. -/
def AtLeast (k : ℕ) (x : Float) : Prop := Clears (-k) x.toModel.unpack

instance (k : ℕ) (x : Float) : Decidable (AtLeast k x) :=
  inferInstanceAs (Decidable (Clears (-k) x.toModel.unpack))

variable {a b x low high : Float} {k j : ℕ}

theorem UpTo.mono (ha : UpTo k a) (le : k ≤ j) : UpTo j a := Spans.mono ha (by exact_mod_cast le)

theorem UpTo.isFinite (ha : UpTo k a) : isFinite a = true := (isFinite_eq a).trans ha.1

theorem UpTo.defined (ha : UpTo k a) : isNaN a = false := Ordered.defined_of_isFinite ha.isFinite

theorem UpTo.isInfinite (ha : UpTo k a) : isInfinite a = false := by
  have finite := ha.1
  show (a.toModel.unpack.beq (.infinity .positive) ||
    a.toModel.unpack.beq (.infinity .negative)) = false
  generalize a.toModel.unpack = u at finite ⊢
  rcases u with (_ | _) | _ | _ | ⟨_ | _, m, e, _⟩ <;> first | rfl | cases finite

theorem upTo_zero (k : ℕ) : UpTo k 0 := spans_zero _ .positive

/-- Finite doubles are in the order of their numbers. -/
theorem number_le_of_le (fa : a.toModel.unpack.isFinite = true)
    (fb : b.toModel.unpack.isFinite = true) (le : a ≤ b) :
    number a.toModel.unpack ≤ number b.toModel.unpack := by
  obtain ⟨p, hp, q, hq, le⟩ := le_iff.mp le
  exact number_le (canonical_unpack _) (canonical_unpack _) fa fb hp hq le

/-- What lies between two doubles of a size is of that size. -/
theorem UpTo.between (hl : UpTo k low) (hh : UpTo k high) (above : low ≤ x) (below : x ≤ high) :
    UpTo k x := by
  have finite : x.toModel.unpack.isFinite = true := by
    have fl := hl.isFinite
    have fh := hh.isFinite
    rw [← isFinite_eq]
    unfold Quantity.isFinite at fl fh ⊢
    rw [Bool.and_eq_true, decide_eq_true_iff, decide_eq_true_iff] at fl fh ⊢
    exact ⟨Ordered.lt_of_lt_of_le fl.1 above, Ordered.lt_of_le_of_lt below fh.2⟩
  refine ⟨finite, abs_le.mpr ⟨?_, ?_⟩⟩
  · exact (abs_le.mp hl.2).1.trans (number_le_of_le hl.1 finite above)
  · exact (number_le_of_le finite hh.1 below).trans (abs_le.mp hh.2).2

/-- What lies above a positive double of a size is at least of that size. -/
theorem AtLeast.of_le (ha : AtLeast k a) (fa : UpTo j a) (pos : 0 ≤ a) (le : a ≤ b) :
    AtLeast k b := by
  have nonneg : 0 ≤ number a.toModel.unpack := number_le_of_le rfl fa.1 pos
  have size : (2 : ℚ) ^ (-k : ℤ) ≤ number a.toModel.unpack := by
    rw [← abs_of_nonneg nonneg]
    have finite := fa.1
    unfold AtLeast at ha
    generalize a.toModel.unpack = u at ha finite ⊢
    cases u with
    | notANumber | infinity => cases finite
    | zero | finite => exact ha
  have defined := (Signed.defined_of_le le).2
  rw [isNaN_eq, place] at defined
  have order := fun fb => number_le_of_le fa.1 fb le
  unfold AtLeast
  generalize b.toModel.unpack = v at defined order ⊢
  cases v with
  | notANumber => cases defined
  | infinity => exact trivial
  | zero | finite => exact size.trans ((order rfl).trans (le_abs_self _))

/-! ## Arithmetic -/

/-- What is packed into a double keeps its bound. -/
theorem UpTo.of_pack {u : UnpackedFloat} (eq : x.toModel = Float.Model.pack u)
    (spans : Spans k u) (room : k ≤ 971) : UpTo k x := by
  unfold UpTo
  rw [eq]
  exact spans.pack (by omega) (by exact_mod_cast room)

theorem UpTo.neg (ha : UpTo k a) (room : k ≤ 971) : UpTo k (-a) :=
  .of_pack rfl (spans_neg ha) room

theorem UpTo.magnitude (ha : UpTo k a) (room : k ≤ 971) : UpTo k (magnitude a) :=
  .of_pack rfl (spans_abs ha) room

/-- Two numbers of a grade add up to the next. -/
theorem room_succ (k : ℕ) : (2 : ℚ) ^ (k : ℤ) + 2 ^ (k : ℤ) ≤
    2 ^ ((k + 1 : ℕ) : ℤ) + 2 ^ (((k + 1 : ℕ) : ℤ) - 54) := by
  have slack : (0 : ℚ) < 2 ^ (((k + 1 : ℕ) : ℤ) - 54) := by positivity
  have double : (2 : ℚ) ^ (k : ℤ) + 2 ^ (k : ℤ) = 2 ^ ((k + 1 : ℕ) : ℤ) := by
    push_cast
    rw [zpow_add_one₀ two_ne_zero]
    ring
  linarith

theorem UpTo.add (ha : UpTo k a) (hb : UpTo k b) (room : k + 1 ≤ 971) : UpTo (k + 1) (a + b) :=
  .of_pack rfl (spans_add ha hb (by omega) (room_succ k)) room

/-- A sum in which one term is lost in the rounding of the other. -/
theorem UpTo.absorb (ha : UpTo k a) (hb : UpTo j b) (small : j + 54 ≤ k) (room : k ≤ 971) :
    UpTo k (a + b) := by
  refine .of_pack rfl (spans_add ha hb (by omega) ?_) room
  have : (2 : ℚ) ^ (j : ℤ) ≤ 2 ^ ((k : ℤ) - 54) := zpow_le_zpow_right₀ (by norm_num) (by omega)
  linarith

theorem UpTo.sub (ha : UpTo k a) (hb : UpTo k b) (room : k + 1 ≤ 971) : UpTo (k + 1) (a - b) := by
  have same : (a - b).toModel = Float.Model.pack
      (UnpackedFloat.add .binary64 a.toModel.unpack b.toModel.unpack.neg) :=
    congrArg Float.Model.pack (sub_eq _ _)
  exact .of_pack same (spans_add ha (spans_neg hb) (by omega) (room_succ k)) room

theorem UpTo.mul (ha : UpTo k a) (hb : UpTo j b) (room : k + j ≤ 971) : UpTo (k + j) (a * b) := by
  refine .of_pack rfl ?_ room
  push_cast
  exact spans_mul ha hb (by omega)

theorem UpTo.div (ha : UpTo k a) (hb : AtLeast j b) (room : k + j + 1 ≤ 971) :
    UpTo (k + j + 1) (a / b) := by
  refine .of_pack rfl ?_ room
  have := spans_div ha hb (by omega)
  rwa [sub_neg_eq_add] at this

/-- A double above zero. -/
theorem unpack_of_pos (pos : 0 < a) : a.toModel.unpack = .infinity .positive ∨
    ∃ m e p, a.toModel.unpack = .finite .positive m e p := by
  have zero : place 0 = some (toLex (0, toLex (0, 0))) := rfl
  rw [lt_iff, zero] at pos
  unfold place at pos
  rcases h : a.toModel.unpack with (_ | _) | _ | _ | ⟨_ | _, m, e, p⟩ <;> rw [h] at pos <;>
    simp [rank, Prod.Lex.toLex_lt_toLex] at pos ⊢
  exact p

theorem defined_of_onSide {s : Sign} (side : OnSide s a.toModel.unpack) : isNaN a = false := by
  rw [isNaN_eq, place]
  generalize a.toModel.unpack = u at side ⊢
  rcases u with (_ | _) | _ | _ | ⟨_ | _, m, e, _⟩ <;> first | rfl | exact side.elim

theorem UpTo.div_defined (ha : UpTo k a) (pos : 0 < b) : isNaN (a / b) = false := by
  obtain ⟨s, side⟩ := onSide_div ha.1 (unpack_of_pos pos)
  exact defined_of_onSide (onSide_unpack_pack side)

/-- A difference that is positive is one from below. -/
theorem le_of_sub_pos (hb : UpTo k b) (pos : 0 < a - b) : b ≤ a := by
  have da : isNaN a = false := Ordered.defined_of_sub (Ordered.defined_of_lt pos).2
  by_contra above
  obtain ⟨p, hp, q, hq, le⟩ := le_iff.mp (Ordered.le_of_not_le hb.defined da above)
  have side : OnSide .negative (UnpackedFloat.sub .binary64 a.toModel.unpack b.toModel.unpack) :=
    onSide_sub (canonical_unpack _) (canonical_unpack _) hb.1 hp hq le
  have nonpos : a - b ≤ 0 := nonpos_iff.mpr (onSide_unpack_pack side)
  exact absurd (Ordered.lt_of_lt_of_le pos nonpos) (by decide +kernel)

/-! ## Selections -/

theorem lesser_cases (ha : isNaN a = false) (b : Float) :
    b ≤ a ∧ lesser a b = b ∨ ¬ b ≤ a ∧ lesser a b = a := by
  unfold lesser
  rw [ha, if_neg Bool.false_ne_true]
  split
  next le => exact .inl ⟨le, rfl⟩
  next gt => exact .inr ⟨gt, rfl⟩

theorem greater_cases (ha : isNaN a = false) (b : Float) :
    a ≤ b ∧ greater a b = b ∨ ¬ a ≤ b ∧ greater a b = a := by
  unfold greater
  rw [ha, if_neg Bool.false_ne_true]
  split
  next le => exact .inl ⟨le, rfl⟩
  next gt => exact .inr ⟨gt, rfl⟩

theorem UpTo.lesser (ha : UpTo k a) (hb : UpTo k b) : UpTo k (lesser a b) := by
  rcases lesser_eq_or a b with h | h <;> rw [h]
  · exact ha
  · exact hb

theorem UpTo.greater (ha : UpTo k a) (hb : UpTo k b) : UpTo k (greater a b) := by
  rcases greater_eq_or a b with h | h <;> rw [h]
  · exact ha
  · exact hb

/-- A value held between two bounds of a grade is of that grade, even if it was undefined. -/
theorem upTo_limit (hl : UpTo k low) (hh : UpTo k high) (x : Float) :
    UpTo k (limit low high x) := by
  unfold limit
  cases hx : isNaN x with
  | true =>
    rw [lesser_of_isNaN hx]
    exact hh.greater hl
  | false =>
    rcases lesser_cases hx high with ⟨-, h⟩ | ⟨below, h⟩ <;> rw [h]
    · exact hh.greater hl
    · rcases greater_cases hx low with ⟨-, h⟩ | ⟨above, h⟩ <;> rw [h]
      · exact hl
      · exact hl.between hh (Ordered.le_of_not_le hx hl.defined above)
          (Ordered.le_of_not_le hh.defined hx below)

/-- A value of a grade keeps it when it is held between bounds that leave room for such values. -/
theorem upTo_limit_of_room (hx : UpTo k x) {bottom top : Float} (hb : UpTo k bottom)
    (ht : UpTo k top) (hl : ¬ top < low) (hh : ¬ high < bottom) : UpTo k (limit low high x) := by
  have cut : UpTo k (Quantity.lesser x high) := by
    rcases lesser_cases hx.defined high with ⟨below, h⟩ | ⟨-, h⟩ <;> rw [h]
    · have defined := (Signed.defined_of_le below).1
      exact hb.between hx (Ordered.le_of_not_lt defined hb.defined hh) below
    · exact hx
  unfold limit
  rcases greater_cases cut.defined low with ⟨above, h⟩ | ⟨-, h⟩ <;> rw [h]
  · have defined := (Signed.defined_of_le above).2
    exact cut.between ht above (Ordered.le_of_not_lt ht.defined defined hl)
  · exact cut

/-- A defined value stays defined whatever bounds hold it. -/
theorem limit_defined (hx : isNaN x = false) : isNaN (limit low high x) = false := by
  have cut : isNaN (lesser x high) = false := by
    rcases lesser_cases hx high with ⟨below, h⟩ | ⟨-, h⟩ <;> rw [h]
    · exact (Signed.defined_of_le below).1
    · exact hx
  unfold limit
  rcases greater_cases cut low with ⟨above, h⟩ | ⟨-, h⟩ <;> rw [h]
  · exact (Signed.defined_of_le above).2
  · exact cut

/-! ## Whole numbers -/

theorem upTo_ofNat {n : ℕ} (word : n ≤ 2 ^ 64) : UpTo 64 (Quantity.ofNat n) := by
  have size : (n : ℚ) ≤ 2 ^ (64 : ℤ) := by exact_mod_cast word
  show UpTo 64 (Float.ofScientific n false 0)
  unfold Float.ofScientific
  split
  next short =>
    have whole : n.toUInt64.toNat = n := Nat.mod_eq_of_lt (show n < 2 ^ 64 by omega)
    have counted : UpTo 64 n.toUInt64.toFloat := by
      refine .of_pack rfl (spans_normalize (by omega) _ ?_) (by omega)
      show |((n.toUInt64.toNat : ℤ) : ℚ) * 2 ^ (0 : ℤ)| ≤ _
      rw [whole, zpow_zero, mul_one, Int.cast_natCast, Nat.abs_cast]
      refine size.trans (le_add_of_nonneg_right ?_)
      positivity
    have one : UpTo 0 Float.exactlyRepresentablePowersOfTen[0] := by decide +kernel
    exact counted.mul one (by omega)
  · show UpTo 64 (Float.ofModel (Float.Model.pack (UnpackedFloat.ofScientific .binary64 n 0)))
    refine .of_pack rfl ?_ (by omega)
    unfold UnpackedFloat.ofScientific
    split
    · exact spans_zero _ _
    · have small : ¬ (0 : ℤ) < -(2 ^ Format.binary64.exponentBits + (n.log2 : ℤ)) := by
        have : (0 : ℤ) < 2 ^ Format.binary64.exponentBits := by positivity
        omega
      rw [if_neg (by decide), if_neg small, if_pos (by decide)]
      refine spans_mul (k := 64) (j := 0) ?_ ?_ (by omega)
      · rw [spans_finite, Nat.shiftLeft_eq]
        show ((n * 2 ^ 53 : ℕ) : ℚ) * 2 ^ (-53 : ℤ) ≤ 2 ^ (64 : ℤ)
        push_cast
        rw [mul_assoc]
        norm_num at size ⊢
        exact size
      · rw [spans_finite]
        norm_num

/-! ## The bound for what is given -/

theorem upTo_bound : UpTo 100 (1e30 : Float) := by decide +kernel

theorem upTo_of_mem (above : -1e30 ≤ x) (below : x ≤ 1e30) : UpTo 100 x :=
  (upTo_bound.neg (by omega)).between upTo_bound above below

theorem upTo_of_not_neg (nonneg : ¬ x < 0) (below : x ≤ 1e30) : UpTo 100 x :=
  (upTo_zero 100).between upTo_bound
    (Ordered.le_of_not_lt (Signed.defined_of_le below).1 (upTo_zero 0).defined nonneg) below

end Doubles

end UnitDispatch
