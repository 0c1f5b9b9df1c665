import Mathlib
import UnitDispatch.Proofs.Arithmetic

/-! # The rule of signs

Doubles follow the rule of signs: negation, products and packing keep to the side of zero that their
arguments give them. So a band around zero is one in the running program too.
-/

namespace UnitDispatch

open Quantity

namespace Doubles

open Float.Model UnpackedFloat

/-- On one side of zero, or zero itself. -/
def OnSide (s : Sign) : UnpackedFloat → Prop
  | .notANumber => False
  | .zero _ => True
  | .infinity t | .finite t _ _ _ => t = s

theorem unpackSign_packComponents (s : Sign) (e : BitVec 11) (m : BitVec 52) :
    Sign.ofBitVec (unpackSign (packComponents .binary64 s e m)) = s := by
  change Sign.ofBitVec (BitVec.extractLsb' 63 1 (s.toBitVec ++ e ++ m)) = s
  rw [BitVec.extractLsb'_append_eq_of_le (by omega),
    BitVec.extractLsb'_append_eq_of_le (by omega)]
  cases s <;> rfl

/-- A word whose exponent is not the highest stands for a finite value of its sign. -/
theorem unpack_packComponents (s : Sign) {e : BitVec Format.binary64.exponentBits}
    (m : BitVec Format.binary64.mantissaBitsWithoutImplicit) (low : e ≠ -1#_) :
    OnSide s (unpack .binary64 (packComponents .binary64 s e m)) ∧
      (unpack .binary64 (packComponents .binary64 s e m)).isFinite = true := by
  unfold UnpackedFloat.unpack
  simp only [unpackMantissa_packComponents, unpackExponent_packComponents,
    unpackSign_packComponents, if_neg low]
  split
  · split
    · exact ⟨trivial, rfl⟩
    · exact ⟨rfl, rfl⟩
  · exact ⟨rfl, rfl⟩

theorem biased_ne {n : Nat} (low : ¬ 2 ^ Format.binary64.exponentBits ≤ n + 1) :
    BitVec.ofNat Format.binary64.exponentBits n ≠ -1#_ := by
  intro eq
  have same := congrArg BitVec.toNat eq
  have small : n < 2 ^ 11 - 1 := by
    change ¬ 2 ^ 11 ≤ n + 1 at low
    omega
  change n % 2 ^ 11 = 2 ^ 11 - 1 at same
  rw [Nat.mod_eq_of_lt (by omega)] at same
  omega

/-- Packing keeps the side. -/
theorem onSide_unpack_pack {s : Sign} {u : UnpackedFloat} (side : OnSide s u) :
    OnSide s (unpack .binary64 (UnpackedFloat.pack .binary64 u)) := by
  cases u with
  | notANumber => exact side.elim
  | infinity t =>
    obtain rfl := side
    cases t <;> rfl
  | zero t => cases t <;> exact trivial
  | finite t m e positive =>
    obtain rfl := side
    unfold UnpackedFloat.pack
    dsimp only
    split
    · cases t <;> rfl
    next low =>
      split
      · exact (unpack_packComponents t _ (biased_ne low)).1
      · exact (unpack_packComponents t _ (by decide)).1

/-- A product lies on the side its factors say, rounded as it is. -/
theorem onSide_mul {s t : Sign} {u v : UnpackedFloat} (hu : OnSide s u) (hv : OnSide t v)
    (fu : u.isFinite = true) (fv : v.isFinite = true) :
    OnSide (s * t) (UnpackedFloat.mul .binary64 u v) := by
  cases u with
  | notANumber | infinity => cases fu
  | zero => cases v with
    | notANumber | infinity => cases fv
    | zero | finite => exact trivial
  | finite => cases v with
    | notANumber | infinity => cases fv
    | zero => exact trivial
    | finite =>
      obtain rfl := hu
      obtain rfl := hv
      unfold UnpackedFloat.mul roundWithAccuracy
      dsimp only
      split
      · exact trivial
      · exact rfl

theorem onSide_neg {s : Sign} {u : UnpackedFloat} (hu : OnSide s u) : OnSide (-s) u.neg := by
  cases u with
  | notANumber => exact hu.elim
  | zero => exact trivial
  | infinity | finite =>
    obtain rfl := hu
    rfl

/-- The exponent of a finite word is not the highest. -/
theorem exponent_of_unpack {b : BitVec Format.binary64.numBits} {s : Sign} {m : Nat} {e : Int}
    {positive : 0 < m} (h : unpack .binary64 b = .finite s m e positive) :
    ¬ 2 ^ Format.binary64.exponentBits ≤ (e + Format.binary64.exponentBias +
      Format.binary64.mantissaBitsWithoutImplicit).toNat + 1 := by
  have bias : ((Format.binary64.exponentBias : Nat) : Int) = 1023 := rfl
  have width : ((Format.binary64.mantissaBitsWithoutImplicit : Nat) : Int) = 52 := rfl
  have bound : (unpackExponent b).toNat < 2 ^ 11 := (unpackExponent b).isLt
  unfold UnpackedFloat.unpack at h
  dsimp only at h
  rw [bias, width]
  change ¬ 2 ^ 11 ≤ _
  split at h
  · split at h <;> cases h
  next low =>
    have low : (unpackExponent b).toNat ≠ 2 ^ 11 - 1 := fun eq => low (BitVec.eq_of_toNat_eq eq)
    split at h
    next zero =>
      have zero : (unpackExponent b).toNat = 0 := congrArg BitVec.toNat zero
      split at h
      · cases h
      · injection h with _ _ exponent
        rw [bias, width] at exponent
        omega
    · injection h with _ _ exponent
      rw [bias, width] at exponent
      omega

/-- Negation keeps a word finite. -/
theorem isFinite_unpack_pack_neg {b : BitVec Format.binary64.numBits}
    (finite : (unpack .binary64 b).isFinite = true) :
    (unpack .binary64 (UnpackedFloat.pack .binary64 (unpack .binary64 b).neg)).isFinite = true := by
  cases h : unpack .binary64 b with
  | notANumber | infinity =>
    rw [h] at finite
    cases finite
  | zero s => cases s <;> rfl
  | finite s m e positive =>
    have low := exponent_of_unpack h
    unfold UnpackedFloat.neg UnpackedFloat.pack
    dsimp only
    rw [if_neg low]
    split
    · exact (unpack_packComponents (-s) _ (biased_ne low)).2
    · exact (unpack_packComponents (-s) _ (by decide)).2

theorem nonneg_iff {a : Float} : 0 ≤ a ↔ OnSide .positive a.toModel.unpack := by
  have zero : place 0 = some (toLex (0, toLex (0, 0))) := rfl
  rw [le_iff, zero]
  unfold place
  rcases a.toModel.unpack with (_ | _) | _ | _ | ⟨_ | _, m, e, _⟩ <;>
    simp [rank, OnSide, Prod.Lex.toLex_le_toLex]

theorem nonpos_iff {a : Float} : a ≤ 0 ↔ OnSide .negative a.toModel.unpack := by
  have zero : place 0 = some (toLex (0, toLex (0, 0))) := rfl
  rw [le_iff, zero]
  unfold place
  rcases a.toModel.unpack with (_ | _) | _ | _ | ⟨_ | _, m, e, _⟩ <;>
    simp [rank, OnSide, Prod.Lex.toLex_le_toLex]

theorem isFinite_eq (a : Float) : Quantity.isFinite a = a.toModel.unpack.isFinite := by
  have top : place (Quantity.unbounded : Float) = some (toLex (2, toLex (0, 0))) := rfl
  have bottom : place (-Quantity.unbounded : Float) = some (toLex (-2, toLex (0, 0))) := rfl
  unfold Quantity.isFinite
  rw [Bool.eq_iff_iff, Bool.and_eq_true, decide_eq_true_iff, decide_eq_true_iff, lt_iff, lt_iff,
    top, bottom]
  unfold place
  rcases a.toModel.unpack with (_ | _) | _ | _ | ⟨_ | _, m, e, _⟩ <;>
    simp [rank, UnpackedFloat.isFinite, Prod.Lex.toLex_lt_toLex]

instance : Signed Float where
  defined_of_le := by
    intro a b le
    obtain ⟨x, hx, y, hy, -⟩ := le_iff.mp le
    rw [isNaN_eq, isNaN_eq, Option.mem_def.mp hx, Option.mem_def.mp hy]
    exact ⟨rfl, rfl⟩
  zero_le_one := by decide +kernel
  isFinite_zero := by decide +kernel
  isFinite_one := by decide +kernel
  isFinite_neg := by
    intro a finite
    rw [isFinite_eq] at finite ⊢
    exact isFinite_unpack_pack_neg finite
  neg_nonpos := by
    intro a nonneg
    exact nonpos_iff.mpr (onSide_unpack_pack (onSide_neg (nonneg_iff.mp nonneg)))
  mul_nonneg := by
    intro a b fa fb ha hb
    rw [isFinite_eq] at fa fb
    exact nonneg_iff.mpr
      (onSide_unpack_pack (onSide_mul (nonneg_iff.mp ha) (nonneg_iff.mp hb) fa fb))
  mul_nonpos := by
    intro a b fa fb ha hb
    rw [isFinite_eq] at fa fb
    exact nonpos_iff.mpr
      (onSide_unpack_pack (onSide_mul (nonpos_iff.mp ha) (nonneg_iff.mp hb) fa fb))

end Doubles

end UnitDispatch
