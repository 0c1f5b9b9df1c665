import UnitDispatch.Proofs.Monotone

/-! # Different quantities have a difference

Underflow is gradual: of two doubles that differ the larger less the smaller is above zero, however
close they are, since every double is a whole number of times the least positive one
(`whole_number`). So a clock that is taken to a later time is moved on. `Separated` states this law
with those on where an undefined result comes from, and doubles as well as exact quantities satisfy
them. There are fewer than `2 ^ 64` doubles, so that a clock cannot be moved on forever.
-/

namespace UnitDispatch

namespace Quantity

/-- A number type in which quantities that differ have a difference, and in which a sum or an
inverse is undefined only where the arguments are. -/
class Separated (α : Type) [Quantity α] : Prop extends Rounded α where
  sub_pos : ∀ {a b : α}, a < b → 0 < b - a
  defined_of_add_left : ∀ {a b : α}, isNaN (a + b) = false → isNaN a = false
  inverse_defined : ∀ {a : α}, isNaN a = false → isNaN (1 / a) = false

namespace Separated

variable {α : Type} [Quantity α] [Separated α] {a b : α}

/-- The sign of a difference says which of two quantities is the larger. -/
theorem sub_pos_iff : 0 < b - a ↔ a < b := by
  refine ⟨?_, sub_pos⟩
  intro positive
  have defined := (Ordered.defined_of_lt positive).2
  by_contra below
  have le : b ≤ a := Ordered.le_of_not_lt (Rounded.defined_of_sub_right defined)
    (Ordered.defined_of_sub defined) below
  exact Rounded.not_lt_of_le (Rounded.sub_nonpos le defined) positive

end Separated

end Quantity

open Quantity

/-! ## Exact quantities -/

namespace Exact

variable {K : Type} [Field K] [LinearOrder K] [IsStrictOrderedRing K]

instance : Separated (Exact K) where
  sub_pos := by
    intro a b lt
    cases a <;> cases b <;> simp_all
    all_goals exact fin_lt_posInf 0
  defined_of_add_left := by
    intro a b defined
    cases a <;> cases b <;> first | rfl | simp | cases defined
  inverse_defined := by
    intro a defined
    cases a with
    | fin x =>
      rw [one_eq]
      by_cases zero : x = 0
      · have top : (fin 1 / fin x : Exact K) = posInf := (if_pos zero).trans (if_pos one_pos)
        rw [top]
        exact Rounded.unbounded_defined
      · rw [fin_div _ zero]
        exact isNaN_fin _
    | posInf | negInf => exact isNaN_fin 0
    | nan => cases defined

end Exact

/-! ## Doubles -/

namespace Doubles

open Float.Model UnpackedFloat

/-- The least double above zero. -/
def least : Float := .ofModel (.pack (.finite .positive 1 (-1074) one_pos))

theorem unpack_least : least.toModel.unpack = .finite .positive 1 (-1074) one_pos :=
  (unpack_pack ⟨by norm_num, le_rfl, .inl rfl⟩).trans (if_pos (by norm_num))

/-- A finite double is a whole number of times the least one. -/
theorem whole_number {u : UnpackedFloat} (canonical : Canonical u) (finite : u.isFinite = true) :
    ∃ n : ℤ, number u = n * 2 ^ (-1074 : ℤ) := by
  obtain ⟨m, e, ⟨-, low, -⟩, number⟩ := exists_double canonical finite
  obtain ⟨i, rfl⟩ : ∃ i : ℕ, e = -1074 + i := ⟨(e + 1074).toNat, by omega⟩
  rw [← scale] at number
  rcases number with number | number
  · exact ⟨(m * 2 ^ i : ℕ), by rw [number, Int.cast_natCast]⟩
  · exact ⟨-(m * 2 ^ i : ℕ), by rw [number, Int.cast_neg, Int.cast_natCast, neg_mul]⟩

/-- Two finite doubles that differ are the least one apart, or more. -/
theorem apart {u v : UnpackedFloat} (cu : Canonical u) (cv : Canonical v)
    (fu : u.isFinite = true) (fv : v.isFinite = true) (lt : number u < number v) :
    (2 : ℚ) ^ (-1074 : ℤ) ≤ number v + number u.neg := by
  obtain ⟨n, hn⟩ := whole_number cu fu
  obtain ⟨m, hm⟩ := whole_number cv fv
  have unit : (0 : ℚ) < 2 ^ (-1074 : ℤ) := by positivity
  rw [hn, hm, mul_lt_mul_iff_left₀ unit, Int.cast_lt] at lt
  have one : (1 : ℚ) ≤ m - n := by exact_mod_cast Int.le_sub_left_of_add_le lt
  rw [number_neg, hn, hm, ← sub_eq_add_neg, ← sub_mul]
  exact le_mul_of_one_le_left unit.le one

/-- Where one of two doubles that differ is unbounded, so is their difference. -/
theorem sub_unbounded {u v : UnpackedFloat} {x y : ℤ ×ₗ ℤ ×ₗ ℤ} (hx : x ∈ rank u) (hy : y ∈ rank v)
    (less : x < y) (finite : ¬ (u.isFinite = true ∧ v.isFinite = true)) :
    UnpackedFloat.sub .binary64 v u = .infinity .positive := by
  rcases u with (_ | _) | _ | _ | ⟨_ | _, m, e, _⟩ <;>
    rcases v with (_ | _) | _ | _ | ⟨_ | _, m', e', _⟩ <;>
    first
    | rfl
    | exact absurd ⟨rfl, rfl⟩ finite
    | (cases hx; done)
    | (cases hy; done)
    | (cases hx
       cases hy
       exact absurd less (by simp [Prod.Lex.toLex_lt_toLex]))

/-- The larger of two doubles less the smaller is above zero. -/
theorem zero_lt_sub {a b : Float} (lt : a < b) : 0 < b - a := by
  obtain ⟨x, hx, y, hy, less⟩ := lt_iff.mp lt
  change x ∈ rank a.toModel.unpack at hx
  change y ∈ rank b.toModel.unpack at hy
  by_cases finite : a.toModel.unpack.isFinite = true ∧ b.toModel.unpack.isFinite = true
  · obtain ⟨fa, fb⟩ := finite
    have ca := canonical_unpack a.toModel.toBits.toBitVec
    have cb := canonical_unpack b.toModel.toBits.toBitVec
    have rounds := rounds_add cb (canonical_neg ca) fb ((isFinite_neg _).trans fa)
    have gap := apart ca cb fa fb (number_lt ca cb fa fb hx hy less)
    have unit : number least.toModel.unpack = 2 ^ (-1074 : ℤ) := by
      rw [unpack_least]
      simp [number, Sign.apply]
    have above : least ≤ b - a := by
      have fl : least.toModel.unpack.isFinite = true := by rw [unpack_least]; rfl
      rw [← unit] at gap
      rw [le_iff_unpack, toModel_sub, sub_eq]
      exact (side_pack fl rounds.canonical rounds.finite).1
        (rounds.above (canonical_unpack _) fl gap)
    exact Ordered.lt_of_lt_of_le (by decide +kernel) above
  · have top : place (b - a) = some (toLex (2, toLex (0, 0))) := by
      unfold place
      rw [toModel_sub, sub_unbounded hx hy less finite]
      rfl
    exact lt_iff.mpr ⟨_, rfl, _, top, by decide⟩

/-- The inverse of a double lies on the side of its sign. -/
theorem onSide_inverse {m : ℕ} {e : ℤ} {p : 0 < m} {u : UnpackedFloat} (defined : u ≠ .notANumber) :
    ∃ s, OnSide s (UnpackedFloat.div .binary64 (.finite .positive m e p) u) := by
  cases u with
  | notANumber => exact absurd rfl defined
  | infinity => exact ⟨.positive, trivial⟩
  | zero => exact ⟨_, rfl⟩
  | finite => exact ⟨_, onSide_round _ _ _ _⟩

instance : Separated Float where
  sub_pos := zero_lt_sub
  defined_of_add_left := by
    intro a b defined
    rw [defined_iff] at defined ⊢
    intro undefined
    have lost : UnpackedFloat.add .binary64 .notANumber b.toModel.unpack = .notANumber := by
      cases b.toModel.unpack <;> rfl
    rw [toModel_add, undefined, lost] at defined
    exact defined rfl
  inverse_defined := by
    intro a defined
    rw [defined_iff] at defined
    obtain ⟨s, side⟩ := onSide_inverse (m := 2 ^ 52) (e := -52) (p := by norm_num) defined
    exact defined_of_onSide (onSide_unpack_pack (s := s) side)

/-- The word that a double is, as a number. -/
def word (x : Float) : Fin UInt64.size := x.toModel.toBits.toFin

theorem word_injective : Function.Injective word := by
  rintro ⟨⟨b, _⟩⟩ ⟨⟨c, _⟩⟩ eq
  obtain rfl : b = c := UInt64.toFin_inj.mp eq
  rfl

instance finite : Finite Float := .of_injective word word_injective

/-- There are no more doubles than words. -/
theorem ncard_le (s : Set Float) : s.ncard ≤ UInt64.size := by
  calc s.ncard ≤ Nat.card Float := Set.ncard_le_card s
    _ ≤ Nat.card (Fin UInt64.size) := Nat.card_le_card_of_injective word word_injective
    _ = UInt64.size := Nat.card_fin _

end Doubles

end UnitDispatch
