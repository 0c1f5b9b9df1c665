import Mathlib
import UnitDispatch.Proofs.Sign

/-! # How doubles are rounded

What rounding leaves of a bound: a double stands for a number (`number`), and a result whose exact
value does not pass a power of two stays within it when it is rounded (`spans_round`) and packed
(`Spans.pack`). For a sum a little more is true, as rounding is to the nearest: what hardly passes
the power is cut back to it (`spans_add`).
-/

namespace UnitDispatch

namespace Doubles

open Float.Model UnpackedFloat

/-- The number that a double stands for, none where it is not finite. -/
def number : UnpackedFloat → ℚ
  | .finite s m e _ => (s.apply m : ℤ) * 2 ^ e
  | _ => 0

/-- Finite, and no larger than a power of two. -/
def Spans (k : ℤ) (u : UnpackedFloat) : Prop := u.isFinite = true ∧ |number u| ≤ 2 ^ k

instance (k : ℤ) (u : UnpackedFloat) : Decidable (Spans k u) :=
  inferInstanceAs (Decidable (u.isFinite = true ∧ |number u| ≤ 2 ^ k))

theorem abs_apply (s : Sign) (m : ℕ) : |s.apply (m : ℤ)| = m := by
  cases s
  · show |-(m : ℤ)| = m
    simp
  · show |(m : ℤ)| = m
    simp

theorem abs_number (s : Sign) (m : ℕ) (e : ℤ) (positive : 0 < m) :
    |number (.finite s m e positive)| = (m : ℚ) * 2 ^ e := by
  have pow : (0 : ℚ) < 2 ^ e := by positivity
  show |((s.apply m : ℤ) : ℚ) * 2 ^ e| = _
  rw [abs_mul, abs_of_pos pow, ← Int.cast_abs, abs_apply, Int.cast_natCast]

theorem spans_finite {k : ℤ} {s : Sign} {m : ℕ} {e : ℤ} {positive : 0 < m} :
    Spans k (.finite s m e positive) ↔ (m : ℚ) * 2 ^ e ≤ 2 ^ k := by
  unfold Spans
  rw [abs_number]
  exact ⟨And.right, fun h => ⟨rfl, h⟩⟩

theorem spans_zero (k : ℤ) (s : Sign) : Spans k (.zero s) := by
  refine ⟨rfl, ?_⟩
  show |(0 : ℚ)| ≤ 2 ^ k
  rw [abs_zero]
  positivity

theorem Spans.mono {k j : ℤ} {u : UnpackedFloat} (spans : Spans k u) (le : k ≤ j) : Spans j u :=
  ⟨spans.1, spans.2.trans (zpow_le_zpow_right₀ (by norm_num) le)⟩

/-! ## Rounding -/

theorem mantissa_shiftRight (em : ExtendedMantissa) (n : ℕ) :
    (em >>> n).mantissa = em.mantissa / 2 ^ n := by
  induction n with
  | zero => exact (Nat.div_one _).symm
  | succ n ih =>
    show (em >>> n).mantissa / 2 = _
    rw [ih, Nat.div_div_eq_div_mul, pow_succ]

/-- The bit that decides on rounding is set only by half a unit or more. -/
theorem half_of_roundBit {em : ExtendedMantissa} (whole : em.roundBit = false) {n : ℕ}
    (up : (em >>> n).roundBit = true) : 2 ^ n ≤ 2 * (em.mantissa % 2 ^ n) := by
  cases n with
  | zero => exact absurd (whole.symm.trans up) Bool.false_ne_true
  | succ n =>
    change ((em >>> n).mantissa % 2 != 0) = true at up
    rw [mantissa_shiftRight] at up
    have odd : em.mantissa / 2 ^ n % 2 = 1 := by
      have := bne_iff_ne.mp up
      omega
    rw [Nat.mod_pow_succ, odd, pow_succ]
    omega

theorem roundedMantissa_le (em : ExtendedMantissa) : em.roundedMantissa ≤ em.mantissa + 1 := by
  obtain ⟨m, _ | _, _ | _⟩ := em <;>
    simp only [ExtendedMantissa.roundedMantissa, ExtendedMantissa.accuracy,
      Accuracy.roundToNearestEven] <;>
    omega

theorem roundedMantissa_eq {em : ExtendedMantissa} (down : em.roundBit = false) :
    em.roundedMantissa = em.mantissa := by
  obtain ⟨m, _ | _, _ | _⟩ := em <;> first | rfl | cases down

/-- What is cut off an exact number is rounded to the nearest. -/
theorem roundedMantissa_exact (m n : ℕ) :
    2 * ((ExtendedMantissa.ofMantissaAndAccuracy m .exact >>> n).roundedMantissa * 2 ^ n) ≤
      2 * m + 2 ^ n := by
  let em := ExtendedMantissa.ofMantissaAndAccuracy m .exact
  have floor : (em >>> n).mantissa = m / 2 ^ n := mantissa_shiftRight em n
  have split : m / 2 ^ n * 2 ^ n + m % 2 ^ n = m := Nat.div_add_mod' m (2 ^ n)
  show 2 * ((em >>> n).roundedMantissa * 2 ^ n) ≤ _
  cases up : (em >>> n).roundBit with
  | false =>
    rw [roundedMantissa_eq up, floor]
    omega
  | true =>
    have half : 2 ^ n ≤ 2 * (m % 2 ^ n) := half_of_roundBit rfl up
    have above := Nat.mul_le_mul_right (2 ^ n) (roundedMantissa_le (em >>> n))
    rw [floor, Nat.add_mul, Nat.one_mul] at above
    omega

theorem mantissa_ofMantissaAndAccuracy (m : ℕ) (acc : Accuracy) :
    (ExtendedMantissa.ofMantissaAndAccuracy m acc).mantissa = m := by
  obtain _ | (_ | _ | _) := acc <;> rfl

/-- The exponent that rounding aims at. -/
theorem targetExponent_eq (m : ℕ) (e : ℤ) :
    Format.binary64.targetExponent (totalExponent m e) = max ((m.log2 : ℤ) + e - 52) (-1074) := by
  show max ((m.log2 : ℤ) + 1 + e - ((1 + 52 : ℕ) : ℤ)) (3 - 2 ^ (11 - 1) - ((1 + 52 : ℕ) : ℤ)) = _
  norm_num
  omega

/-- Below a power of two the carry goes no further than to that power. -/
theorem rounded_of_lt {m n j : ℕ} (acc : Accuracy) (below : m < 2 ^ (j + n)) :
    (ExtendedMantissa.ofMantissaAndAccuracy m acc >>> n).roundedMantissa ≤ 2 ^ j := by
  have floor := mantissa_shiftRight (ExtendedMantissa.ofMantissaAndAccuracy m acc) n
  rw [mantissa_ofMantissaAndAccuracy] at floor
  have short : m / 2 ^ n < 2 ^ j := Nat.div_lt_of_lt_mul (by rwa [← pow_add, add_comm])
  have carry := roundedMantissa_le (ExtendedMantissa.ofMantissaAndAccuracy m acc >>> n)
  omega

/-- An exact number no more than a quarter of a unit above a power of two is rounded to it. -/
theorem rounded_of_near {m n j : ℕ} (near : 4 * m ≤ 4 * 2 ^ (j + n) + 2 ^ n) :
    (ExtendedMantissa.ofMantissaAndAccuracy m .exact >>> n).roundedMantissa ≤ 2 ^ j := by
  have nearest := roundedMantissa_exact m n
  generalize (ExtendedMantissa.ofMantissaAndAccuracy m .exact >>> n).roundedMantissa = r
    at nearest ⊢
  by_contra! above
  have next : (2 ^ j + 1) * 2 ^ n ≤ r * 2 ^ n := Nat.mul_le_mul_right _ above
  rw [Nat.add_mul, ← pow_add, Nat.one_mul] at next
  have unit := Nat.two_pow_pos n
  omega

/-- A number below a power of two has its leading bit below that power. -/
theorem log2_le {k e : ℤ} {m : ℕ} (positive : 0 < m) (size : (m : ℚ) * 2 ^ e < 2 ^ (k + 1)) :
    (m.log2 : ℤ) + e ≤ k := by
  have floor : ((2 ^ m.log2 : ℕ) : ℚ) ≤ m := Nat.cast_le.mpr (Nat.log2_self_le positive.ne')
  have top : (2 : ℚ) ^ ((m.log2 : ℤ) + e) < 2 ^ (k + 1) := by
    rw [zpow_add₀ two_ne_zero, zpow_natCast]
    refine lt_of_le_of_lt ?_ size
    push_cast at floor
    gcongr
  have := (zpow_lt_zpow_iff_right₀ (by norm_num : (1 : ℚ) < 2)).mp top
  omega

/-- A number not below a power of two has its leading bit there or above. -/
theorem le_log2 {k e : ℤ} {m : ℕ} (size : (2 : ℚ) ^ k ≤ m * 2 ^ e) : k ≤ (m.log2 : ℤ) + e := by
  have ceiling : (m : ℚ) < ((2 ^ (m.log2 + 1) : ℕ) : ℚ) := Nat.cast_lt.mpr Nat.lt_log2_self
  have top : (2 : ℚ) ^ k < 2 ^ (((m.log2 + 1 : ℕ) : ℤ) + e) := by
    rw [zpow_add₀ two_ne_zero, zpow_natCast]
    refine lt_of_le_of_lt size ?_
    push_cast at ceiling
    gcongr
  have := (zpow_lt_zpow_iff_right₀ (by norm_num : (1 : ℚ) < 2)).mp top
  push_cast at this
  omega

/-- Where rounding ends up: not above the power of two that bounds the number. -/
theorem targetExponent_le {k e : ℤ} {m : ℕ} (deep : -1074 ≤ k) (he : e ≤ k)
    (size : (m : ℚ) * 2 ^ e < 2 ^ (k + 1)) :
    Format.binary64.targetExponent (totalExponent m e) ≤ k := by
  rw [targetExponent_eq]
  refine max_le ?_ deep
  rcases Nat.eq_zero_or_pos m with rfl | positive
  · simp only [Nat.log2_zero, Nat.cast_zero]
    omega
  · have := log2_le positive size
    omega

/-- And not far below it, if the number reaches that power. -/
theorem le_targetExponent {k e : ℤ} {m : ℕ} (size : (2 : ℚ) ^ k ≤ m * 2 ^ e) :
    k - 52 ≤ Format.binary64.targetExponent (totalExponent m e) := by
  rw [targetExponent_eq]
  have := le_log2 size
  exact le_max_of_le_left (by omega)

/-- The part of the rounding that comes before a carry: it stays below a power of two if the
number does, and an exact number may even lie a little above. -/
theorem rounded_size {k : ℤ} (deep : -1074 ≤ k) {m : ℕ} {e : ℤ} {acc : Accuracy} (he : e ≤ k)
    (size : (m : ℚ) * 2 ^ e < 2 ^ k ∨ acc = .exact ∧ (m : ℚ) * 2 ^ e ≤ 2 ^ k + 2 ^ (k - 54)) :
    ((shiftToTargetExponent .binary64 m e acc).1.roundedMantissa : ℚ) *
      2 ^ (shiftToTargetExponent .binary64 m e acc).2 ≤ 2 ^ k := by
  have slack : (2 : ℚ) ^ (k - 54) < 2 ^ k := zpow_lt_zpow_right₀ (by norm_num) (by omega)
  have double : (2 : ℚ) ^ (k + 1) = 2 ^ k + 2 ^ k := by
    rw [zpow_add_one₀ two_ne_zero]
    ring
  have positive : (0 : ℚ) < 2 ^ k := by positivity
  have top := targetExponent_le deep he (m := m) (by rcases size with h | ⟨-, h⟩ <;> linarith)
  obtain ⟨n, hn⟩ : ∃ n, n = (Format.binary64.targetExponent (totalExponent m e) - e).toNat :=
    ⟨_, rfl⟩
  obtain ⟨j, hj⟩ : ∃ j : ℕ, k = j + (e + n) := ⟨(k - (e + n)).toNat, by omega⟩
  have scale : (2 : ℚ) ^ k = ((2 ^ (j + n) : ℕ) : ℚ) * 2 ^ e := by
    rw [hj, ← add_assoc, add_right_comm, zpow_add₀ two_ne_zero]
    push_cast [← zpow_natCast]
    rfl
  show (((ExtendedMantissa.ofMantissaAndAccuracy m acc >>>
    (Format.binary64.targetExponent (totalExponent m e) - e).toNat).roundedMantissa : ℕ) : ℚ) *
      2 ^ (e + ((Format.binary64.targetExponent (totalExponent m e) - e).toNat : ℤ)) ≤ 2 ^ k
  rw [← hn]
  suffices rounded :
      (ExtendedMantissa.ofMantissaAndAccuracy m acc >>> n).roundedMantissa ≤ 2 ^ j by
    rw [hj, zpow_add₀ two_ne_zero (j : ℤ), zpow_natCast]
    have rounded : ((ExtendedMantissa.ofMantissaAndAccuracy m acc >>> n).roundedMantissa : ℚ) ≤
        2 ^ j := by exact_mod_cast rounded
    gcongr
  have pow : (0 : ℚ) < 2 ^ e := by positivity
  by_cases below : (m : ℚ) * 2 ^ e < 2 ^ k
  · rw [scale, mul_lt_mul_iff_left₀ pow, Nat.cast_lt] at below
    exact rounded_of_lt acc below
  · obtain ⟨rfl, near⟩ := size.resolve_left below
    have reach := le_targetExponent (not_lt.mp below)
    refine rounded_of_near ?_
    have quarter : 4 * (2 : ℚ) ^ (k - 54) ≤ ((2 ^ n : ℕ) : ℚ) * 2 ^ e := by
      have four : (4 : ℚ) * 2 ^ (k - 54) = 2 ^ (k - 52) := by
        rw [show k - 52 = 2 + (k - 54) by ring, zpow_add₀ two_ne_zero]
        norm_num
      rw [four]
      push_cast [← zpow_natCast]
      rw [← zpow_add₀ two_ne_zero]
      exact zpow_le_zpow_right₀ (by norm_num) (by omega)
    have : (4 * (m : ℚ)) * 2 ^ e ≤ ((4 * 2 ^ (j + n) + 2 ^ n : ℕ) : ℚ) * 2 ^ e := by
      push_cast at scale quarter ⊢
      linarith
    exact_mod_cast le_of_mul_le_mul_right this pow

/-- Rounding keeps a power of two for a bound. -/
theorem spans_round {k : ℤ} (deep : -1074 ≤ k) {m : ℕ} {e : ℤ} {acc : Accuracy} (s : Sign)
    (he : e ≤ k)
    (size : (m : ℚ) * 2 ^ e < 2 ^ k ∨ acc = .exact ∧ (m : ℚ) * 2 ^ e ≤ 2 ^ k + 2 ^ (k - 54)) :
    Spans k (roundWithAccuracy .binary64 s m e acc) := by
  have first := rounded_size deep he size
  unfold roundWithAccuracy
  generalize shiftToTargetExponent .binary64 m e acc = shifted at first
  obtain ⟨em, e₁⟩ := shifted
  dsimp only at first ⊢
  obtain ⟨n, hn⟩ : ∃ n, n =
      (Format.binary64.targetExponent (totalExponent em.roundedMantissa e₁) - e₁).toNat := ⟨_, rfl⟩
  have floor : (shiftToTargetExponent .binary64 em.roundedMantissa e₁ .exact).1.mantissa =
      em.roundedMantissa / 2 ^ n := by
    rw [hn]
    exact mantissa_shiftRight _ _
  have exponent : (shiftToTargetExponent .binary64 em.roundedMantissa e₁ .exact).2 = e₁ + n := by
    rw [hn]
    rfl
  split
  · exact spans_zero k s
  · rw [spans_finite, floor, exponent, zpow_add₀ two_ne_zero, mul_left_comm, zpow_natCast]
    refine le_trans ?_ first
    have cut : ((em.roundedMantissa / 2 ^ n * 2 ^ n : ℕ) : ℚ) ≤ em.roundedMantissa :=
      Nat.cast_le.mpr (Nat.div_mul_le_self _ _)
    push_cast at cut
    rw [mul_comm]
    gcongr

/-! ## Packing -/

/-- A word with the lowest exponent stands for a number below all others. -/
theorem spans_subnormal {k : ℤ} (low : -1022 ≤ k) (s : Sign)
    (m : BitVec Format.binary64.mantissaBitsWithoutImplicit) :
    Spans k (unpack .binary64 (packComponents .binary64 s 0#_ m)) := by
  unfold UnpackedFloat.unpack
  simp only [unpackMantissa_packComponents, unpackExponent_packComponents]
  rw [if_neg (by decide), if_pos trivial]
  split
  · exact spans_zero k _
  · rw [spans_finite]
    have small : (m.toNat : ℚ) ≤ 2 ^ (52 : ℤ) := by exact_mod_cast m.isLt.le
    calc (m.toNat : ℚ) * 2 ^ (-1074 : ℤ) ≤ 2 ^ (52 : ℤ) * 2 ^ (-1074 : ℤ) := by gcongr
      _ = 2 ^ (-1022 : ℤ) := by rw [← zpow_add₀ two_ne_zero]; norm_num
      _ ≤ 2 ^ k := zpow_le_zpow_right₀ (by norm_num) low

/-- The leading bit that a word leaves out. -/
theorem toNat_implicit (m : BitVec Format.binary64.mantissaBitsWithoutImplicit) :
    (1#1 ++ m).toNat = 2 ^ 52 + m.toNat := by
  have small : m.toNat < 2 ^ 52 := m.isLt
  rw [BitVec.toNat_append, ← Nat.shiftLeft_add_eq_or_of_lt small]
  rfl

/-- The word of a number with all 53 bits stands for that number. -/
theorem unpack_normal (s : Sign) {m n : ℕ} (full : m.log2 = 52) (some : 0 < n) (low : n < 2047)
    (positive : 0 < m) :
    unpack .binary64 (packComponents .binary64 s (BitVec.ofNat _ n) (BitVec.ofNat _ m)) =
      .finite s m (n - 1075) positive := by
  obtain ⟨least, most⟩ := (Nat.log2_eq_iff positive.ne').mp full
  have exponent : (BitVec.ofNat Format.binary64.exponentBits n).toNat = n :=
    Nat.mod_eq_of_lt (by show n < 2 ^ 11; omega)
  have mantissa :
      (1#1 ++ BitVec.ofNat Format.binary64.mantissaBitsWithoutImplicit m).toNat = m := by
    rw [toNat_implicit]
    show 2 ^ 52 + m % 2 ^ 52 = m
    omega
  unfold UnpackedFloat.unpack
  simp only [unpackMantissa_packComponents, unpackExponent_packComponents,
    unpackSign_packComponents, mantissa, exponent]
  have notTop : BitVec.ofNat Format.binary64.exponentBits n ≠ -1#_ := by
    intro eq
    rw [eq] at exponent
    change 2047 = n at exponent
    omega
  have notBottom : BitVec.ofNat Format.binary64.exponentBits n ≠ 0#_ := by
    intro eq
    rw [eq] at exponent
    change 0 = n at exponent
    omega
  rw [if_neg notTop, if_neg notBottom]
  rfl

/-- Packing keeps a power of two for a bound, unless it is too small or too large. -/
theorem Spans.pack {k : ℤ} {u : UnpackedFloat} (spans : Spans k u) (low : -1022 ≤ k)
    (high : k ≤ 971) : Spans k (unpack .binary64 (UnpackedFloat.pack .binary64 u)) := by
  cases u with
  | notANumber | infinity => cases spans.1
  | zero s =>
    cases s
    · exact spans_zero k .negative
    · exact spans_zero k .positive
  | finite s m e positive =>
    have size := spans_finite.mp spans
    have he : e ≤ k := by
      have one : (1 : ℚ) ≤ m := by exact_mod_cast positive
      have pow : (0 : ℚ) < 2 ^ e := by positivity
      refine (zpow_le_zpow_iff_right₀ (by norm_num : (1 : ℚ) < 2)).mp (le_trans ?_ size)
      exact le_mul_of_one_le_left pow.le one
    unfold UnpackedFloat.pack
    dsimp only
    change Spans k (unpack .binary64 (if 2 ^ 11 ≤ (e + 1023 + 52).toNat + 1 then _ else
      if m.log2 + 1 = 53 then _ else _))
    rw [if_neg (by omega)]
    split
    next full =>
      by_cases deep : (e + 1023 + 52).toNat = 0
      · change Spans k (unpack .binary64 (packComponents .binary64 s
          (BitVec.ofNat _ (e + 1023 + 52).toNat) (BitVec.ofNat _ m)))
        rw [deep]
        exact spans_subnormal low s _
      · change Spans k (unpack .binary64 (packComponents .binary64 s
          (BitVec.ofNat _ (e + 1023 + 52).toNat) (BitVec.ofNat _ m)))
        rw [unpack_normal s (by omega) (by omega) (by omega) positive, spans_finite]
        rwa [show ((e + 1023 + 52).toNat : ℤ) - 1075 = e by omega]
    · exact spans_subnormal low s _

/-! ## The shape of a double -/

/-- The mantissa has no more than 53 bits, and no fewer unless the exponent is the lowest. -/
def Canonical : UnpackedFloat → Prop
  | .finite _ m e _ => m < 2 ^ 53 ∧ -1074 ≤ e ∧ (e = -1074 ∨ 2 ^ 52 ≤ m)
  | _ => True

theorem canonical_unpack (b : BitVec Format.binary64.numBits) : Canonical (unpack .binary64 b) := by
  have small : (unpackMantissa b).toNat < 2 ^ 52 := (unpackMantissa b).isLt
  have bias : ((Format.binary64.exponentBias : Nat) : Int) = 1023 := rfl
  have width : ((Format.binary64.mantissaBitsWithoutImplicit : Nat) : Int) = 52 := rfl
  unfold UnpackedFloat.unpack
  dsimp only
  split
  · split <;> exact trivial
  · split
    next zero =>
      split
      · exact trivial
      · rw [zero, bias, width]
        exact ⟨by omega, by norm_num, .inl (by norm_num)⟩
    next some =>
      have some : 0 < (unpackExponent b).toNat := by
        rw [Nat.pos_iff_ne_zero]
        exact fun eq => some (BitVec.eq_of_toNat_eq eq)
      have implicit := toNat_implicit (unpackMantissa b)
      rw [bias, width]
      refine ⟨?_, by omega, .inr ?_⟩
      · show (1#1 ++ unpackMantissa b).toNat < _
        omega
      · show _ ≤ (1#1 ++ unpackMantissa b).toNat
        omega

/-! ## Order -/

theorem size_lt {m m' : ℕ} {e e' : ℤ} (short : m < 2 ^ 53) (low : -1074 ≤ e)
    (full : e' = -1074 ∨ 2 ^ 52 ≤ m') (lt : toLex (e, (m : ℤ)) < toLex (e', (m' : ℤ))) :
    (m : ℚ) * 2 ^ e < m' * 2 ^ e' := by
  rcases Prod.Lex.toLex_lt_toLex.mp lt with lt | ⟨eq, lt⟩
  · change e < e' at lt
    have full : (2 : ℚ) ^ (52 : ℤ) ≤ m' := by exact_mod_cast full.resolve_left (by omega)
    have short : (m : ℚ) < 2 ^ (53 : ℤ) := by exact_mod_cast short
    calc (m : ℚ) * 2 ^ e < 2 ^ (53 : ℤ) * 2 ^ e := by gcongr
      _ = 2 ^ (52 : ℤ) * 2 ^ (e + 1) := by
        rw [← zpow_add₀ two_ne_zero, ← zpow_add₀ two_ne_zero]
        congr 1
        ring
      _ ≤ m' * 2 ^ e' := by
        gcongr
        · norm_num
        · omega
  · change e = e' at eq
    change (m : ℤ) < m' at lt
    have lt : (m : ℚ) < m' := by exact_mod_cast lt
    rw [eq]
    gcongr

/-- Finite doubles stand in the order of their numbers. -/
theorem number_lt {u v : UnpackedFloat} (cu : Canonical u) (cv : Canonical v)
    (fu : u.isFinite = true) (fv : v.isFinite = true) {x y : ℤ ×ₗ ℤ ×ₗ ℤ} (hx : x ∈ rank u)
    (hy : y ∈ rank v) (lt : x < y) : number u < number v := by
  have above {m : ℕ} (e : ℤ) (p : 0 < m) : (0 : ℚ) < m * 2 ^ e := by positivity
  have positive (m : ℕ) (e : ℤ) {p} : number (.finite .positive m e p) = m * 2 ^ e := rfl
  have negative (m : ℕ) (e : ℤ) {p} : number (.finite .negative m e p) = -(m * 2 ^ e) := by
    simp [number, Sign.apply]
  have level {i j : ℤ} {p q : ℤ ×ₗ ℤ} (lt : toLex (i, p) < toLex (j, q)) (gt : j < i) : False := by
    rcases Prod.Lex.toLex_lt_toLex.mp lt with lt | ⟨eq, -⟩
    · exact lt_asymm lt gt
    · exact gt.ne' eq
  have tail {i : ℤ} {p q : ℤ ×ₗ ℤ} (lt : toLex (i, p) < toLex (i, q)) : p < q :=
    ((Prod.Lex.toLex_lt_toLex.mp lt).resolve_left (lt_irrefl i)).2
  rcases u with _ | _ | s | ⟨_ | _, m, e, p⟩
  · cases fu
  · cases fu
  · rcases v with _ | _ | t | ⟨_ | _, m', e', p'⟩
    · cases fv
    · cases fv
    · cases hx
      cases hy
      exact absurd lt (lt_irrefl _)
    · cases hx
      cases hy
      exact (level lt (by decide)).elim
    · rw [positive]
      exact above e' p'
  · rw [negative]
    rcases v with _ | _ | t | ⟨_ | _, m', e', p'⟩
    · cases fv
    · cases fv
    · exact neg_lt_zero.mpr (above e p)
    · cases hx
      cases hy
      rw [negative]
      refine neg_lt_neg (size_lt cv.1 cv.2.1 cu.2.2 ?_)
      have := tail lt
      rw [Prod.Lex.toLex_lt_toLex] at this ⊢
      dsimp only at this ⊢
      omega
    · rw [positive]
      exact (neg_lt_zero.mpr (above e p)).trans (above e' p')
  · rcases v with _ | _ | t | ⟨_ | _, m', e', _⟩
    · cases fv
    · cases fv
    · cases hx
      cases hy
      exact (level lt (by decide)).elim
    · cases hx
      cases hy
      exact (level lt (by decide)).elim
    · cases hx
      cases hy
      rw [positive, positive]
      exact size_lt cu.1 cu.2.1 cv.2.2 (tail lt)

/-- The rank of a finite double tells its number. -/
theorem number_eq {u : UnpackedFloat} (fu : u.isFinite = true) {i e m : ℤ}
    (hx : toLex (i, toLex (e, m)) ∈ rank u) : number u = m * 2 ^ (i * e) := by
  rcases u with _ | _ | s | ⟨_ | _, _, _, _⟩
  · cases fu
  · cases fu
  all_goals
    cases hx
    simp [number, Sign.apply]

theorem number_le {u v : UnpackedFloat} (cu : Canonical u) (cv : Canonical v)
    (fu : u.isFinite = true) (fv : v.isFinite = true) {x y : ℤ ×ₗ ℤ ×ₗ ℤ} (hx : x ∈ rank u)
    (hy : y ∈ rank v) (le : x ≤ y) : number u ≤ number v := by
  rcases le.lt_or_eq with lt | rfl
  · exact (number_lt cu cv fu fv hx hy lt).le
  · exact ((number_eq fu hx).trans (number_eq fv hy).symm).le

/-! ## Sums -/

theorem apply_neg (s : Sign) (m : ℤ) : (-s).apply m = -s.apply m := by
  cases s
  · exact (neg_neg m).symm
  · rfl

theorem number_neg (u : UnpackedFloat) : number u.neg = -number u := by
  cases u with
  | finite s m e positive =>
    show (((-s).apply m : ℤ) : ℚ) * 2 ^ e = -(((s.apply m : ℤ) : ℚ) * 2 ^ e)
    rw [apply_neg, Int.cast_neg, neg_mul]
  | _ => exact neg_zero.symm

theorem isFinite_neg (u : UnpackedFloat) : u.neg.isFinite = u.isFinite := by
  cases u <;> rfl

theorem spans_neg {k : ℤ} {u : UnpackedFloat} (spans : Spans k u) : Spans k u.neg := by
  refine ⟨(isFinite_neg u).trans spans.1, ?_⟩
  rw [number_neg, abs_neg]
  exact spans.2

theorem spans_abs {k : ℤ} {u : UnpackedFloat} (spans : Spans k u) : Spans k u.abs := by
  cases u with
  | notANumber | infinity => cases spans.1
  | zero => exact spans_zero k _
  | finite => exact spans_finite.mpr (spans_finite.mp spans)

/-- A difference is a sum. -/
theorem sub_eq (u v : UnpackedFloat) :
    UnpackedFloat.sub .binary64 u v = UnpackedFloat.add .binary64 u v.neg := by
  cases u <;> cases v <;> try rfl
  case finite.finite s m e _ s' m' e' _ =>
    unfold UnpackedFloat.sub UnpackedFloat.add UnpackedFloat.neg
    dsimp only
    rw [apply_neg, sub_eq_add_neg]

/-- Lowering the exponent leaves the number. -/
theorem decreaseExponent_size (m : ℕ) (e t : ℤ) :
    ((decreaseExponent m e t).1 : ℚ) * 2 ^ (decreaseExponent m e t).2 = m * 2 ^ e := by
  show ((m <<< (e - t).toNat : ℕ) : ℚ) * 2 ^ (e - ((e - t).toNat : ℤ)) = _
  rw [Nat.shiftLeft_eq, zpow_sub₀ two_ne_zero, zpow_natCast]
  push_cast
  field_simp

theorem decreaseExponent_apply (s : Sign) (m : ℕ) {e t : ℤ} (le : t ≤ e) :
    ((s.apply (decreaseExponent m e t).1 : ℤ) : ℚ) * 2 ^ t = (s.apply m : ℤ) * 2 ^ e := by
  have size := decreaseExponent_size m e t
  have exponent : (decreaseExponent m e t).2 = t := by
    show e - ((e - t).toNat : ℤ) = t
    omega
  rw [exponent] at size
  cases s
  · show ((-((decreaseExponent m e t).1 : ℤ) : ℤ) : ℚ) * 2 ^ t = ((-(m : ℤ) : ℤ) : ℚ) * 2 ^ e
    push_cast
    rw [neg_mul, neg_mul, size]
  · exact_mod_cast size

/-- Rounding an exact number that lies no more than a little above a power of two. -/
theorem spans_roundExact {k : ℤ} (deep : -1074 ≤ k) {m : ℕ} {e : ℤ} (s : Sign) (positive : 0 < m)
    (size : (m : ℚ) * 2 ^ e ≤ 2 ^ k + 2 ^ (k - 54)) :
    Spans k (UnpackedFloat.round .binary64 s m e) := by
  unfold UnpackedFloat.round
  dsimp only
  generalize Format.binary64.targetExponent (totalExponent m e) = t
  have same := decreaseExponent_size m e t
  have some : 0 < (decreaseExponent m e t).1 := by
    show 0 < m <<< _
    rw [Nat.shiftLeft_eq]
    positivity
  generalize decreaseExponent m e t = lowered at same some ⊢
  obtain ⟨m', e'⟩ := lowered
  dsimp only at same some ⊢
  rw [← same] at size
  refine spans_round deep s ?_ (.inr ⟨rfl, size⟩)
  have one : (1 : ℚ) ≤ m' := by exact_mod_cast some
  have pow : (0 : ℚ) < 2 ^ e' := by positivity
  have slack : (2 : ℚ) ^ (k - 54) < 2 ^ k := zpow_lt_zpow_right₀ (by norm_num) (by omega)
  have below : (2 : ℚ) ^ e' < 2 ^ (k + 1) := by
    rw [zpow_add_one₀ two_ne_zero]
    have := le_mul_of_one_le_left pow.le one
    linarith
  have := (zpow_lt_zpow_iff_right₀ (by norm_num : (1 : ℚ) < 2)).mp below
  omega

theorem spans_normalize {k : ℤ} (deep : -1074 ≤ k) {m e : ℤ} (s : Sign)
    (size : |(m : ℚ) * 2 ^ e| ≤ 2 ^ k + 2 ^ (k - 54)) :
    Spans k (UnpackedFloat.normalize .binary64 m e s) := by
  have pow : (0 : ℚ) < 2 ^ e := by positivity
  have whole (n : ℤ) (positive : 0 < n) (same : |m| = n) :
      ((n.toNat : ℕ) : ℚ) * 2 ^ e ≤ 2 ^ k + 2 ^ (k - 54) := by
    have cast : ((n.toNat : ℕ) : ℚ) = n := by exact_mod_cast Int.toNat_of_nonneg positive.le
    rwa [cast, ← same, Int.cast_abs, ← abs_of_pos pow, ← abs_mul]
  unfold UnpackedFloat.normalize
  split
  next lt =>
    have lt : m < 0 := compare_lt_iff_lt.mp lt
    exact spans_roundExact deep _ (by omega) (whole (-m) (by omega) (abs_of_neg lt))
  · exact spans_zero k s
  next gt =>
    have gt : 0 < m := compare_gt_iff_gt.mp gt
    exact spans_roundExact deep _ (by omega) (whole m gt (abs_of_pos gt))

/-- A sum of finite doubles before it is rounded. -/
theorem add_finite {s s' : Sign} {m m' : ℕ} {e e' : ℤ} {p : 0 < m} {p' : 0 < m'} :
    ∃ M E : ℤ, UnpackedFloat.add .binary64 (.finite s m e p) (.finite s' m' e' p') =
        UnpackedFloat.normalize .binary64 M E .positive ∧
      (M : ℚ) * 2 ^ E = number (.finite s m e p) + number (.finite s' m' e' p') := by
  refine ⟨_, _, rfl, ?_⟩
  show ((s.apply (decreaseExponent m e (min e e')).1 +
      s'.apply (decreaseExponent m' e' (min e e')).1 : ℤ) : ℚ) * 2 ^ min e e' =
    ((s.apply m : ℤ) : ℚ) * 2 ^ e + ((s'.apply m' : ℤ) : ℚ) * 2 ^ e'
  push_cast
  rw [add_mul, decreaseExponent_apply s m (min_le_left e e'),
    decreaseExponent_apply s' m' (min_le_right e e')]

/-- A sum is bounded by a power of two that its terms do not pass, or hardly. -/
theorem spans_add {k j i : ℤ} {u v : UnpackedFloat} (su : Spans k u) (sv : Spans j v)
    (deep : -1074 ≤ i) (room : (2 : ℚ) ^ k + 2 ^ j ≤ 2 ^ i + 2 ^ (i - 54)) :
    Spans i (UnpackedFloat.add .binary64 u v) := by
  have slack : (2 : ℚ) ^ (i - 54) < 2 ^ i := zpow_lt_zpow_right₀ (by norm_num) (by omega)
  have under {l : ℤ} (h : (2 : ℚ) ^ l < 2 ^ (i + 1)) : l ≤ i := by
    have := (zpow_lt_zpow_iff_right₀ (by norm_num : (1 : ℚ) < 2)).mp h
    omega
  have hk : (0 : ℚ) < 2 ^ k := by positivity
  have hj : (0 : ℚ) < 2 ^ j := by positivity
  rw [zpow_add_one₀ two_ne_zero] at under
  cases u with
  | notANumber | infinity => cases su.1
  | zero s =>
    cases v with
    | notANumber | infinity => cases sv.1
    | zero t => cases s <;> cases t <;> exact spans_zero i _
    | finite => exact sv.mono (under (by linarith))
  | finite =>
    cases v with
    | notANumber | infinity => cases sv.1
    | zero t => exact su.mono (under (by linarith))
    | finite =>
      obtain ⟨M, E, eq, sum⟩ := add_finite
      rw [eq]
      refine spans_normalize deep _ ?_
      rw [sum]
      exact (abs_add_le _ _).trans ((add_le_add su.2 sv.2).trans room)

/-- What is rounded keeps the side it is given. -/
theorem onSide_round (s : Sign) (m : ℕ) (e : ℤ) (acc : Accuracy) :
    OnSide s (roundWithAccuracy .binary64 s m e acc) := by
  unfold roundWithAccuracy
  dsimp only
  split
  · exact trivial
  · exact rfl

/-- A sum that is not positive is rounded to one that is not. -/
theorem onSide_add {u v : UnpackedFloat} (fu : u.isFinite = true) (fv : v.isFinite = true)
    (nonpos : number u + number v ≤ 0) : OnSide .negative (UnpackedFloat.add .binary64 u v) := by
  have side {s : Sign} {m : ℕ} {e : ℤ} {p : 0 < m} (le : number (.finite s m e p) ≤ 0) :
      s = .negative := by
    cases s with
    | negative => rfl
    | positive =>
      have above : (0 : ℚ) < m * 2 ^ e := by positivity
      exact absurd le (not_le.mpr above)
  cases u with
  | notANumber | infinity => cases fu
  | zero s =>
    cases v with
    | notANumber | infinity => cases fv
    | zero t => cases s <;> cases t <;> exact trivial
    | finite t m e p => exact side (p := p) (by simpa [number] using nonpos)
  | finite s m e p =>
    cases v with
    | notANumber | infinity => cases fv
    | zero t => exact side (p := p) (by simpa [number] using nonpos)
    | finite =>
      obtain ⟨M, E, eq, sum⟩ := add_finite
      rw [eq]
      rw [← sum] at nonpos
      have pow : (0 : ℚ) < 2 ^ E := by positivity
      have below : M ≤ 0 := by exact_mod_cast nonpos_of_mul_nonpos_left nonpos pow
      unfold UnpackedFloat.normalize
      split
      · exact onSide_round _ _ _ _
      · exact trivial
      next gt => exact absurd (compare_gt_iff_gt.mp gt) (not_lt.mpr below)

/-- A difference of doubles in order is not positive once it is rounded. -/
theorem onSide_sub {u v : UnpackedFloat} (cu : Canonical u) (cv : Canonical v)
    (fv : v.isFinite = true) {x y : ℤ ×ₗ ℤ ×ₗ ℤ} (hx : x ∈ rank u) (hy : y ∈ rank v) (le : x ≤ y) :
    OnSide .negative (UnpackedFloat.sub .binary64 u v) := by
  cases u with
  | notANumber => cases hx
  | infinity s =>
    cases s with
    | negative => cases v <;> first | rfl | cases fv
    | positive =>
      cases hx
      rcases v with _ | _ | _ | ⟨_ | _, m, e, _⟩ <;> cases fv <;> cases hy <;>
        simp [Prod.Lex.toLex_le_toLex] at le
  | zero | finite =>
    rw [sub_eq]
    refine onSide_add rfl ((isFinite_neg v).trans fv) ?_
    rw [number_neg, ← sub_eq_add_neg, sub_nonpos]
    exact number_le cu cv rfl fv hx hy le

/-! ## Products and quotients -/

theorem spans_mul {k j : ℤ} {u v : UnpackedFloat} (su : Spans k u) (sv : Spans j v)
    (deep : -1074 ≤ k + j) : Spans (k + j) (UnpackedFloat.mul .binary64 u v) := by
  cases u with
  | notANumber | infinity => cases su.1
  | zero s =>
    cases v with
    | notANumber | infinity => cases sv.1
    | zero | finite => exact spans_zero _ _
  | finite s m e positive =>
    cases v with
    | notANumber | infinity => cases sv.1
    | zero => exact spans_zero _ _
    | finite t m' e' positive' =>
      have size : ((m * m' : ℕ) : ℚ) * 2 ^ (e + e') ≤ 2 ^ (k + j) := by
        rw [zpow_add₀ two_ne_zero, zpow_add₀ two_ne_zero, Nat.cast_mul, mul_mul_mul_comm]
        have hu := spans_finite.mp su
        have hv := spans_finite.mp sv
        gcongr
      have one : (1 : ℚ) ≤ ((m * m' : ℕ) : ℚ) := by exact_mod_cast Nat.mul_pos positive positive'
      have pow : (0 : ℚ) < 2 ^ (e + e') := by positivity
      have slack : (0 : ℚ) < 2 ^ (k + j - 54) := by positivity
      refine spans_round deep _ ?_ (.inr ⟨rfl, by linarith⟩)
      refine (zpow_le_zpow_iff_right₀ (by norm_num : (1 : ℚ) < 2)).mp (le_trans ?_ size)
      exact le_mul_of_one_le_left pow.le one

/-- At least as large as a power of two. -/
def Clears (j : ℤ) : UnpackedFloat → Prop
  | .notANumber => False
  | .infinity _ => True
  | u => (2 : ℚ) ^ j ≤ |number u|

instance (j : ℤ) : (u : UnpackedFloat) → Decidable (Clears j u)
  | .notANumber => isFalse id
  | .infinity _ => isTrue trivial
  | .zero s => inferInstanceAs (Decidable ((2 : ℚ) ^ j ≤ |number (.zero s)|))
  | .finite s m e p => inferInstanceAs (Decidable ((2 : ℚ) ^ j ≤ |number (.finite s m e p)|))

/-- The exponent of a quotient before it is rounded. -/
theorem divCore_exponent {k j : ℤ} {m m' : ℕ} {e e' : ℤ} (positive : 0 < m)
    (deep : -1074 ≤ k - j + 1) (size : (m : ℚ) * 2 ^ e ≤ 2 ^ k)
    (size' : (2 : ℚ) ^ j ≤ m' * 2 ^ e') :
    (divCore .binary64 m e m' e').2.1 ≤ k - j + 1 := by
  have top : (m.log2 : ℤ) + e ≤ k :=
    log2_le positive (size.trans_lt (zpow_lt_zpow_right₀ (by norm_num) (by omega)))
  have bottom := le_log2 size'
  refine (min_le_right _ _).trans (max_le ?_ deep)
  show (m.log2 : ℤ) + 1 + e - (m'.log2 + 1 + e') - ((1 + 52 : ℕ) : ℤ) ≤ _
  omega

/-- A quotient before it is rounded is not above the true one. -/
theorem divCore_size {m m' : ℕ} {e e' : ℤ} (positive' : 0 < m') :
    ((divCore .binary64 m e m' e').1 : ℚ) * 2 ^ (divCore .binary64 m e m' e').2.1 ≤
      m * 2 ^ e / (m' * 2 ^ e') := by
  obtain ⟨E, hE⟩ : ∃ E, E = (divCore .binary64 m e m' e').2.1 := ⟨_, rfl⟩
  have le : E ≤ e - e' := hE ▸ min_le_left _ _
  have quotient : (divCore .binary64 m e m' e').1 = (m <<< (e - e' - E).toNat) / m' := by
    rw [hE]
    rfl
  have pow : (0 : ℚ) < m' * 2 ^ e' := by positivity
  rw [← hE, quotient, le_div_iff₀ pow, Nat.shiftLeft_eq]
  obtain ⟨n, hn⟩ : ∃ n : ℕ, e - e' = E + n := ⟨(e - e' - E).toNat, by omega⟩
  rw [show (e - e' - E).toNat = n by omega]
  have floor : ((m * 2 ^ n / m' * m' : ℕ) : ℚ) ≤ ((m * 2 ^ n : ℕ) : ℚ) :=
    Nat.cast_le.mpr (Nat.div_mul_le_self _ _)
  push_cast at floor
  have whole : (2 : ℚ) ^ e = 2 ^ n * (2 ^ E * 2 ^ e') := by
    rw [show e = n + (E + e') by omega, zpow_add₀ two_ne_zero, zpow_add₀ two_ne_zero, zpow_natCast]
  rw [mul_mul_mul_comm, whole, ← mul_assoc (m : ℚ)]
  gcongr

theorem spans_div {k j : ℤ} {u v : UnpackedFloat} (su : Spans k u) (cv : Clears j v)
    (deep : -1074 ≤ k - j + 1) : Spans (k - j + 1) (UnpackedFloat.div .binary64 u v) := by
  cases v with
  | notANumber => exact cv.elim
  | zero t =>
    have pow : (0 : ℚ) < 2 ^ j := by positivity
    refine absurd (show (2 : ℚ) ^ j ≤ |0| from cv) ?_
    rw [abs_zero]
    exact not_le.mpr pow
  | infinity t =>
    cases u with
    | notANumber | infinity => cases su.1
    | zero | finite => exact spans_zero _ _
  | finite t m' e' positive' =>
    cases u with
    | notANumber | infinity => cases su.1
    | zero => exact spans_zero _ _
    | finite s m e positive =>
      have size := spans_finite.mp su
      have size' : (2 : ℚ) ^ j ≤ m' * 2 ^ e' := by
        rw [← abs_number t m' e' positive']
        exact cv
      refine spans_round deep _ (divCore_exponent positive deep size size') (.inl ?_)
      refine (divCore_size positive').trans_lt ?_
      have pow : (0 : ℚ) < 2 ^ j := by positivity
      calc (m : ℚ) * 2 ^ e / (m' * 2 ^ e') ≤ 2 ^ k / 2 ^ j := by gcongr
        _ = 2 ^ (k - j) := (zpow_sub₀ two_ne_zero k j).symm
        _ < 2 ^ (k - j + 1) := zpow_lt_zpow_right₀ (by norm_num) (by omega)

/-- A finite double divided by a positive one is on one side of zero. -/
theorem onSide_div {u v : UnpackedFloat} (fu : u.isFinite = true)
    (hv : v = .infinity .positive ∨ ∃ m e p, v = .finite .positive m e p) :
    ∃ s, OnSide s (UnpackedFloat.div .binary64 u v) := by
  cases u with
  | notANumber | infinity => cases fu
  | zero s => obtain rfl | ⟨m, e, p, rfl⟩ := hv <;> exact ⟨.positive, trivial⟩
  | finite s m e positive =>
    obtain rfl | ⟨m', e', p, rfl⟩ := hv
    · exact ⟨.positive, trivial⟩
    · exact ⟨s / .positive, onSide_round _ _ _ _⟩

end Doubles

end UnitDispatch
