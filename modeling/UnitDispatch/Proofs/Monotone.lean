import UnitDispatch.Proofs.Magnitude

/-! # Rounding is monotone

Doubles respect the order when they round. The laws of `Rounded` rest on one fact for them, that a
rounded number lies on the same side of every double as the exact one (`rounds_add`), and still does
when it is packed (`side_pack`).
-/

namespace UnitDispatch

open Quantity

namespace Doubles

open Float.Model UnpackedFloat

/-! ## Rounding keeps what doubles stand below and above -/

theorem le_roundedMantissa (em : ExtendedMantissa) : em.mantissa ≤ em.roundedMantissa := by
  obtain ⟨m, _ | _, _ | _⟩ := em <;>
    simp only [ExtendedMantissa.roundedMantissa, ExtendedMantissa.accuracy,
      Accuracy.roundToNearestEven] <;>
    omega

/-- Whole units below an exact number stay below it. -/
theorem le_rounded {m n j : ℕ} (below : j * 2 ^ n ≤ m) :
    j ≤ (ExtendedMantissa.ofMantissaAndAccuracy m .exact >>> n).roundedMantissa := by
  refine le_trans ?_ (le_roundedMantissa _)
  rw [mantissa_shiftRight]
  exact (Nat.le_div_iff_mul_le (Nat.two_pow_pos n)).mpr below

/-- And those above stay above: only what is cut off carries. -/
theorem rounded_le {m n j : ℕ} (above : m ≤ j * 2 ^ n) :
    (ExtendedMantissa.ofMantissaAndAccuracy m .exact >>> n).roundedMantissa ≤ j := by
  let em := ExtendedMantissa.ofMantissaAndAccuracy m .exact
  have floor : (em >>> n).mantissa = m / 2 ^ n := mantissa_shiftRight em n
  have unit := Nat.two_pow_pos n
  show (em >>> n).roundedMantissa ≤ j
  cases up : (em >>> n).roundBit with
  | false =>
    rw [roundedMantissa_eq up, floor]
    exact Nat.div_le_of_le_mul (by rwa [mul_comm])
  | true =>
    have half : 2 ^ n ≤ 2 * (m % 2 ^ n) := half_of_roundBit rfl up
    have carry := roundedMantissa_le (em >>> n)
    have split : m / 2 ^ n * 2 ^ n + m % 2 ^ n = m := Nat.div_add_mod' m (2 ^ n)
    have short : m / 2 ^ n < j := by
      by_contra! long
      have := Nat.mul_le_mul_right (2 ^ n) long
      omega
    omega

/-- The mantissa and exponent of a double. -/
def Fits (m : ℕ) (e : ℤ) : Prop := m < 2 ^ 53 ∧ -1074 ≤ e ∧ (e = -1074 ∨ 2 ^ 52 ≤ m)

theorem log2_shiftLeft {m : ℕ} (positive : 0 < m) (k : ℕ) : (m <<< k).log2 = m.log2 + k := by
  have unit := Nat.two_pow_pos k
  rw [Nat.shiftLeft_eq, Nat.log2_eq_iff (Nat.mul_pos positive unit).ne', add_right_comm, pow_add,
    pow_add]
  exact ⟨Nat.mul_le_mul_right _ (Nat.log2_self_le positive.ne'),
    Nat.mul_lt_mul_of_pos_right Nat.lt_log2_self unit⟩

theorem scale (j i : ℕ) (e : ℤ) : ((j * 2 ^ i : ℕ) : ℚ) * 2 ^ e = j * 2 ^ (e + i) := by
  rw [zpow_add₀ two_ne_zero, zpow_natCast]
  push_cast
  ring

/-- A rounded number is a double, and lies on the same side of every double as the exact one. -/
structure Rounds (z : ℚ) (w : UnpackedFloat) : Prop where
  finite : w.isFinite = true
  canonical : Canonical w
  above : ∀ {u}, Canonical u → u.isFinite = true → number u ≤ z → number u ≤ number w
  below : ∀ {u}, Canonical u → u.isFinite = true → z ≤ number u → number w ≤ number u

/-- What is below the top of an exponent is small beside the next. -/
theorem small_beside {k : ℕ} {f t : ℤ} (short : k < 2 ^ 53) (lower : f < t) :
    (k : ℚ) * 2 ^ f < 2 ^ 52 * 2 ^ t := by
  have short : (k : ℚ) < 2 ^ (53 : ℤ) := by exact_mod_cast short
  have pow : (0 : ℚ) < 2 ^ f := by positivity
  calc (k : ℚ) * 2 ^ f < 2 ^ (53 : ℤ) * 2 ^ f := by gcongr
    _ = 2 ^ (52 : ℤ) * 2 ^ (f + 1) := by
      rw [← zpow_add₀ two_ne_zero, ← zpow_add₀ two_ne_zero]
      congr 1
      ring
    _ ≤ 2 ^ 52 * 2 ^ t := by
      norm_cast
      gcongr
      · norm_num
      · omega

/-- A mantissa, rounded to whole units of the exponent aimed at, lies on the same side of every
double as the exact number. -/
theorem rounded_side {m n : ℕ} {e : ℤ}
    (aim : e + n = max ((m.log2 : ℤ) + e - 52) (-1074)) (positive : 0 < m) {k : ℕ} {f : ℤ}
    (fits : Fits k f) :
    ((k : ℚ) * 2 ^ f ≤ m * 2 ^ e → (k : ℚ) * 2 ^ f ≤
      (ExtendedMantissa.ofMantissaAndAccuracy m .exact >>> n).roundedMantissa * 2 ^ (e + n)) ∧
    ((m : ℚ) * 2 ^ e ≤ k * 2 ^ f →
      ((ExtendedMantissa.ofMantissaAndAccuracy m .exact >>> n).roundedMantissa : ℚ) * 2 ^ (e + n) ≤
        k * 2 ^ f) := by
  obtain ⟨short, low, -⟩ := fits
  have pow : (0 : ℚ) < 2 ^ e := by positivity
  have unit : (0 : ℚ) < 2 ^ (e + n) := by positivity
  by_cases coarse : e + n ≤ f
  · -- the double is a whole number of units
    obtain ⟨i, rfl⟩ : ∃ i : ℕ, f = e + n + i := ⟨(f - (e + n)).toNat, by omega⟩
    rw [← scale k i, ← scale (k * 2 ^ i) n e]
    constructor
    · intro below
      have below : k * 2 ^ i * 2 ^ n ≤ m := by exact_mod_cast le_of_mul_le_mul_right below pow
      have := le_rounded below
      rw [scale]
      gcongr
    · intro above
      have above : m ≤ k * 2 ^ i * 2 ^ n := by exact_mod_cast le_of_mul_le_mul_right above pow
      have := rounded_le above
      rw [scale]
      gcongr
  · -- it is too fine for the unit, and smaller than all that is measured in it
    have lead : m.log2 = 52 + n := by omega
    have full : 2 ^ 52 * 2 ^ n ≤ m := by
      rw [← pow_add, ← lead]
      exact Nat.log2_self_le positive.ne'
    have small := small_beside short (not_le.mp coarse)
    constructor
    · intro _
      have most : (2 : ℚ) ^ 52 ≤
          (ExtendedMantissa.ofMantissaAndAccuracy m .exact >>> n).roundedMantissa := by
        exact_mod_cast le_rounded full
      exact small.le.trans (mul_le_mul_of_nonneg_right most unit.le)
    · intro above
      have size : ((2 ^ 52 * 2 ^ n : ℕ) : ℚ) * 2 ^ e ≤ m * 2 ^ e := by gcongr
      rw [scale] at size
      push_cast at size
      exact absurd (size.trans above) (not_le.mpr small)

/-- Rounding aims at the exponent once more after the carry. -/
theorem shift_carried {r : ℕ} {t : ℤ} (low : -1074 ≤ t) (top : r ≤ 2 ^ 53)
    (full : t = -1074 ∨ 2 ^ 52 ≤ r) :
    ∃ M E, Fits M E ∧ (M : ℚ) * 2 ^ E = r * 2 ^ t ∧
      (shiftToTargetExponent .binary64 r t .exact).1.mantissa = M ∧
      (shiftToTargetExponent .binary64 r t .exact).2 = E := by
  have target := targetExponent_eq r t
  rcases top.lt_or_eq with short | rfl
  · -- without a carry out of the mantissa it stays as it is
    have bits : r.log2 ≤ 52 := by
      rcases Nat.eq_zero_or_pos r with rfl | positive
      · simp
      · exact Nat.le_of_lt_succ ((Nat.log2_lt positive.ne').mpr short)
    have still : (Format.binary64.targetExponent (totalExponent r t) - t).toNat = 0 := by
      rw [target]
      omega
    refine ⟨r, t, ⟨short, low, full⟩, rfl, ?_, ?_⟩
    · show (ExtendedMantissa.ofMantissaAndAccuracy r .exact >>>
        (Format.binary64.targetExponent (totalExponent r t) - t).toNat).mantissa = r
      rw [still]
      rfl
    · show t + ((Format.binary64.targetExponent (totalExponent r t) - t).toNat : ℤ) = t
      rw [still]
      omega
  · have one : (Format.binary64.targetExponent (totalExponent (2 ^ 53) t) - t).toNat = 1 := by
      rw [target, Nat.log2_two_pow]
      omega
    refine ⟨2 ^ 52, t + 1, ⟨by norm_num, by omega, .inr le_rfl⟩, ?_, ?_, ?_⟩
    · rw [zpow_add_one₀ two_ne_zero]
      push_cast
      ring
    · show (ExtendedMantissa.ofMantissaAndAccuracy (2 ^ 53) .exact >>>
        (Format.binary64.targetExponent (totalExponent (2 ^ 53) t) - t).toNat).mantissa = 2 ^ 52
      rw [one]
      rfl
    · show t + ((Format.binary64.targetExponent (totalExponent (2 ^ 53) t) - t).toNat : ℤ) = t + 1
      rw [one]
      rfl

/-- A mantissa and an exponent that fit, as a double of a sign. -/
def double (s : Sign) (m : ℕ) (e : ℤ) : UnpackedFloat :=
  if h : m = 0 then .zero s else .finite s m e (Nat.pos_of_ne_zero h)

/-- Rounding an exact number whose exponent is not above the one aimed at. -/
theorem roundWithAccuracy_exact {m : ℕ} {e : ℤ} (s : Sign) (positive : 0 < m)
    (low : e ≤ max ((m.log2 : ℤ) + e - 52) (-1074)) :
    ∃ M E, Fits M E ∧ roundWithAccuracy .binary64 s m e .exact = double s M E ∧
      ∀ {k f}, Fits k f → ((k : ℚ) * 2 ^ f ≤ m * 2 ^ e → (k : ℚ) * 2 ^ f ≤ M * 2 ^ E) ∧
        ((m : ℚ) * 2 ^ e ≤ k * 2 ^ f → (M : ℚ) * 2 ^ E ≤ k * 2 ^ f) := by
  obtain ⟨n, hn⟩ : ∃ n, n = (Format.binary64.targetExponent (totalExponent m e) - e).toNat :=
    ⟨_, rfl⟩
  have aim : e + n = max ((m.log2 : ℤ) + e - 52) (-1074) := by
    rw [hn, targetExponent_eq]
    omega
  have bits := Nat.lt_log2_self (n := m)
  have top : (ExtendedMantissa.ofMantissaAndAccuracy m .exact >>> n).roundedMantissa ≤ 2 ^ 53 := by
    refine rounded_of_lt .exact (bits.trans_le (Nat.pow_le_pow_right (by omega) ?_))
    omega
  have full : e + n = -1074 ∨
      2 ^ 52 ≤ (ExtendedMantissa.ofMantissaAndAccuracy m .exact >>> n).roundedMantissa := by
    by_cases lowest : e + n = -1074
    · exact .inl lowest
    · right
      refine le_rounded ?_
      rw [← pow_add, show 52 + n = m.log2 by omega]
      exact Nat.log2_self_le positive.ne'
  obtain ⟨M, E, fits, same, mantissa, exponent⟩ := shift_carried (by omega) top full
  refine ⟨M, E, fits, ?_, ?_⟩
  · have first : shiftToTargetExponent .binary64 m e .exact =
        (ExtendedMantissa.ofMantissaAndAccuracy m .exact >>> n, e + n) := by
      rw [hn]
      rfl
    unfold roundWithAccuracy
    rw [first]
    dsimp only
    generalize shiftToTargetExponent .binary64 _ (e + n) .exact = last at mantissa exponent ⊢
    obtain ⟨em, E'⟩ := last
    dsimp only at mantissa exponent
    subst mantissa exponent
    rfl
  · intro k f other
    rw [same]
    exact rounded_side aim positive other

theorem number_positive (m : ℕ) (e : ℤ) : number (double .positive m e) = m * 2 ^ e := by
  unfold double
  split
  next zero => simp [zero, number]
  · rfl

theorem number_negative (m : ℕ) (e : ℤ) : number (double .negative m e) = -(m * 2 ^ e) := by
  unfold double
  split
  next zero => simp [zero, number]
  · simp [number, Sign.apply]

theorem isFinite_double (s : Sign) (m : ℕ) (e : ℤ) : (double s m e).isFinite = true := by
  unfold double
  split <;> rfl

theorem canonical_double {m : ℕ} {e : ℤ} (s : Sign) (fits : Fits m e) :
    Canonical (double s m e) := by
  unfold double
  split
  · trivial
  · exact fits

/-- Every finite double is a mantissa and an exponent that fit, and a sign. -/
theorem exists_double {u : UnpackedFloat} (canonical : Canonical u) (finite : u.isFinite = true) :
    ∃ m e, Fits m e ∧ (number u = m * 2 ^ e ∨ number u = -(m * 2 ^ e)) := by
  cases u with
  | notANumber | infinity => cases finite
  | zero s => exact ⟨0, -1074, ⟨by norm_num, le_rfl, .inl rfl⟩, .inl (by simp [number])⟩
  | finite s m e =>
    refine ⟨m, e, canonical, ?_⟩
    cases s with
    | negative => exact .inr (by simp [number, Sign.apply])
    | positive => exact .inl rfl

/-- Rounding an exact number, of either sign. -/
theorem rounds_round {m : ℕ} {e : ℤ} (positive : 0 < m) :
    Rounds (m * 2 ^ e) (UnpackedFloat.round .binary64 .positive m e) ∧
      Rounds (-(m * 2 ^ e)) (UnpackedFloat.round .binary64 .negative m e) := by
  obtain ⟨t, ht⟩ : ∃ t, t = Format.binary64.targetExponent (totalExponent m e) := ⟨_, rfl⟩
  have size := decreaseExponent_size m e t
  have low : (decreaseExponent m e t).2 ≤
      max (((decreaseExponent m e t).1.log2 : ℤ) + (decreaseExponent m e t).2 - 52) (-1074) := by
    show e - ((e - t).toNat : ℤ) ≤
      max (((m <<< (e - t).toNat).log2 : ℤ) + (e - ((e - t).toNat : ℤ)) - 52) (-1074)
    rw [targetExponent_eq] at ht
    rw [log2_shiftLeft positive]
    omega
  have some : 0 < (decreaseExponent m e t).1 := by
    show 0 < m <<< _
    rw [Nat.shiftLeft_eq]
    positivity
  have pow : (0 : ℚ) < m * 2 ^ e := by positivity
  have result (s : Sign) : ∃ M E, Fits M E ∧ UnpackedFloat.round .binary64 s m e = double s M E ∧
      ∀ {k f}, Fits k f → ((k : ℚ) * 2 ^ f ≤ m * 2 ^ e → (k : ℚ) * 2 ^ f ≤ M * 2 ^ E) ∧
        ((m : ℚ) * 2 ^ e ≤ k * 2 ^ f → (M : ℚ) * 2 ^ E ≤ k * 2 ^ f) := by
    obtain ⟨M, E, fits, rounded, side⟩ := roundWithAccuracy_exact s some low
    refine ⟨M, E, fits, ?_, size ▸ side⟩
    unfold UnpackedFloat.round
    dsimp only
    rw [← ht]
    exact rounded
  constructor
  · obtain ⟨M, E, fits, eq, side⟩ := result .positive
    have nonneg : (0 : ℚ) ≤ M * 2 ^ E := by positivity
    rw [eq]
    refine ⟨isFinite_double _ M E, canonical_double _ fits, ?_, ?_⟩ <;> intro u canonical finite le
      <;> obtain ⟨k, f, other, number | number⟩ := exists_double canonical finite <;>
      rw [number] at le ⊢ <;> rw [number_positive]
    · exact (side other).1 le
    · have : (0 : ℚ) ≤ k * 2 ^ f := by positivity
      linarith
    · exact (side other).2 le
    · have : (0 : ℚ) ≤ k * 2 ^ f := by positivity
      linarith
  · obtain ⟨M, E, fits, eq, side⟩ := result .negative
    have nonneg : (0 : ℚ) ≤ M * 2 ^ E := by positivity
    rw [eq]
    refine ⟨isFinite_double _ M E, canonical_double _ fits, ?_, ?_⟩ <;> intro u canonical finite le
      <;> obtain ⟨k, f, other, number | number⟩ := exists_double canonical finite <;>
      rw [number] at le ⊢ <;> rw [number_negative]
    · have : (0 : ℚ) ≤ k * 2 ^ f := by positivity
      linarith
    · exact neg_le_neg ((side other).2 (neg_le_neg_iff.mp le))
    · have : (0 : ℚ) ≤ k * 2 ^ f := by positivity
      linarith
    · exact neg_le_neg ((side other).1 (neg_le_neg_iff.mp le))

theorem rounds_normalize (m e : ℤ) (s : Sign) :
    Rounds (m * 2 ^ e) (UnpackedFloat.normalize .binary64 m e s) := by
  unfold UnpackedFloat.normalize
  split
  next lt =>
    have lt : m < 0 := compare_lt_iff_lt.mp lt
    have rounds := (rounds_round (m := (-m).toNat) (e := e) (by omega)).2
    have whole : (((-m).toNat : ℕ) : ℚ) = -m := by exact_mod_cast Int.toNat_of_nonneg (by omega)
    rwa [whole, neg_mul, neg_neg] at rounds
  next eq =>
    obtain rfl : m = 0 := compare_eq_iff_eq.mp eq
    rw [Int.cast_zero, zero_mul]
    exact ⟨rfl, trivial, fun _ _ le => le, fun _ _ le => le⟩
  next gt =>
    have gt : 0 < m := compare_gt_iff_gt.mp gt
    have rounds := (rounds_round (m := m.toNat) (e := e) (by omega)).1
    have whole : ((m.toNat : ℕ) : ℚ) = m := by exact_mod_cast Int.toNat_of_nonneg gt.le
    rwa [whole] at rounds

/-- The sum of finite doubles is rounded. -/
theorem rounds_add {u v : UnpackedFloat} (cu : Canonical u) (cv : Canonical v)
    (fu : u.isFinite = true) (fv : v.isFinite = true) :
    Rounds (number u + number v) (UnpackedFloat.add .binary64 u v) := by
  have itself {w : UnpackedFloat} (cw : Canonical w) (fw : w.isFinite = true) {z : ℚ}
      (eq : number w = z) : Rounds z w :=
    ⟨fw, cw, fun _ _ le => eq ▸ le, fun _ _ le => eq ▸ le⟩
  cases u with
  | notANumber | infinity => cases fu
  | zero s =>
    cases v with
    | notANumber | infinity => cases fv
    | zero t =>
      obtain ⟨r, zero⟩ : ∃ r, UnpackedFloat.add .binary64 (.zero s) (.zero t) = .zero r := by
        cases s <;> cases t <;> exact ⟨_, rfl⟩
      rw [zero]
      exact itself (w := .zero r) trivial rfl (add_zero _).symm
    | finite => exact itself cv fv (by simp [number])
  | finite =>
    cases v with
    | notANumber | infinity => cases fv
    | zero t => exact itself cu fu (by simp [number])
    | finite =>
      obtain ⟨M, E, eq, sum⟩ := add_finite
      rw [eq, ← sum]
      exact rounds_normalize M E .positive

/-! ## Packing -/

/-- A word of the lowest exponent stands for its mantissa. -/
theorem unpack_subnormal (s : Sign) {m : ℕ} (positive : 0 < m) (short : m < 2 ^ 52) :
    unpack .binary64 (packComponents .binary64 s 0#_ (BitVec.ofNat _ m)) =
      .finite s m (-1074) positive := by
  have mantissa : (BitVec.ofNat Format.binary64.mantissaBitsWithoutImplicit m).toNat = m :=
    Nat.mod_eq_of_lt short
  have some : BitVec.ofNat Format.binary64.mantissaBitsWithoutImplicit m ≠ 0#_ := by
    intro eq
    rw [eq] at mantissa
    exact positive.ne mantissa
  unfold UnpackedFloat.unpack
  simp only [unpackMantissa_packComponents, unpackExponent_packComponents,
    unpackSign_packComponents, mantissa]
  rw [if_neg (by decide), if_pos trivial, dif_neg some]
  rfl

/-- Packing leaves a double as it is, unless it is too large. -/
theorem unpack_pack {s : Sign} {m : ℕ} {e : ℤ} {positive : 0 < m} (fits : Fits m e) :
    unpack .binary64 (UnpackedFloat.pack .binary64 (.finite s m e positive)) =
      if e ≤ 971 then .finite s m e positive else .infinity s := by
  obtain ⟨short, low, full⟩ := fits
  unfold UnpackedFloat.pack
  dsimp only
  change unpack .binary64 (if 2 ^ 11 ≤ (e + 1023 + 52).toNat + 1 then _ else
    if m.log2 + 1 = 53 then packComponents .binary64 s (BitVec.ofNat _ (e + 1023 + 52).toNat)
      (BitVec.ofNat _ m) else packComponents .binary64 s 0#_ (BitVec.ofNat _ m)) = _
  by_cases large : e ≤ 971
  · rw [if_neg (by omega), if_pos large]
    split
    next bits =>
      rw [unpack_normal s (by omega) (by omega) (by omega) positive]
      congr 1
      omega
    next bits =>
      have lowest : m < 2 ^ 52 := by
        by_contra! big
        exact bits (congrArg (· + 1) ((Nat.log2_eq_iff positive.ne').mpr ⟨big, short⟩))
      obtain rfl := full.resolve_right (not_le.mpr lowest)
      exact unpack_subnormal s positive lowest
  · rw [if_pos (by omega), if_neg large]
    cases s <;> rfl

/-- Doubles stand in the order of their numbers, also after packing one. -/
theorem le_of_number_le {u v : UnpackedFloat} (cu : Canonical u) (cv : Canonical v)
    (fu : u.isFinite = true) (fv : v.isFinite = true) (le : number u ≤ number v) :
    u.le v = true := by
  have ranked {w : UnpackedFloat} (fw : w.isFinite = true) : ∃ x, x ∈ rank w := by
    rcases w with _ | _ | _ | ⟨_ | _, m, e, _⟩
    · cases fw
    · cases fw
    all_goals exact ⟨_, rfl⟩
  obtain ⟨x, hx⟩ := ranked fu
  obtain ⟨y, hy⟩ := ranked fv
  refine (le_iff_rank u v).mpr ⟨x, hx, y, hy, ?_⟩
  by_contra! gt
  exact absurd (number_lt cv cu fv fu hy hx gt) (not_lt.mpr le)

theorem le_infinity {u : UnpackedFloat} (fu : u.isFinite = true) :
    u.le (.infinity .positive) = true ∧ (UnpackedFloat.infinity .negative).le u = true := by
  rcases u with _ | _ | _ | ⟨_ | _, m, e, _⟩
  · cases fu
  · cases fu
  all_goals exact ⟨rfl, rfl⟩

/-- No finite double reaches the power that packing takes for unbounded. -/
theorem abs_number_lt {b : BitVec Format.binary64.numBits}
    (finite : (unpack .binary64 b).isFinite = true) :
    |number (unpack .binary64 b)| < 2 ^ 52 * 2 ^ (972 : ℤ) := by
  have canonical := canonical_unpack b
  cases h : unpack .binary64 b with
  | notANumber | infinity =>
    rw [h] at finite
    cases finite
  | zero s =>
    show |(0 : ℚ)| < _
    rw [abs_zero]
    positivity
  | finite s m e positive =>
    rw [h] at canonical
    have large := exponent_of_unpack h
    change ¬ 2 ^ 11 ≤ (e + 1023 + 52).toNat + 1 at large
    rw [abs_number]
    exact small_beside canonical.1 (by omega)

/-- Packing keeps a number on its side of every double. -/
theorem side_pack {b : BitVec Format.binary64.numBits} {w : UnpackedFloat}
    (finite : (unpack .binary64 b).isFinite = true) (cw : Canonical w) (fw : w.isFinite = true) :
    (number (unpack .binary64 b) ≤ number w →
      (unpack .binary64 b).le (unpack .binary64 (UnpackedFloat.pack .binary64 w)) = true) ∧
    (number w ≤ number (unpack .binary64 b) →
      (unpack .binary64 (UnpackedFloat.pack .binary64 w)).le (unpack .binary64 b) = true) := by
  have canonical := canonical_unpack b
  have same (eq : unpack .binary64 (UnpackedFloat.pack .binary64 w) = w) :
      (number (unpack .binary64 b) ≤ number w →
        (unpack .binary64 b).le (unpack .binary64 (UnpackedFloat.pack .binary64 w)) = true) ∧
      (number w ≤ number (unpack .binary64 b) →
        (unpack .binary64 (UnpackedFloat.pack .binary64 w)).le (unpack .binary64 b) = true) := by
    rw [eq]
    exact ⟨le_of_number_le canonical cw finite fw, le_of_number_le cw canonical fw finite⟩
  cases w with
  | notANumber | infinity => cases fw
  | zero s => exact same (by cases s <;> rfl)
  | finite s m e positive =>
    have packed := @unpack_pack s m e positive cw
    by_cases large : e ≤ 971
    · exact same (packed.trans (if_pos large))
    · -- what is too large is beyond every double
      rw [packed, if_neg large]
      have most := abs_lt.mp (abs_number_lt finite)
      have big : (2 : ℚ) ^ 52 * 2 ^ (972 : ℤ) ≤ m * 2 ^ e := by
        have full : (2 : ℚ) ^ 52 ≤ m := by exact_mod_cast cw.2.2.resolve_left (by omega)
        gcongr
        · norm_num
        · omega
      cases s with
      | positive =>
        have number : number (.finite .positive m e positive) = m * 2 ^ e := rfl
        rw [number]
        exact ⟨fun _ => (le_infinity finite).1, fun le => by linarith⟩
      | negative =>
        have number : number (.finite .negative m e positive) = -(m * 2 ^ e) := by
          simp [Doubles.number, Sign.apply]
        rw [number]
        exact ⟨fun le => by linarith, fun _ => (le_infinity finite).2⟩

theorem number_side {s : Sign} {v : UnpackedFloat} (side : OnSide s v) :
    (s = .positive → 0 ≤ number v) ∧ (s = .negative → number v ≤ 0) := by
  cases v with
  | notANumber => exact side.elim
  | infinity | zero => exact ⟨fun _ => le_rfl, fun _ => le_rfl⟩
  | finite t m e p =>
    have positive : (0 : ℚ) ≤ m * 2 ^ e := by positivity
    obtain rfl := side
    constructor
    · rintro rfl
      exact positive
    · rintro rfl
      simpa [number, Sign.apply] using positive

/-- What is added moves a double to its own side, or not at all. -/
theorem sum_side {b : BitVec Format.binary64.numBits} {s : Sign} {v : UnpackedFloat}
    (cv : Canonical v) (side : OnSide s v)
    (defined : unpack .binary64 (UnpackedFloat.pack .binary64
      (UnpackedFloat.add .binary64 (unpack .binary64 b) v)) ≠ .notANumber) :
    (s = .positive → (unpack .binary64 b).le (unpack .binary64 (UnpackedFloat.pack .binary64
      (UnpackedFloat.add .binary64 (unpack .binary64 b) v))) = true) ∧
    (s = .negative → (unpack .binary64 (UnpackedFloat.pack .binary64
      (UnpackedFloat.add .binary64 (unpack .binary64 b) v))).le (unpack .binary64 b) = true) := by
  by_cases finite : (unpack .binary64 b).isFinite = true
  · by_cases fv : v.isFinite = true
    · have cu := canonical_unpack b
      have rounds := rounds_add cu cv finite fv
      have packed := side_pack finite rounds.canonical rounds.finite
      have term := number_side side
      constructor
      · intro up
        exact packed.1 (rounds.above cu finite (le_add_of_nonneg_right (term.1 up)))
      · intro down
        exact packed.2 (rounds.below cu finite (add_le_of_nonpos_right (term.2 down)))
    · obtain rfl : v = .infinity s := by
        cases v with
        | notANumber => exact side.elim
        | infinity t => exact congrArg UnpackedFloat.infinity side
        | zero | finite => exact absurd rfl fv
      have sum : UnpackedFloat.add .binary64 (unpack .binary64 b) (.infinity s) = .infinity s := by
        revert finite
        cases unpack .binary64 b <;> intro finite <;> first | rfl | cases finite
      rw [sum]
      constructor
      · rintro rfl
        exact (le_infinity finite).1
      · rintro rfl
        exact (le_infinity finite).2
  · cases h : unpack .binary64 b with
    | zero | finite =>
      rw [h] at finite
      exact absurd rfl finite
    | notANumber =>
      have sum : UnpackedFloat.add .binary64 .notANumber v = .notANumber := by cases v <;> rfl
      rw [h, sum] at defined
      exact absurd rfl defined
    | infinity t =>
      rw [h] at defined
      have sum : UnpackedFloat.add .binary64 (.infinity t) v = .infinity t := by
        cases v with
        | notANumber => exact side.elim
        | zero | finite => rfl
        | infinity r =>
          cases t <;> cases r <;> first | rfl | exact absurd rfl defined
      rw [sum]
      cases t <;> exact ⟨fun _ => rfl, fun _ => rfl⟩

theorem canonical_neg {u : UnpackedFloat} (canonical : Canonical u) : Canonical u.neg := by
  cases u <;> exact canonical

/-- A finite number has the side of its sign. -/
theorem onSide_of_number {w : UnpackedFloat} (finite : w.isFinite = true) :
    (0 ≤ number w → OnSide .positive w) ∧ (number w ≤ 0 → OnSide .negative w) := by
  cases w with
  | notANumber | infinity => cases finite
  | zero => exact ⟨fun _ => trivial, fun _ => trivial⟩
  | finite s m e p =>
    have positive : (0 : ℚ) < m * 2 ^ e := by positivity
    cases s with
    | positive => exact ⟨fun _ => rfl, fun le => absurd positive (not_lt.mpr le)⟩
    | negative =>
      refine ⟨fun le => ?_, fun _ => rfl⟩
      have number : number (.finite .negative m e p) = -(m * 2 ^ e) := by
        simp [Doubles.number, Sign.apply]
      rw [number] at le
      linarith

/-- A difference, if there is one, lies on the side that the order says. -/
theorem difference_side {u v : UnpackedFloat} (cu : Canonical u) (cv : Canonical v)
    {x y : ℤ ×ₗ ℤ ×ₗ ℤ} (hx : x ∈ rank u) (hy : y ∈ rank v) (le : x ≤ y) :
    (UnpackedFloat.sub .binary64 u v = .notANumber ∨
      OnSide .negative (UnpackedFloat.sub .binary64 u v)) ∧
    (UnpackedFloat.sub .binary64 v u = .notANumber ∨
      OnSide .positive (UnpackedFloat.sub .binary64 v u)) := by
  by_cases finite : u.isFinite = true ∧ v.isFinite = true
  · obtain ⟨fu, fv⟩ := finite
    have order := number_le cu cv fu fv hx hy le
    rw [sub_eq, sub_eq]
    have down := rounds_add cu (canonical_neg cv) fu ((isFinite_neg v).trans fv)
    have up := rounds_add cv (canonical_neg cu) fv ((isFinite_neg u).trans fu)
    rw [number_neg] at down up
    have zero : Canonical (.zero .positive) := trivial
    refine ⟨.inr ((onSide_of_number down.finite).2 ?_), .inr ((onSide_of_number up.finite).1 ?_)⟩
    · exact down.below zero rfl (by linarith [show number (.zero .positive) = 0 from rfl])
    · exact up.above zero rfl (by linarith [show number (.zero .positive) = 0 from rfl])
  · rcases u with (_ | _) | _ | _ | ⟨_ | _, m, e, _⟩ <;>
      rcases v with (_ | _) | _ | _ | ⟨_ | _, m', e', _⟩ <;>
      first
      | exact absurd ⟨rfl, rfl⟩ finite
      | exact ⟨.inl rfl, .inl rfl⟩
      | exact ⟨.inr rfl, .inr rfl⟩
      | (cases hx; done)
      | (cases hy; done)
      | (cases hx
         cases hy
         exact absurd le (by simp [Prod.Lex.toLex_le_toLex]))

/-- A product, if there is one, lies on the side its factors say. -/
theorem product_side {s t : Sign} {u v : UnpackedFloat} (hu : OnSide s u) (hv : OnSide t v) :
    UnpackedFloat.mul .binary64 u v = .notANumber ∨
      OnSide (s * t) (UnpackedFloat.mul .binary64 u v) := by
  by_cases finite : u.isFinite = true ∧ v.isFinite = true
  · exact .inr (onSide_mul hu hv finite.1 finite.2)
  · cases u <;> cases v <;>
      first
      | exact absurd ⟨rfl, rfl⟩ finite
      | exact .inl rfl
      | (obtain rfl := hu
         obtain rfl := hv
         exact .inr rfl)

/-- So does a quotient whose divisor is positive. -/
theorem quotient_side {u v : UnpackedFloat} (hu : OnSide .positive u)
    (hv : v = .infinity .positive ∨ ∃ m e p, v = .finite .positive m e p) :
    UnpackedFloat.div .binary64 u v = .notANumber ∨
      OnSide .positive (UnpackedFloat.div .binary64 u v) := by
  obtain rfl | ⟨m, e, p, rfl⟩ := hv <;> cases u
  · exact .inl rfl
  · exact .inl rfl
  · exact .inr trivial
  · exact .inr trivial
  · obtain rfl := hu
    exact .inr rfl
  · exact .inl rfl
  · exact .inr trivial
  · obtain rfl := hu
    exact .inr (onSide_round _ _ _ _)

/-! ## Packed doubles -/

theorem le_iff_unpack {a b : Float} : a ≤ b ↔ a.toModel.unpack.le b.toModel.unpack = true :=
  le_iff.trans (le_iff_rank _ _).symm

theorem isNaN_iff {a : Float} : isNaN a = true ↔ a.toModel.unpack = .notANumber := by
  rw [isNaN_eq, Option.isNone_iff_eq_none]
  refine ⟨eq_notANumber_of_rank, ?_⟩
  intro h
  unfold place
  rw [h]
  rfl

theorem defined_iff {a : Float} : isNaN a = false ↔ a.toModel.unpack ≠ .notANumber := by
  rw [ne_eq, ← isNaN_iff, Bool.not_eq_true]

theorem toModel_add (a b : Float) : (a + b).toModel =
    Float.Model.pack (UnpackedFloat.add .binary64 a.toModel.unpack b.toModel.unpack) := rfl

theorem toModel_sub (a b : Float) : (a - b).toModel =
    Float.Model.pack (UnpackedFloat.sub .binary64 a.toModel.unpack b.toModel.unpack) := rfl

theorem toModel_mul (a b : Float) : (a * b).toModel =
    Float.Model.pack (UnpackedFloat.mul .binary64 a.toModel.unpack b.toModel.unpack) := rfl

theorem toModel_div (a b : Float) : (a / b).toModel =
    Float.Model.pack (UnpackedFloat.div .binary64 a.toModel.unpack b.toModel.unpack) := rfl

/-- A result on one side, if it is defined, keeps to it when it is packed. -/
theorem onSide_of_defined {s : Sign} {x : Float} {u : UnpackedFloat}
    (eq : x.toModel = Float.Model.pack u) (side : u = .notANumber ∨ OnSide s u)
    (defined : isNaN x = false) : OnSide s x.toModel.unpack := by
  rw [defined_iff, eq] at defined
  rw [eq]
  rcases side with rfl | side
  · exact absurd rfl defined
  · exact onSide_unpack_pack side

theorem rank_le_top {u : UnpackedFloat} {x : ℤ ×ₗ ℤ ×ₗ ℤ} (hx : rank u = some x) :
    x ≤ toLex (2, toLex (0, 0)) := by
  rcases u with (_ | _) | _ | _ | ⟨_ | _, m, e, _⟩ <;> cases hx <;>
    simp [Prod.Lex.toLex_le_toLex]

instance : Rounded Float where
  not_lt_of_le := by
    intro a b le lt
    obtain ⟨x, hx, y, hy, le⟩ := le_iff.mp le
    obtain ⟨y', hy', x', hx', lt⟩ := lt_iff.mp lt
    obtain rfl := Option.mem_unique hx hx'
    obtain rfl := Option.mem_unique hy hy'
    exact absurd lt (not_lt.mpr le)
  beq_iff := by
    intro a b
    refine (beq_iff_rank a.toModel.unpack b.toModel.unpack).trans ?_
    rw [le_iff, le_iff]
    constructor
    · rintro ⟨x, hx, y, hy, rfl⟩
      exact ⟨⟨x, hx, x, hy, le_rfl⟩, x, hy, x, hx, le_rfl⟩
    · rintro ⟨⟨x, hx, y, hy, le⟩, y', hy', x', hx', ge⟩
      obtain rfl := Option.mem_unique hx hx'
      obtain rfl := Option.mem_unique hy hy'
      exact ⟨x, hx, y, hy, le_antisymm le ge⟩
  le_unbounded := by
    intro a defined
    have top : place (Quantity.unbounded : Float) = some (toLex (2, toLex (0, 0))) := rfl
    rw [isNaN_eq, Option.isNone_eq_false_iff, Option.isSome_iff_exists] at defined
    obtain ⟨x, hx⟩ := defined
    exact le_iff.mpr ⟨x, hx, _, top, rank_le_top hx⟩
  zero_lt_thousandth := by decide +kernel
  defined_of_add := by
    intro a b defined
    rw [defined_iff] at defined ⊢
    intro undefined
    have lost : UnpackedFloat.add .binary64 a.toModel.unpack .notANumber = .notANumber := by
      cases a.toModel.unpack <;> rfl
    rw [toModel_add, undefined, lost] at defined
    exact defined rfl
  defined_of_sub_right := by
    intro a b defined
    rw [defined_iff] at defined ⊢
    intro undefined
    have lost : UnpackedFloat.sub .binary64 a.toModel.unpack .notANumber = .notANumber := by
      cases a.toModel.unpack <;> rfl
    rw [toModel_sub, undefined, lost] at defined
    exact defined rfl
  defined_of_mul := by
    intro a b defined
    rw [defined_iff] at defined ⊢
    intro undefined
    have lost : UnpackedFloat.mul .binary64 .notANumber b.toModel.unpack = .notANumber := by
      cases b.toModel.unpack <;> rfl
    rw [toModel_mul, undefined, lost] at defined
    exact defined rfl
  defined_of_div := by
    intro a b defined
    rw [defined_iff] at defined ⊢
    intro undefined
    have lost : UnpackedFloat.div .binary64 .notANumber b.toModel.unpack = .notANumber := by
      cases b.toModel.unpack <;> rfl
    rw [toModel_div, undefined, lost] at defined
    exact defined rfl
  le_add := by
    intro a b nonneg defined
    rw [defined_iff, toModel_add] at defined
    rw [le_iff_unpack, toModel_add]
    exact (sum_side (canonical_unpack _) (nonneg_iff.mp nonneg) defined).1 rfl
  add_le := by
    intro a b nonpos defined
    rw [defined_iff, toModel_add] at defined
    rw [le_iff_unpack, toModel_add]
    exact (sum_side (canonical_unpack _) (nonpos_iff.mp nonpos) defined).2 rfl
  sub_le := by
    intro a b nonneg defined
    have difference : (a - b).toModel = Float.Model.pack
        (UnpackedFloat.add .binary64 a.toModel.unpack b.toModel.unpack.neg) :=
      congrArg Float.Model.pack (sub_eq _ _)
    rw [defined_iff, difference] at defined
    rw [le_iff_unpack, difference]
    exact (sum_side (canonical_neg (canonical_unpack _)) (onSide_neg (nonneg_iff.mp nonneg))
      defined).2 rfl
  sub_nonneg := by
    intro a b le defined
    obtain ⟨x, hx, y, hy, le⟩ := le_iff.mp le
    exact nonneg_iff.mpr (onSide_of_defined (toModel_sub a b)
      (difference_side (canonical_unpack _) (canonical_unpack _) hx hy le).2 defined)
  sub_nonpos := by
    intro a b le defined
    obtain ⟨x, hx, y, hy, le⟩ := le_iff.mp le
    exact nonpos_iff.mpr (onSide_of_defined (toModel_sub a b)
      (difference_side (canonical_unpack _) (canonical_unpack _) hx hy le).1 defined)
  mul_nonneg_of_defined := by
    intro a b ha hb defined
    exact nonneg_iff.mpr (onSide_of_defined (toModel_mul a b)
      (product_side (nonneg_iff.mp ha) (nonneg_iff.mp hb)) defined)
  mul_nonpos_of_defined := by
    intro a b ha hb defined
    exact nonpos_iff.mpr (onSide_of_defined (toModel_mul a b)
      (product_side (nonpos_iff.mp ha) (nonneg_iff.mp hb)) defined)
  div_nonneg_of_defined := by
    intro a b ha hb defined
    have positive : b.toModel.unpack = .notANumber ∨ b.toModel.unpack = .infinity .positive ∨
        ∃ m e p, b.toModel.unpack = .finite .positive m e p := by
      have hb : ¬ OnSide .negative b.toModel.unpack := mt nonpos_iff.mpr hb
      rcases h : b.toModel.unpack with (_ | _) | _ | _ | ⟨_ | _, m, e, p⟩ <;> rw [h] at hb <;>
        simp [OnSide] at hb ⊢
      exact p
    rcases positive with undefined | positive
    · rw [defined_iff] at defined
      have lost : UnpackedFloat.div .binary64 a.toModel.unpack .notANumber = .notANumber := by
        cases a.toModel.unpack <;> rfl
      rw [toModel_div, undefined, lost] at defined
      exact absurd rfl defined
    · exact nonneg_iff.mpr (onSide_of_defined (toModel_div a b)
        (quotient_side (nonneg_iff.mp ha) positive) defined)

end Doubles

end UnitDispatch
