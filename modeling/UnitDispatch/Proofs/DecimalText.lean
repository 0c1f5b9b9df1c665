import UnitDispatch.Decimal.FixedPlaces
import UnitDispatch.Proofs.Rounding

/-! # Decimal texts read back

What can be read from the text of a double with fixed places: its value, rounded to the nearest
multiple of the last place (`read?_fixedPlaces`). The text is made from the bits of the double;
`value_ofBits` says that they stand for the number that the double counts as in arithmetic.
-/

namespace UnitDispatch

namespace Decimal

open Doubles Float.Model UnpackedFloat

/-! ## The value of a double -/

/-- What a double counts as. -/
def exactly : UnpackedFloat → Exact ℚ
  | .notANumber => .nan
  | .infinity .positive => .posInf
  | .infinity .negative => .negInf
  | u => .fin (number u)

/-- What a double counts as in arithmetic. -/
def value (x : Float) : Exact ℚ := exactly x.toModel.unpack

/-- A magnitude with a sign before it. -/
def withSign (negative : Bool) (x : Exact ℚ) : Exact ℚ := if negative then x.neg else x

/-- What the parts of a double stand for. -/
def Double.value : Double → Exact ℚ
  | .undefined => .nan
  | .infinite negative => withSign negative .posInf
  | .finite negative mantissa exponent => withSign negative (.fin (mantissa * 2 ^ exponent))

theorem toNat_fraction (bits : UInt64) : (bits &&& 0xfffffffffffff).toNat =
    (@unpackMantissa .binary64 bits.toBitVec).toNat := by
  rw [UInt64.toNat_and]
  show bits.toNat &&& (2 ^ 52 - 1) = _
  rw [Nat.and_two_pow_sub_one_eq_mod]
  simp [unpackMantissa]

theorem toNat_exponent (bits : UInt64) : ((bits >>> 52) &&& 0x7ff).toNat =
    (@unpackExponent .binary64 bits.toBitVec).toNat := by
  rw [UInt64.toNat_and]
  show (bits >>> 52).toNat &&& (2 ^ 11 - 1) = _
  rw [Nat.and_two_pow_sub_one_eq_mod]
  simp [unpackExponent]

theorem sign_eq (bits : UInt64) : (bits >>> 63 == 1) =
    (Sign.ofBitVec (@unpackSign .binary64 bits.toBitVec) == .negative) := by
  have top : (bits >>> 63).toNat = (@unpackSign .binary64 bits.toBitVec).toNat := by
    have := bits.toNat_lt
    simp [unpackSign]
    omega
  generalize @unpackSign .binary64 bits.toBitVec = sign at top
  have word : (bits >>> 63 == 1) = (sign.toNat == 1) := by
    rw [Bool.eq_iff_iff, beq_iff_eq, beq_iff_eq, ← UInt64.toNat_inj, top]
    rfl
  rw [word]
  rcases BitVec.eq_zero_or_eq_one sign with rfl | rfl <;> rfl

theorem exactly_finite {s : Sign} {m : ℕ} {e : ℤ} (positive : 0 < m) :
    exactly (.finite s m e positive) = withSign (s == .negative) (.fin (m * 2 ^ e)) := by
  cases s
  · show Exact.fin (((-(m : ℤ) : ℤ) : ℚ) * 2 ^ e) = .fin (-(m * 2 ^ e))
    rw [Int.cast_neg, Int.cast_natCast, neg_mul]
  · show Exact.fin (((m : ℤ) : ℚ) * 2 ^ e) = .fin (m * 2 ^ e)
    rw [Int.cast_natCast]

/-- The bits of a double stand for what it counts as. -/
theorem value_ofBits (x : Float) : (Double.ofBits x.toBits).value = value x := by
  show (Double.ofBits x.toBits).value = exactly (.unpack .binary64 x.toBits.toBitVec)
  generalize x.toBits = bits
  have full : (@unpackExponent .binary64 bits.toBitVec).toNat = 0x7ff ↔
      @unpackExponent .binary64 bits.toBitVec = -1#_ := BitVec.toNat_inj (y := -1#11)
  have least : (@unpackExponent .binary64 bits.toBitVec).toNat = 0 ↔
      @unpackExponent .binary64 bits.toBitVec = 0#_ := BitVec.toNat_inj (y := 0#11)
  have none : (@unpackMantissa .binary64 bits.toBitVec).toNat = 0 ↔
      @unpackMantissa .binary64 bits.toBitVec = 0#_ := BitVec.toNat_inj (y := 0#52)
  unfold Double.ofBits UnpackedFloat.unpack
  simp only [toNat_fraction, toNat_exponent, sign_eq, full, least, none]
  split
  · split
    · cases Sign.ofBitVec (@unpackSign .binary64 bits.toBitVec) <;> rfl
    · rfl
  · split
    next zero =>
      split
      next nothing =>
        rw [none.mpr nothing]
        cases Sign.ofBitVec (@unpackSign .binary64 bits.toBitVec) <;>
          simp [Double.value, withSign, exactly, number, Exact.neg]
      next =>
        rw [exactly_finite, least.mpr zero]
        rfl
    · rw [exactly_finite, toNat_implicit, add_comm (2 ^ 52)]
      rfl

/-! ## Rounding to the nearest -/

/-- The multiple of a unit that is nearest to a number, of two the even one. -/
structure IsNearest (unit x y : ℚ) : Prop where
  multiple : ∃ n : ℤ, y = n * unit
  nearest : ∀ n : ℤ, |y - x| ≤ |n * unit - x|
  even : ∀ n k : ℤ, y = n * unit → k ≠ n → |k * unit - x| = |y - x| → Even n

theorem IsNearest.neg {unit x y : ℚ} (h : IsNearest unit x y) : IsNearest unit (-x) (-y) := by
  have turn (z : ℚ) : |-z - -x| = |z - x| := by rw [neg_sub_neg, abs_sub_comm]
  have flip (n : ℤ) : |n * unit - -x| = |(-n : ℤ) * unit - x| := by
    rw [← turn, Int.cast_neg, neg_mul, neg_neg]
  obtain ⟨n, hn⟩ := h.multiple
  refine ⟨⟨-n, by rw [hn, Int.cast_neg, neg_mul]⟩, ?_, ?_⟩
  · intro n
    rw [turn, flip]
    exact h.nearest (-n)
  · intro n k hn other same
    rw [turn, flip] at same
    have := h.even (-n) (-k) (by rw [Int.cast_neg, neg_mul, ← hn, neg_neg]) (by omega) same
    rwa [even_neg] at this

/-- A whole number within half a unit is nearest. -/
theorem isNearest_of_close {places : ℕ} {x : ℚ} {n : ℤ} (close : |n - x * 10 ^ places| ≤ 1 / 2)
    (even : |n - x * 10 ^ places| = 1 / 2 → Even n) :
    IsNearest (1 / 10 ^ places) x (n * (1 / 10 ^ places)) := by
  have unit : (0 : ℚ) < 1 / 10 ^ places := by positivity
  have scaled (k : ℤ) :
      |k * (1 / 10 ^ places) - x| = |k - x * 10 ^ places| * (1 / 10 ^ places) := by
    rw [← abs_of_pos unit, ← abs_mul, abs_of_pos unit]
    congr 1
    field_simp
  -- Any other whole number is a unit away from this one, so no nearer.
  have far {k : ℤ} (other : k ≠ n) : 1 / 2 ≤ |k - x * 10 ^ places| := by
    have one : (1 : ℚ) ≤ |(k : ℚ) - n| := by
      have : (1 : ℤ) ≤ |k - n| := Int.one_le_abs (sub_ne_zero.mpr other)
      exact_mod_cast this
    have := abs_sub_le (k : ℚ) (x * 10 ^ places) n
    rw [abs_sub_comm (x * 10 ^ places)] at this
    linarith
  refine ⟨⟨n, rfl⟩, ?_, ?_⟩
  · intro k
    rw [scaled, scaled]
    refine mul_le_mul_of_nonneg_right ?_ unit.le
    by_cases other : k = n
    · rw [other]
    · exact close.trans (far other)
  · intro m k eq other same
    have : m = n := by exact_mod_cast (mul_right_cancel₀ unit.ne' eq).symm
    subst this
    rw [scaled, scaled] at same
    have same := mul_right_cancel₀ unit.ne' same
    exact even (le_antisymm close (same ▸ far other))

/-- Half a unit off, the whole number is even. -/
theorem even_roundHalfEven {num den : ℕ} (pos : 0 < den)
    (half : 2 * (roundHalfEven num den * den) = 2 * num + den ∨
      2 * num = 2 * (roundHalfEven num den * den) + den) : Even (roundHalfEven num den) := by
  have split := Nat.div_add_mod' num den
  have below := Nat.mod_lt num pos
  rw [Nat.even_iff]
  unfold roundHalfEven at half ⊢
  dsimp only at half ⊢
  split at half
  next down =>
    rw [if_pos down]
    omega
  next up =>
    rw [if_neg up]
    rw [Nat.add_mul] at half
    omega

theorem roundHalfEven_spec {num den : ℕ} (pos : 0 < den) :
    |((roundHalfEven num den : ℤ) : ℚ) - num / den| ≤ 1 / 2 ∧
      (|((roundHalfEven num den : ℤ) : ℚ) - num / den| = 1 / 2 →
        Even (roundHalfEven num den : ℤ)) := by
  have den_pos : (0 : ℚ) < den := by exact_mod_cast pos
  have below := @two_mul_roundHalfEven_le num den pos
  have above := @le_two_mul_roundHalfEven num den pos
  have even := @even_roundHalfEven num den pos
  generalize roundHalfEven num den = r at below above even ⊢
  have scaled : ((r : ℤ) : ℚ) - num / den = (r * den - num) / den := by
    push_cast
    field_simp
  rw [scaled, abs_div, abs_of_pos den_pos, div_le_iff₀ den_pos, div_eq_iff den_pos.ne', abs_le,
    Int.even_coe_nat]
  have below : 2 * ((r : ℚ) * den) ≤ 2 * num + den := by exact_mod_cast below
  have above : 2 * (num : ℚ) ≤ 2 * (r * den) + den := by exact_mod_cast above
  refine ⟨⟨by linarith, by linarith⟩, fun half => even ?_⟩
  rcases abs_eq (by positivity) |>.mp half with half | half
  · refine .inl ?_
    have : 2 * ((r : ℚ) * den) = 2 * num + den := by linarith
    exact_mod_cast this
  · refine .inr ?_
    have : 2 * (num : ℚ) = 2 * (r * den) + den := by linarith
    exact_mod_cast this

/-- The units of a double are as many as are nearest. -/
theorem units_spec (places mantissa : ℕ) (exponent : ℤ) :
    IsNearest (1 / 10 ^ places) (mantissa * 2 ^ exponent)
      ((units places mantissa exponent : ℤ) * (1 / 10 ^ places)) := by
  suffices
      |((units places mantissa exponent : ℤ) : ℚ) - mantissa * 2 ^ exponent * 10 ^ places| ≤
        1 / 2 ∧
      (|((units places mantissa exponent : ℤ) : ℚ) - mantissa * 2 ^ exponent * 10 ^ places| =
        1 / 2 → Even (units places mantissa exponent : ℤ)) from
    isNearest_of_close this.1 this.2
  cases exponent with
  | ofNat e =>
    have whole : ((units places mantissa (.ofNat e) : ℤ) : ℚ) -
        mantissa * 2 ^ Int.ofNat e * 10 ^ places = 0 := by
      simp [units]
    rw [whole, abs_zero]
    norm_num
  | negSucc e =>
    have quotient : (mantissa : ℚ) * 2 ^ Int.negSucc e * 10 ^ places =
        (mantissa * 10 ^ places : ℕ) / (2 ^ (e + 1) : ℕ) := by
      rw [zpow_negSucc]
      push_cast
      ring
    rw [quotient]
    exact roundHalfEven_spec (Nat.two_pow_pos (e + 1))

/-! ## Reading -/

/-- Whether a text is made of digits, of one at least. -/
def isNumeral (l : List Char) : Bool := !l.isEmpty && l.all Char.isDigit

/-- Reads a number without a sign: digits, perhaps with a point among them, or `inf`. -/
def unsigned? (l : List Char) : Option (Exact ℚ) :=
  if l = ['i', 'n', 'f'] then some .posInf
  else match l.splitOn '.' with
    | [whole] => if isNumeral whole then some (.fin (Nat.ofDigitChars 10 whole 0)) else none
    | [whole, part] =>
      if isNumeral whole && isNumeral part then
        some (.fin (Nat.ofDigitChars 10 (whole ++ part) 0 / 10 ^ part.length))
      else none
    | _ => none

/-- Reads a number that may stand behind a minus. -/
def signed? : List Char → Option (Exact ℚ)
  | '-' :: rest => (unsigned? rest).map (withSign true)
  | l => unsigned? l

/-- Reads a number, or that there is none. -/
def read? (text : String) : Option (Exact ℚ) :=
  if text = "NaN" then some .nan else signed? text.toList

/-- What is left of a number by so many places; what is not finite stays as it is. -/
def RoundsTo (places : ℕ) : Exact ℚ → Exact ℚ → Prop
  | .fin x, .fin y => IsNearest (1 / 10 ^ places) x y
  | x, y => x = y

theorem RoundsTo.withSign {places : ℕ} {x y : ℚ} (h : IsNearest (1 / 10 ^ places) x y)
    (negative : Bool) :
    RoundsTo places (withSign negative (.fin x)) (withSign negative (.fin y)) := by
  cases negative
  · exact h
  · exact h.neg

theorem isNumeral_iff {l : List Char} :
    isNumeral l = true ↔ l ≠ [] ∧ ∀ c ∈ l, c.isDigit = true := by
  simp [isNumeral]

theorem isNumeral_toDigits (n : ℕ) : isNumeral (Nat.toDigits 10 n) = true :=
  isNumeral_iff.mpr
    ⟨Nat.toDigits_ne_nil, fun _ => Nat.isDigit_of_mem_toDigits (by norm_num) (by norm_num)⟩

theorem toList_padded (width n : ℕ) : (padded width n).toList =
    List.replicate (width - (Nat.toDigits 10 n).length) '0' ++ Nat.toDigits 10 n := by
  have pushed (k : ℕ) : ("".pushn '0' k).toList = List.replicate k '0' := by
    rw [String.pushn_eq_repeat_push]
    induction k with
    | zero => rfl
    | succ k ih => rw [Nat.repeat, String.toList_push, ih, List.replicate_succ']
  unfold padded
  rw [String.toList_append, pushed, Nat.toString_eq_ofList_toDigits, String.toList_ofList,
    String.length_ofList]

/-- A text of so many digits has no more if the number is small enough. -/
theorem padded_spec {width n : ℕ} (pos : 0 < width) (small : n < 10 ^ width) :
    isNumeral (padded width n).toList = true ∧ (padded width n).toList.length = width ∧
      Nat.ofDigitChars 10 (padded width n).toList 0 = n := by
  have short := (Nat.length_toDigits_le_iff (by norm_num) pos).mpr small
  obtain ⟨some, digits⟩ := isNumeral_iff.mp (isNumeral_toDigits n)
  rw [toList_padded]
  refine ⟨isNumeral_iff.mpr ⟨List.append_ne_nil_of_right_ne_nil _ some, ?_⟩, ?_, ?_⟩
  · intro c hc
    rcases List.mem_append.mp hc with hc | hc
    · rw [List.eq_of_mem_replicate hc]
      rfl
    · exact digits c hc
  · rw [List.length_append, List.length_replicate]
    omega
  · rw [Nat.ofDigitChars_append, Nat.ofDigitChars_replicate_zero, Nat.mul_zero,
      Nat.ofDigitChars_toDigits (by norm_num) (by norm_num)]

theorem toList_ofUnits {places : ℕ} (pos : 0 < places) (n : ℕ) : (ofUnits places n).toList =
    Nat.toDigits 10 (n / 10 ^ places) ++ '.' :: (padded places (n % 10 ^ places)).toList := by
  unfold ofUnits
  rw [if_neg pos.ne', String.toList_append, String.toList_append, Nat.toString_eq_ofList_toDigits,
    String.toList_ofList, List.append_assoc]
  rfl

theorem unsigned?_ofUnits {places : ℕ} (pos : 0 < places) (n : ℕ) :
    unsigned? (ofUnits places n).toList = some (.fin ((n : ℤ) * (1 / 10 ^ places))) := by
  obtain ⟨numeral, length, part⟩ := padded_spec pos (Nat.mod_lt n (Nat.pow_pos (n := places)
    (show 0 < 10 by norm_num)))
  have pointless {l : List Char} (h : isNumeral l = true) : '.' ∉ l := by
    intro point
    exact absurd ((isNumeral_iff.mp h).2 '.' point) (by decide)
  have whole := isNumeral_toDigits (n / 10 ^ places)
  have cut : (ofUnits places n).toList.splitOn '.' =
      [Nat.toDigits 10 (n / 10 ^ places), (padded places (n % 10 ^ places)).toList] := by
    have joined (whole part : List Char) :
        whole ++ '.' :: part = ['.'].intercalate [whole, part] := by simp [List.intercalate]
    rw [toList_ofUnits pos, joined]
    refine List.splitOn_intercalate '.' ?_ (List.cons_ne_nil _ _)
    intro l hl
    rcases List.mem_pair.mp hl with rfl | rfl
    · exact pointless whole
    · exact pointless numeral
  have notInf : (ofUnits places n).toList ≠ ['i', 'n', 'f'] := by
    intro eq
    have point : '.' ∈ (ofUnits places n).toList := by simp [toList_ofUnits pos]
    rw [eq] at point
    exact absurd point (by decide)
  unfold unsigned?
  rw [if_neg notInf, cut]
  simp only [whole, numeral, Bool.and_self, if_true, length]
  rw [Nat.ofDigitChars_append, Nat.ofDigitChars_eq_ofDigitChars_zero, part, length,
    Nat.ofDigitChars_toDigits (by norm_num) (by norm_num), Nat.div_add_mod]
  rw [mul_one_div, Int.cast_natCast]

theorem signed?_of_digit {d : Char} (digit : d.isDigit = true) (rest : List Char) :
    signed? (d :: rest) = unsigned? (d :: rest) := by
  unfold signed?
  split
  next minus =>
    cases minus
    cases digit
  next => rfl

theorem signed?_ofUnits {places : ℕ} (pos : 0 < places) (negative : Bool) (n : ℕ) :
    signed? ((if negative then "-" else "") ++ ofUnits places n).toList =
      some (withSign negative (.fin ((n : ℤ) * (1 / 10 ^ places)))) := by
  have read := unsigned?_ofUnits pos n
  rw [String.toList_append]
  cases negative with
  | true => exact congrArg (Option.map (withSign true)) read
  | false =>
    obtain ⟨some, digits⟩ := isNumeral_iff.mp (isNumeral_toDigits (n / 10 ^ places))
    obtain ⟨d, rest, first⟩ := List.exists_cons_of_ne_nil some
    have shape := toList_ofUnits pos n
    rw [first, List.cons_append] at shape
    rw [shape] at read
    show signed? (ofUnits places n).toList = _
    rw [shape, signed?_of_digit (digits d (first ▸ List.mem_cons_self)), read]
    rfl

theorem read?_signed {places : ℕ} (pos : 0 < places) (negative : Bool) (n : ℕ) :
    read? ((if negative then "-" else "") ++ ofUnits places n) =
      some (withSign negative (.fin ((n : ℤ) * (1 / 10 ^ places)))) := by
  have number : ((if negative then "-" else "") ++ ofUnits places n) ≠ "NaN" := by
    intro eq
    have point : '.' ∈ ((if negative then "-" else "") ++ ofUnits places n).toList := by
      simp [toList_ofUnits pos]
    rw [eq] at point
    exact absurd point (by decide)
  unfold read?
  rw [if_neg number, signed?_ofUnits pos]

/-- The text of a double reads as what is left of it by its places. -/
theorem read?_fixedPlaces {places : ℕ} (pos : 0 < places) (x : Float) :
    ∃ y, read? (fixedPlaces places x) = some y ∧ RoundsTo places (value x) y := by
  rw [← value_ofBits]
  unfold fixedPlaces
  cases Double.ofBits x.toBits with
  | undefined => exact ⟨.nan, rfl, rfl⟩
  | infinite negative =>
    refine ⟨withSign negative .posInf, ?_, by cases negative <;> rfl⟩
    cases negative <;> simp [read?, signed?, unsigned?, withSign]
  | finite negative mantissa exponent =>
    exact ⟨_, read?_signed pos negative _, .withSign (units_spec places mantissa exponent) negative⟩

/-- The characters that the text of a double is made of. -/
def isNumberChar (c : Char) : Bool := c.isDigit || ['-', '.', 'N', 'a', 'i', 'n', 'f'].contains c

theorem isNumberChar_of_mem {places : ℕ} (pos : 0 < places) {x : Float} {c : Char}
    (hc : c ∈ (fixedPlaces places x).toList) : isNumberChar c = true := by
  have fixed {text : String} (all : text.toList.all isNumberChar = true) (hc : c ∈ text.toList) :
      isNumberChar c = true := List.all_eq_true.mp all c hc
  have digit {l : List Char} (numeral : isNumeral l = true) (hc : c ∈ l) :
      isNumberChar c = true := by
    simp [isNumberChar, (isNumeral_iff.mp numeral).2 c hc]
  unfold fixedPlaces at hc
  split at hc
  · exact fixed (by decide +kernel) hc
  · split at hc
    · exact fixed (by decide +kernel) hc
    · exact fixed (by decide +kernel) hc
  next negative mantissa exponent _ =>
    rw [String.toList_append, toList_ofUnits pos, List.mem_append, List.mem_append,
      List.mem_cons] at hc
    have part := padded_spec pos (Nat.mod_lt (units places mantissa exponent)
      (Nat.pow_pos (n := places) (show 0 < 10 by norm_num)))
    rcases hc with sign | whole | rfl | rest
    · exact fixed (by cases negative <;> decide +kernel) sign
    · exact digit (isNumeral_toDigits _) whole
    · rfl
    · exact digit part.1 rest

end Decimal

end UnitDispatch
