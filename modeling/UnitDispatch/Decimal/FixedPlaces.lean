/-! # Decimals with fixed places

The decimal text of a double with a given number of places after the point: its exact value, rounded
to the nearest, a half to the even neighbour. The sign stays, also before a value that rounds to
zero. `two_mul_roundHalfEven_le` and `le_two_mul_roundHalfEven` bound the rounding by half a unit.
-/

namespace UnitDispatch.Decimal

/-- What a double stands for: a finite one for `mantissa * 2 ^ exponent` with its sign. -/
inductive Double where
  | undefined
  | infinite (negative : Bool)
  | finite (negative : Bool) (mantissa : Nat) (exponent : Int)
  deriving DecidableEq, Repr

/-- Reads the parts off the bits: sign, eleven bits of exponent, fifty-two of fraction. -/
def Double.ofBits (bits : UInt64) : Double :=
  let negative := bits >>> 63 == 1
  let exponent := ((bits >>> 52) &&& 0x7ff).toNat
  let fraction := (bits &&& 0xfffffffffffff).toNat
  if exponent = 0x7ff then if fraction = 0 then .infinite negative else .undefined
  else if exponent = 0 then .finite negative fraction (-1074)
  else .finite negative (fraction + 0x10000000000000) ((exponent : Int) - 1075)

/-- The whole number nearest to a quotient, of two the even one. -/
def roundHalfEven (num den : Nat) : Nat :=
  let q := num / den
  let twice := 2 * (num % den)
  if twice < den ∨ twice = den ∧ q % 2 = 0 then q else q + 1

theorem two_mul_roundHalfEven_le {num den : Nat} (pos : 0 < den) :
    2 * (roundHalfEven num den * den) ≤ 2 * num + den := by
  have split := Nat.div_add_mod num den
  have comm := Nat.mul_comm den (num / den)
  unfold roundHalfEven
  dsimp only
  split
  · omega
  · rw [Nat.add_mul]
    omega

theorem le_two_mul_roundHalfEven {num den : Nat} (pos : 0 < den) :
    2 * num ≤ 2 * (roundHalfEven num den * den) + den := by
  have split := Nat.div_add_mod num den
  have below := Nat.mod_lt num pos
  have comm := Nat.mul_comm den (num / den)
  unfold roundHalfEven
  dsimp only
  split
  · omega
  · rw [Nat.add_mul]
    omega

/-- `mantissa * 2 ^ exponent` in units of `10 ^ -places`. -/
def units (places mantissa : Nat) (exponent : Int) : Nat :=
  match exponent with
  | .ofNat e => mantissa * Nat.pow 2 e * Nat.pow 10 places
  | .negSucc e => roundHalfEven (mantissa * Nat.pow 10 places) (Nat.pow 2 (e + 1))

/-- The text of a whole number with `width` digits at least. -/
def padded (width n : Nat) : String :=
  let digits := toString n
  "".pushn '0' (width - digits.length) ++ digits

/-- The text of a number of units of `10 ^ -places`. -/
def ofUnits (places n : Nat) : String :=
  let whole := toString (n / Nat.pow 10 places)
  if places = 0 then whole else whole ++ "." ++ padded places (n % Nat.pow 10 places)

/-- The text of a double with fixed places. -/
def fixedPlaces (places : Nat) (x : Float) : String :=
  match Double.ofBits x.toBits with
  | .undefined => "NaN"
  | .infinite negative => if negative then "-inf" else "inf"
  | .finite negative mantissa exponent =>
    (if negative then "-" else "") ++ ofUnits places (units places mantissa exponent)

/-- A text with blanks before it, up to a width. -/
def padLeft (width : Nat) (text : String) : String :=
  "".pushn ' ' (width - text.length) ++ text

end UnitDispatch.Decimal
