set_option autoImplicit false
set_option relaxedAutoImplicit false

/-!
The exact value of a floating-point number, and its rounding to decimal digits.

All arithmetic is on natural numbers, so every rounding is the correct one.
-/

namespace InfeasibilityControl.Decimal

/-- A power of two. -/
def twoTo (n : Nat) : Nat := Nat.pow 2 n

/-- A power of ten. -/
def tenTo (n : Nat) : Nat := Nat.pow 10 n

/-- A non-negative binary number, `significand * 2 ^ exponent`. -/
structure Magnitude where
  significand : Nat
  exponent : Int
  /-- The next smaller number of the format is half as far away as the next larger one. -/
  tightBelow : Bool

/-- What a floating-point number stands for. -/
inductive Reading
  | undefined
  | infinite (negative : Bool)
  | finite (negative : Bool) (magnitude : Magnitude)

/-- The sign, exponent and fraction fields of the 64-bit format, put together. -/
def Reading.ofFloat (x : Float) : Reading :=
  let bits := x.toBits.toNat
  let negative := bits / twoTo 63 == 1
  let field : Nat := bits / twoTo 52 % 2048
  let fraction : Nat := bits % twoTo 52
  if field == 2047 then
    if fraction == 0 then .infinite negative else .undefined
  else if field == 0 then .finite negative ⟨fraction, -1074, false⟩
  else .finite negative ⟨twoTo 52 + fraction, (field : Int) - 1075, fraction == 0 && 1 < field⟩

/-- A non-negative rational number; the denominator is meant to be positive. -/
structure Ratio where
  numerator : Nat
  denominator : Nat

/-- The power of two is moved into the numerator or the denominator. -/
def Magnitude.ratio (m : Magnitude) : Ratio :=
  ⟨m.significand * twoTo m.exponent.toNat, twoTo (-m.exponent).toNat⟩

namespace Ratio

/-- The number times a power of ten. -/
def shift (r : Ratio) (places : Int) : Ratio :=
  ⟨r.numerator * tenTo places.toNat, r.denominator * tenTo (-places).toNat⟩

/-- The nearest natural number; a half goes to the even neighbour. -/
def round (r : Ratio) : Nat :=
  let whole := r.numerator / r.denominator
  let twice := 2 * (r.numerator % r.denominator)
  if twice < r.denominator then whole
  else if r.denominator < twice then whole + 1
  else if whole % 2 = 0 then whole else whole + 1

/-- How many decimal digits a natural number is written with. -/
def digitCount (n : Nat) : Nat := (Nat.toDigits 10 n).length

/-- The greatest `e` with `10 ^ e` at most the number, which is meant to be positive. -/
def leadingPower (r : Ratio) : Int :=
  let estimate : Int := (digitCount r.numerator : Int) - (digitCount r.denominator : Int)
  let shifted := r.shift (-estimate)
  if shifted.numerator < shifted.denominator then estimate - 1 else estimate

/-- A number of `count` digits and the power of ten of its first digit, nearest to the number. -/
def significant (r : Ratio) (count : Nat) : Nat × Int :=
  let power := r.leadingPower
  let digits := (r.shift ((count : Int) - 1 - power)).round
  if digits = tenTo count then (tenTo (count - 1), power + 1) else (digits, power)

end Ratio

end InfeasibilityControl.Decimal
