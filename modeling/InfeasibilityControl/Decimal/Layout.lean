import InfeasibilityControl.Decimal.Magnitude

set_option autoImplicit false
set_option relaxedAutoImplicit false

/-!
Decimal text with a chosen number of digits: scientific, with fixed places, and compact.

An undefined number reads `nan` and an infinite one `inf`; every number but `nan` has its sign
written when it is negative, also zero.
-/

namespace InfeasibilityControl.Decimal

/-- The digits of a number, with zeros in front up to the given length. -/
def digitsText (length n : Nat) : String :=
  let digits := Nat.toDigits 10 n
  String.ofList (List.replicate (length - digits.length) '0' ++ digits)

/-- The mark, the sign and at least two digits of an exponent. -/
def exponentText (exponent : Int) : String :=
  (if exponent < 0 then "e-" else "e+") ++ digitsText 2 exponent.natAbs

/-- The text of the sign. -/
def signText (negative : Bool) : String := if negative then "-" else ""

/-- A point after the given number of digits, unless no digit follows. -/
def pointAfter (whole : Nat) (digits : List Char) : String :=
  let fraction := digits.drop whole
  String.ofList (digits.take whole) ++
    (if fraction.isEmpty then "" else "." ++ String.ofList fraction)

/-- The text of a number that is not finite, or the layout of a finite one after its sign. -/
def layOut (x : Float) (layout : Magnitude → String) : String :=
  match Reading.ofFloat x with
  | .undefined => "nan"
  | .infinite negative => signText negative ++ "inf"
  | .finite negative m => signText negative ++ layout m

/-- The `count` significant digits of a magnitude and the power of ten of the first one. -/
def Magnitude.significant (m : Magnitude) (count : Nat) : Nat × Int :=
  if m.significand = 0 then (0, 0) else m.ratio.significant count

/-- One digit, a point, the given number of places and an exponent. -/
def scientific (places : Nat) (x : Float) : String :=
  layOut x fun m =>
    let (digits, power) := m.significant (places + 1)
    pointAfter 1 (digitsText (places + 1) digits).toList ++ exponentText power

/-- Positional digits with the given number of places after the point. -/
def fixed (places : Nat) (x : Float) : String :=
  layOut x fun m =>
    let digits := (digitsText (places + 1) (m.ratio.shift places).round).toList
    pointAfter (digits.length - places) digits

/-- The text without the zeros at its end. -/
def dropFinalZeros (digits : List Char) : List Char :=
  (digits.reverse.dropWhile (· == '0')).reverse

/-- At most `count` significant digits without final zeros: positional where the power of ten of
the first digit is at least `-4` and below `count`, scientific elsewhere. -/
def compact (count : Nat) (x : Float) : String :=
  layOut x fun m =>
    let (digits, power) := m.significant count
    let text := (digitsText count digits).toList
    if power < -4 || (count : Int) ≤ power then
      let kept := dropFinalZeros (text.drop 1)
      pointAfter 1 (text.take 1 ++ kept) ++ exponentText power
    else if power < 0 then
      let zeros := List.replicate (-power).toNat '0'
      pointAfter 1 (zeros ++ dropFinalZeros text)
    else
      let whole := power.toNat + 1
      pointAfter whole (text.take whole ++ dropFinalZeros (text.drop whole))

end InfeasibilityControl.Decimal
