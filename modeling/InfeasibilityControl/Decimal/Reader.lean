set_option autoImplicit false
set_option relaxedAutoImplicit false

/-!
The floating-point number nearest to a decimal text.

The text is a sign, digits with or without a point, and an exponent, each part but the digits being
optional. The sign is kept for zero, too.
-/

namespace InfeasibilityControl.Decimal

/-- The natural number of a text of digits. -/
def naturalOf (digits : List Char) : Nat :=
  digits.foldl (fun n c => n * 10 + (c.toNat - '0'.toNat)) 0

/-- The integer of a text of digits that may begin with a sign. -/
def integerOf : List Char → Int
  | '-' :: digits => -(naturalOf digits : Int)
  | '+' :: digits => naturalOf digits
  | digits => naturalOf digits

/-- The number of a text without a sign in front. -/
def magnitudeOf (text : List Char) : Float :=
  let whole := text.takeWhile Char.isDigit
  let afterWhole := text.dropWhile Char.isDigit
  let (fraction, afterFraction) := match afterWhole with
    | '.' :: rest => (rest.takeWhile Char.isDigit, rest.dropWhile Char.isDigit)
    | rest => ([], rest)
  let exponent := integerOf (afterFraction.drop 1) - (fraction.length : Int)
  Float.ofScientific (naturalOf (whole ++ fraction)) (decide (exponent < 0)) exponent.natAbs

/-- The number of a text. -/
def floatOf (text : String) : Float :=
  match text.toList with
  | '-' :: magnitude => -magnitudeOf magnitude
  | magnitude => magnitudeOf magnitude

end InfeasibilityControl.Decimal
