import InfeasibilityControl.Decimal.Layout

set_option autoImplicit false
set_option relaxedAutoImplicit false

/-!
The shortest decimal that reads back as the same floating-point number.

The numbers that read back as a given one form an interval around it. For one, two, three, …
digits, the two neighbours of the number on that decimal grid are tried; the first grid with a
neighbour in the interval fixes the number of digits, and the nearer neighbour is taken.
-/

namespace InfeasibilityControl.Decimal

/-- A decimal `digits * 10 ^ power` of no fixed length. -/
structure Candidate where
  digits : Nat
  power : Int

/-- Four times a magnitude's significand is the middle of its interval, in quarters of a unit:
the comparison of a decimal with a number of such quarters. -/
def Magnitude.compareQuarters (m : Magnitude) (c : Candidate) (quarters : Nat) : Ordering :=
  let exponent := m.exponent - 2
  compare (c.digits * tenTo c.power.toNat * twoTo (-exponent).toNat)
    (quarters * twoTo exponent.toNat * tenTo (-c.power).toNat)

/-- The decimal lies in the interval of numbers that read back as the magnitude. The ends belong
to it when the significand is even. -/
def Magnitude.readsBack (m : Magnitude) (c : Candidate) : Bool :=
  let ends := m.significand % 2 == 0
  let low := m.compareQuarters c (4 * m.significand - if m.tightBelow then 1 else 2)
  let high := m.compareQuarters c (4 * m.significand + 2)
  (low == .gt || (ends && low == .eq)) && (high == .lt || (ends && high == .eq))

/-- The nearer of the two neighbours on the grid of `count` digits, if one reads back. -/
def Magnitude.nearest? (m : Magnitude) (power : Int) (count : Nat) : Option Candidate :=
  let unit := power + 1 - (count : Int)
  let scaled := m.ratio.shift (-unit)
  let below : Candidate := ⟨scaled.numerator / scaled.denominator, unit⟩
  let above : Candidate := ⟨below.digits + 1, unit⟩
  match m.readsBack below, m.readsBack above with
  | true, true => some ⟨scaled.round, unit⟩
  | true, false => some below
  | false, true => some above
  | false, false => none

/-- Seventeen digits always suffice. -/
def Magnitude.shortest (m : Magnitude) : Candidate :=
  let power := m.ratio.leadingPower
  match (List.range 17).findSome? fun count => m.nearest? power (count + 1) with
  | some c => c
  | none => let (digits, leading) := m.ratio.significant 17; ⟨digits, leading - 16⟩

/-- The shortest decimal: positional with at least one place where the power of ten of the first
digit is at least `-4` and below `16`, scientific elsewhere. -/
def shortest (x : Float) : String :=
  layOut x fun m =>
    if m.significand = 0 then "0.0" else
    let c := m.shortest
    let written := Nat.toDigits 10 c.digits
    let power := c.power + (written.length : Int) - 1
    let digits := dropFinalZeros written
    if power < -4 || 16 ≤ power then
      pointAfter 1 digits ++ exponentText power
    else if power < 0 then
      pointAfter 1 (List.replicate (-power).toNat '0' ++ digits)
    else
      let whole := power.toNat + 1
      let zeros := List.replicate (whole - digits.length) '0'
      if digits.length ≤ whole then String.ofList (digits ++ zeros) ++ ".0"
      else pointAfter whole digits

end InfeasibilityControl.Decimal
