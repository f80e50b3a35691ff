set_option autoImplicit false
set_option relaxedAutoImplicit false

/-!
The arithmetic in which a minimization is carried out.

Every algorithm of the library is written once over `Scalar`, in a fixed order of operations. At
`Float` it is the computation that runs; over the real numbers it is its exact reading, in which
every value is finite and no square overflows.
-/

namespace InfeasibilityControl

/-- Numbers to compute with: field operations, comparisons, decimal literals and a few functions. -/
class Scalar (K : Type) extends Zero K, One K, Add K, Sub K, Mul K, Div K, Neg K, LT K, LE K, BEq K,
    OfScientific K where
  [decidableLt : DecidableLT K]
  [decidableLe : DecidableLE K]
  sqrt : K → K
  abs : K → K
  /-- The natural logarithm of one more than the argument. -/
  logOnePlus : K → K
  /-- Neither infinite nor undefined. -/
  isFinite : K → Bool
  /-- No value lies below this one. -/
  isLeast : K → Bool
  /-- The square, unless it is too large although the argument is finite. -/
  square? : K → Option K

namespace Scalar

attribute [reducible, instance] decidableLt decidableLe

variable {K : Type} [Scalar K]

/-- The smaller value; the first one unless the second is strictly smaller. -/
def min (a b : K) : K := if b < a then b else a

/-- The larger value; the first one unless the second is strictly larger. -/
def max (a b : K) : K := if a < b then b else a

/-- The sign: `1`, `-1` or `0`, and an undefined value is its own sign. -/
def sign (a : K) : K :=
  if (0 : K) < a then 1 else if a < (0 : K) then -1 else if a == (0 : K) then 0 else a

/-- The square is lost exactly when it is infinite although the argument is finite. -/
def floatSquare? (x : Float) : Option Float :=
  let square := x * x
  if square.isInf && x.isFinite then none else some square

/-- `log (1 + x)`: the rounding of `1 + x` is undone by the factor `x / ((1 + x) - 1)`. -/
def floatLogOnePlus (x : Float) : Float :=
  let shifted := 1.0 + x
  if shifted == 1.0 then x
  else if shifted.isInf then shifted
  else Float.log shifted * (x / (shifted - 1.0))

instance : Scalar Float where
  zero := 0.0
  one := 1.0
  sqrt := Float.sqrt
  abs := Float.abs
  logOnePlus := floatLogOnePlus
  isFinite := Float.isFinite
  isLeast := fun x => x.isInf && x < 0.0
  square? := floatSquare?

end Scalar

end InfeasibilityControl
