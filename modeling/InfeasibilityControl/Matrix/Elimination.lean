import InfeasibilityControl.Vec

set_option autoImplicit false
set_option relaxedAutoImplicit false

/-!
Gaussian elimination with row exchanges.

In each column the equation whose leading coefficient is largest in absolute value becomes the
pivot. A zero pivot means that all leading coefficients vanish, and then there is no answer.
-/

namespace InfeasibilityControl

/-- A linear equation in as many unknowns as it has coefficients. -/
structure Equation (K : Type) where
  coefficients : List K
  rightSide : K

namespace Equation

variable {K : Type} [Scalar K]

/-- The coefficient of the first unknown. -/
def leading (e : Equation K) : K := e.coefficients.headD 0

/-- The equation with the largest leading coefficient, the first of several, and the others. -/
def takePivot (best : Equation K) : List (Equation K) → Equation K × List (Equation K)
  | [] => (best, [])
  | e :: others =>
      if Scalar.abs best.leading < Scalar.abs e.leading then
        let (pivot, rest) := takePivot e others
        (pivot, best :: rest)
      else
        let (pivot, rest) := takePivot best others
        (pivot, e :: rest)

/-- The equation without its first unknown, after a multiple of the pivot is subtracted. -/
def reduce (pivot e : Equation K) : Equation K :=
  let factor := e.leading / pivot.leading
  ⟨Vec.minus e.coefficients.tail (Vec.scale factor pivot.coefficients.tail),
    e.rightSide - factor * pivot.rightSide⟩

/-- The solution of as many equations as unknowns, or nothing at a zero pivot. -/
def solve : Nat → List (Equation K) → Option (Vec K)
  | 0, _ => some []
  | _ + 1, [] => none
  | count + 1, first :: others =>
      let (pivot, rest) := takePivot first others
      if pivot.leading == 0 then none
      else
        (solve count (rest.map (reduce pivot))).map fun later =>
          (pivot.rightSide - Vec.dot pivot.coefficients.tail later) / pivot.leading :: later

end Equation

end InfeasibilityControl
