import InfeasibilityControl.Model.Problem

set_option autoImplicit false
set_option relaxedAutoImplicit false

/-!
Least-squares estimates of the Lagrange multipliers.
-/

namespace InfeasibilityControl

/-- Multipliers `y` that make `‖Jᵀ y + g‖` small, and that norm. -/
structure MultiplierEstimate (K : Type) where
  multipliers : Vec K
  residualNorm : K
  converged : Bool
  steps : Nat

variable {K : Type} [Scalar K]

/-- Minimize `‖Jᵀ y + g‖` over the multipliers `y`. -/
def estimateMultipliers (J : SparseMatrix K) (g : Vec K)
    (tolerances : LeastSquares.Tolerances K) (limit? : Option Int) :
    Counted K (MultiplierEstimate K) := do
  if J.columnCount = g.length then
    let s ← J.transposedLeastSquares (Vec.negate g) tolerances limit?
    let image ← J.transposedProduct s.vector
    let residual ← Vec.add image g
    return ⟨s.vector, Vec.norm residual, s.converged, s.steps⟩
  else throw .gradientLength

end InfeasibilityControl
