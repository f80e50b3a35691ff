import InfeasibilityControl.Kkt.System

set_option autoImplicit false
set_option relaxedAutoImplicit false

/-!
The search direction of a tangent step.

The KKT direction is taken if it exists and is zero or a direction of descent for the Lagrangian.
Otherwise the direction is the negative gradient of the Lagrangian, projected onto the null space of
the Jacobian.
-/

namespace InfeasibilityControl

/-- Where a search direction comes from. -/
inductive DirectionKind
  | kkt | projectedGradient
  deriving DecidableEq

/-- The word for a kind of direction. -/
def DirectionKind.name : DirectionKind → String
  | .kkt => "kkt"
  | .projectedGradient => "projected_gradient"

namespace KktSystem

variable {K : Type} [Scalar K]

/-- The faults of a solve that leave the fallback as the way out. -/
def isSolveFault (fault : Fault) : Bool :=
  match fault with
  | .kktNotFinite | .kktSingular | .kktSolutionNotFinite => true
  | _ => false

/-- The right-hand side of the KKT direction: the negative gradient of the Lagrangian, above
zeros. -/
def directionRightSide (s : KktSystem K) (gradient : Vec K) : Vec K :=
  Vec.negate gradient ++ Vec.zeros s.constraintCount

/-- The KKT direction, unless the solve fails or the direction leads uphill. -/
def descentDirection? (s : KktSystem K) (gradient : Vec K) : Except Fault (Option (Vec K)) :=
  match s.solve (s.directionRightSide gradient) with
  | .error fault => if isSolveFault fault then .ok none else .error fault
  | .ok (d, _) => do
      let slope ← Vec.inner gradient d
      if 0 ≤ slope ∧ Vec.isNonzero d then return none else return some d

/-- The search direction at a point with the given gradient of the Lagrangian and Jacobian. -/
def searchDirection (s : KktSystem K) (gradient : Vec K) (J : SparseMatrix K)
    (tolerances : LeastSquares.Tolerances K) : Counted K (Vec K × DirectionKind) := do
  match ← (s.descentDirection? gradient : Except Fault (Option (Vec K))) with
  | some d => return (d, .kkt)
  | none =>
      let tangential ← J.projectOntoNullSpace gradient tolerances none
      return (Vec.negate tangential, .projectedGradient)

end KktSystem

end InfeasibilityControl
