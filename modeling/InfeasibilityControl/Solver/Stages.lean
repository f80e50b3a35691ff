import InfeasibilityControl.Kkt.Regularization
import InfeasibilityControl.Multipliers
import InfeasibilityControl.Solver.Settings

set_option autoImplicit false
set_option relaxedAutoImplicit false

/-!
The stages of the method: evaluating a point, the normal step from an iterate, the iterate at the
restored point, and the row that is reported after each of them.
-/

namespace InfeasibilityControl

variable {K : Type} [Scalar K]

/-- The method takes problems with at least one constraint, no inequalities and no bounds. -/
def Problem.check (p : Problem K) : Except Fault Unit :=
  if p.constraintCount = 0 ∨ 0 < p.inequalityCount ∨ p.bounded then
    .error (.notEqualityConstrained p.constraintCount p.inequalityCount p.bounded)
  else .ok ()

/-- The least-squares multipliers at a point with the given Jacobian and gradient. -/
def Settings.estimate (settings : Settings K) (J : SparseMatrix K) (g : Vec K) :
    Counted K (MultiplierEstimate K) :=
  estimateMultipliers J g settings.tolerances settings.leastSquaresLimit

/-- Evaluate everything at a point. Multipliers that are not given are estimated there. -/
def Problem.evaluate (p : Problem K) (settings : Settings K) (x : Vec K) (radius : K)
    (iteration : Int) (multipliers? : Option (Vec K)) : Counted K (Iterate K) := do
  let objective ← p.objectiveAt x
  let constraints ← p.constraintsAt x
  let gradient ← p.gradientAt x
  let jacobian ← p.jacobianAt x
  let multipliers ← match multipliers? with
    | some known => pure known
    | none => pure (← settings.estimate jacobian gradient).multipliers
  return {
    point := x
    objective
    constraints
    gradient
    jacobian
    multipliers
    radius
    iteration
    lagrangianGradient? := none }

/-- Once the dual residual is below its tolerance no more infeasibility than the primal tolerance is
put up with; before, as much as the dual residual relative to the gradient calls for. -/
def relativeDual (dualNorm gradientNorm dualTolerance : K) : K :=
  if dualNorm < dualTolerance then 0 else dualNorm / (gradientNorm + 1)

/-- The normal step from an iterate, and the iterate that remembers what was read of it. -/
def Iterate.normalStep (s : Iterate K) (p : Problem K) (settings : Settings K)
    (primalTolerance dualTolerance : K) (budget : Budget K) :
    Counted K (NormalOutcome K × Iterate K) := do
  let (dualNorm, s) ← s.readDualNorm
  let outcome ← InfeasibilityControl.normalStep p settings.normalOptions budget s.point
    s.constraints (some s.jacobian) s.radius settings.radiusBound
    (relativeDual dualNorm s.gradientNorm dualTolerance) primalTolerance
  return (outcome, s)

/-- The iterate at the point of a normal step, with new multipliers. The objective and its gradient
are evaluated only if the point has changed. -/
def Iterate.restored (s : Iterate K) (p : Problem K) (settings : Settings K)
    (normal : NormalOutcome K) : Counted K (Iterate K) := do
  let (objective, gradient) ←
    if Vec.coincides normal.point s.point then pure (s.objective, s.gradient)
    else do
      let objective ← p.objectiveAt normal.point
      let gradient ← p.gradientAt normal.point
      pure (objective, gradient)
  let estimate ← settings.estimate normal.jacobian gradient
  return s.revise {
    point := some normal.point
    objective := some objective
    constraints := some normal.constraints
    gradient := some gradient
    jacobian := some normal.jacobian
    multipliers := some estimate.multipliers
    radius := some normal.radius
    iteration := none }

/-- Report where the method stands, under the given number of the iteration. -/
def Iterate.report (s : Iterate K) (budget : Budget K) (stage : String) (iteration : Int)
    (status : String) : Counted K (ProgressRow K × Iterate K) := do
  let evaluations ← Budget.evaluations
  let (dualNorm, s) ← s.readDualNorm
  let elapsed ← budget.elapsed
  let row : ProgressRow K :=
    { stage
      iteration
      evaluations
      objective := s.objective
      dualResidual := dualNorm
      primalResidual := s.primalNorm
      radius := s.radius
      status
      elapsed }
  Counted.report row
  return (row, s)

end InfeasibilityControl
