import InfeasibilityControl.Budget
import InfeasibilityControl.Model.Problem
import InfeasibilityControl.Step.Dogleg

set_option autoImplicit false
set_option relaxedAutoImplicit false

/-!
The normal step: from a point with too large constraints to one where they lie inside a radius.

A trust-region method minimizes `½ ‖c(z)‖²`. Each pass makes one trial along the dogleg path between
the Cauchy and the Gauss–Newton step. A trial is accepted only if it reduces `‖c‖`, and then the
Jacobian is evaluated anew; constraints are the only evaluations otherwise. The way in which the
Gauss–Newton step is found is a parameter.
-/

namespace InfeasibilityControl

variable {K : Type} [Scalar K]

/-- Shrink the radius of tolerated infeasibility towards a target proportional to the relative dual
residual, capped at three quarters of the bound and not below the floor. It never grows. -/
def updateRadius (radius bound relativeDual floor : K) : K :=
  Scalar.min radius (Scalar.max (Scalar.min relativeDual 0.75 * bound) floor)

/-- The constraints cannot be reduced along `-g`, where `g = Jᵀ c`: the relative reduction
`‖g‖² / (‖c‖ ‖J g‖)` is within the tolerance. -/
def isStationary (g Jg : Vec K) (constraintNorm tolerance : K) : Except Fault Bool :=
  match Scalar.square? (Vec.norm g) with
  | none => .error .squareTooLarge
  | some square => .ok (decide (square ≤ tolerance * constraintNorm * Vec.norm Jg))

/-- The parameters of a normal step. -/
structure NormalOptions (K : Type) where
  trustRadius : K
  maxTrials : Int
  /-- The least ratio of actual to predicted reduction at which a trial is accepted. -/
  acceptance : K
  stationarity : K
  minTrustRadius : K
  tolerances : LeastSquares.Tolerances K

/-- The parameters that are used when none are given. -/
def NormalOptions.standard : NormalOptions K :=
  ⟨1, 100, 1e-4, 1e-6, 1e-12, .standard⟩

/-- How a normal step solves its least-squares problems: by the recurrence, under the standard
limit. -/
def NormalOptions.solver (options : NormalOptions K) : LeastSquares.Solver K :=
  .recurrence options.tolerances none

/-- How a normal step ended. -/
inductive NormalStatus
  /-- The constraints are inside the radius. -/
  | success
  /-- No step can reduce the constraints enough. -/
  | infeasible
  | exhausted (limit : Limit)
  deriving DecidableEq

/-- The word for the end of a normal step. -/
def NormalStatus.name : NormalStatus → String
  | .success => "success"
  | .infeasible => "infeasible"
  | .exhausted limit => limit.name

/-- A trial of a normal step: from where and how far it went, and what came of it. -/
structure Trial (K : Type) where
  origin : Vec K
  jacobian : SparseMatrix K
  displacement : Vec K
  trustRadius : K
  evaluationsBefore : Nat
  point : Vec K
  constraintNorm : K
  predicted : K
  accepted : Bool

/-- Where a normal step stands between two trials. -/
structure NormalState (K : Type) where
  point : Vec K
  constraints : Vec K
  constraintNorm : K
  jacobian : SparseMatrix K
  trustRadius : K
  /-- The last trial was rejected. -/
  rejected : Bool
  trials : List (Trial K)

/-- The result of a normal step. -/
structure NormalOutcome (K : Type) where
  point : Vec K
  constraints : Vec K
  jacobian : SparseMatrix K
  radius : K
  status : NormalStatus
  passes : Int
  trustRadius : K
  trials : List (Trial K)

/-- The norm of the constraints at the result. -/
def NormalOutcome.primalNorm (r : NormalOutcome K) : K := Vec.norm r.constraints

namespace NormalState

/-- The square of a norm. -/
def squareOf (a : K) : Except Fault K :=
  match Scalar.square? a with
  | none => .error .squareTooLarge
  | some square => .ok square

/-- The ratio of the actual to the predicted reduction, if the prediction is positive and the
constraints at the trial point are finite. -/
def reductionRatio (normSquare trialNorm predicted : K) : Except Fault (Option K) :=
  if 0 < predicted ∧ Scalar.isFinite trialNorm then do
    return some (0.5 * (normSquare - (← squareOf trialNorm)) / predicted)
  else .ok none

/-- The ratio reaches a bound; a missing ratio counts as lower than every number. -/
def ratioReaches (ratio : Option K) (bound : K) : Bool :=
  match ratio with
  | none => Scalar.isLeast bound
  | some r => decide (bound ≤ r)

/-- The trust radius after a trial: a quarter of the step's length if the model was poor, twice the
radius if it was good and the step reached the boundary. -/
def nextTrustRadius (ratio : Option K) (stepNorm trustRadius : K) : K :=
  match ratio with
  | none => 0.25 * stepNorm
  | some r =>
      if r < 0.25 then 0.25 * stepNorm
      else if 0.75 < r ∧ 0.99 * trustRadius ≤ stepNorm then 2.0 * trustRadius
      else trustRadius

/-- Why no trial is made from here, if none is: the constraints are inside the radius, the budget
is exhausted, there is no descent, the last trial failed and the point is stationary, or the trust
region has collapsed. Otherwise the gradient `g = Jᵀ c` and the product `J g`. -/
def examine (options : NormalOptions K) (budget : Budget K) (radius : K) (s : NormalState K) :
    Counted K (NormalStatus ⊕ (Vec K × Vec K)) := do
  if s.constraintNorm ≤ radius then return .inl .success
  match ← budget.exhausted with
  | some limit => return .inl (.exhausted limit)
  | none =>
      let g ← s.jacobian.transposedProduct s.constraints
      if !Vec.isNonzero g then return .inl .infeasible
      let Jg ← s.jacobian.product g
      if s.rejected then
        if ← isStationary g Jg s.constraintNorm options.stationarity then
          return .inl .infeasible
      if s.trustRadius < options.minTrustRadius then return .inl .infeasible
      return .inr (g, Jg)

/-- Make a trial along the dogleg path and accept or reject it. -/
def attempt (solver : LeastSquares.Solver K) (p : Problem K) (options : NormalOptions K)
    (g Jg : Vec K) (s : NormalState K) : Counted K (NormalState K) := do
  let gaussNewton ← s.jacobian.leastSquares (Vec.negate s.constraints) solver
  let step ← dogleg gaussNewton.vector (cauchyStep g Jg) g s.trustRadius
  let stepNorm := Vec.norm step
  let normSquare ← squareOf s.constraintNorm
  let image ← s.jacobian.product step
  let modelled ← Vec.add s.constraints image
  let modelSquare ← squareOf (Vec.norm modelled)
  let predicted := 0.5 * (normSquare - modelSquare)
  let point ← Vec.add s.point step
  let evaluationsBefore ← Budget.evaluations
  let constraints ← p.constraintsAt point
  let trialNorm := Vec.norm constraints
  let ratio ← reductionRatio normSquare trialNorm predicted
  let accepted := ratioReaches ratio options.acceptance && decide (trialNorm < s.constraintNorm)
  let trial : Trial K :=
    { origin := s.point
      jacobian := s.jacobian
      displacement := step
      trustRadius := s.trustRadius
      evaluationsBefore
      point
      constraintNorm := trialNorm
      predicted
      accepted }
  let trustRadius := nextTrustRadius ratio stepNorm s.trustRadius
  let trials := s.trials ++ [trial]
  if accepted then
    return {
      point
      constraints
      constraintNorm := trialNorm
      jacobian := ← p.jacobianAt point
      trustRadius
      rejected := false
      trials }
  else return { s with trustRadius, rejected := true, trials }

/-- The end of a normal step that has made all its passes. -/
def conclude (budget : Budget K) (radius : K) (s : NormalState K) : Counted K NormalStatus := do
  if s.constraintNorm ≤ radius then return .success
  match ← budget.exhausted with
  | some limit => return .exhausted limit
  | none => return .infeasible

/-- Passes until one ends the step or all are made; the number of passes made before the end. -/
def iterate (solver : LeastSquares.Solver K) (p : Problem K) (options : NormalOptions K)
    (budget : Budget K) (radius : K) :
    Nat → Nat → NormalState K → Counted K (NormalState K × NormalStatus × Int)
  | 0, _, s => do return (s, ← s.conclude budget radius, options.maxTrials)
  | remaining + 1, made, s => do
      match ← s.examine options budget radius with
      | .inl status => return (s, status, made)
      | .inr (g, Jg) =>
          iterate solver p options budget radius remaining (made + 1)
            (← s.attempt solver p options g Jg)

end NormalState

/-- Restore feasibility, starting from a point with known constraints and solving the least-squares
problems in the given way. The radius is updated before anything else. Without a Jacobian, the one
at the start is evaluated. -/
def normalStepWith (solver : LeastSquares.Solver K) (p : Problem K) (options : NormalOptions K)
    (budget : Budget K) (start constraints : Vec K) (jacobian? : Option (SparseMatrix K))
    (radius radiusBound relativeDual floor : K) : Counted K (NormalOutcome K) := do
  let radius := updateRadius radius radiusBound relativeDual floor
  let jacobian ← match jacobian? with
    | some known => pure known
    | none => p.jacobianAt start
  let (last, status, passes) ← NormalState.iterate solver p options budget radius
    options.maxTrials.toNat 0
    { point := start
      constraints
      constraintNorm := Vec.norm constraints
      jacobian
      trustRadius := options.trustRadius
      rejected := false
      trials := [] }
  return {
    point := last.point
    constraints := last.constraints
    jacobian := last.jacobian
    radius
    status
    passes
    trustRadius := last.trustRadius
    trials := last.trials }

/-- The normal step whose least-squares problems are solved by the recurrence. -/
def normalStep (p : Problem K) (options : NormalOptions K) (budget : Budget K)
    (start constraints : Vec K) (jacobian? : Option (SparseMatrix K))
    (radius radiusBound relativeDual floor : K) : Counted K (NormalOutcome K) :=
  normalStepWith options.solver p options budget start constraints jacobian? radius radiusBound
    relativeDual floor

end InfeasibilityControl
