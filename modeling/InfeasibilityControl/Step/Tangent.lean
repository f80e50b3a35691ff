import InfeasibilityControl.Budget
import InfeasibilityControl.Step.Direction

set_option autoImplicit false
set_option relaxedAutoImplicit false

/-!
The tangent step: decrease the Lagrangian while the constraints stay within a bound.

The step backtracks along the search direction and takes the first trial point at which the merit
function `f + yᵀ c` has decreased sufficiently and the constraints lie within the bound.
-/

namespace InfeasibilityControl

/-- The parameters of a tangent step. -/
structure TangentOptions (K : Type) where
  /-- Trial points may have constraints up to this multiple of the radius. -/
  growth : K
  /-- The share of the linear decrease that a trial point must achieve. -/
  sufficient : K
  /-- The factor by which the step size is reduced. -/
  reduction : K
  /-- Below this step size no further reduction is made. -/
  minStep : K
  tolerances : LeastSquares.Tolerances K

/-- How a tangent step ended. -/
inductive TangentEnding (K : Type)
  /-- The direction is zero. -/
  | stationary
  | accepted
  | notDescent (slope : K)
  | exhausted (limit : Limit)
  | infeasibilityGrowth (primal allowed : K)
  | severeCurvature (required actual : K)

namespace TangentEnding

variable {K : Type}

/-- The step is at an acceptable point, or there was none to look for. -/
def isSuccess : TangentEnding K → Bool
  | .stationary | .accepted => true
  | .notDescent _ | .exhausted _ | .infeasibilityGrowth .. | .severeCurvature .. => false

/-- The word for the end of a tangent step. -/
def name : TangentEnding K → String
  | .stationary | .accepted => "success"
  | .exhausted limit => limit.name
  | .notDescent _ | .infeasibilityGrowth .. | .severeCurvature .. => "unsuccessful"

/-- The account of how a tangent step ended. -/
def complaint : TangentEnding K → Complaint K
  | .stationary => ⟨"Lagrangian is stationary along the constraint manifold.", .general⟩
  | .accepted => ⟨"Tangent step accepted.", .general⟩
  | .exhausted _ => ⟨"Ran out of budget during the line search.", .general⟩
  | .notDescent slope => ⟨"Search direction is not a descent direction.", .notDescent slope⟩
  | .infeasibilityGrowth primal allowed =>
      ⟨"Small steps did not keep infeasibility bounded.", .infeasibilityGrowth primal allowed⟩
  | .severeCurvature required actual =>
      ⟨"Small step sizes did not adequately decrease the merit.",
        .severeCurvature required actual⟩

end TangentEnding

/-- A trial point of a line search. -/
structure LineTrial (K : Type) where
  stepSize : K
  evaluationsBefore : Nat
  point : Vec K
  merit : K
  primalNorm : K

/-- The result of a tangent step. -/
structure TangentOutcome (K : Type) where
  point : Vec K
  ending : TangentEnding K
  stepSize : K
  direction : DirectionKind
  trials : List (LineTrial K)

/-- The line `origin + s * direction` that is searched, and what is demanded of its points. -/
structure LineSearch (K : Type) where
  origin : Vec K
  direction : Vec K
  slope : K
  multipliers : Vec K
  merit : K
  allowed : K
  options : TangentOptions K

namespace LineSearch

variable {K : Type} [Scalar K]

/-- The largest merit that is a sufficient decrease at a step size. -/
def required (l : LineSearch K) (stepSize : K) : K :=
  l.merit + l.options.sufficient * stepSize * l.slope

/-- The merit is finite and has decreased sufficiently. -/
def decreases (l : LineSearch K) (t : LineTrial K) : Bool :=
  Scalar.isFinite t.merit && decide (t.merit ≤ l.required t.stepSize)

/-- The constraints lie within the bound. -/
def bounds (l : LineSearch K) (t : LineTrial K) : Bool := decide (t.primalNorm ≤ l.allowed)

/-- Evaluate the point at a step size. -/
def evaluate (p : Problem K) (l : LineSearch K) (stepSize : K) : Counted K (LineTrial K) := do
  let point ← Vec.add l.origin (Vec.scale stepSize l.direction)
  let evaluationsBefore ← Budget.evaluations
  let objective ← p.objectiveAt point
  let constraints ← p.constraintsAt point
  let merit := objective + (← Vec.inner l.multipliers constraints)
  return { stepSize, evaluationsBefore, point, merit, primalNorm := Vec.norm constraints }

/-- Why the search is given up after an unacceptable trial at a small step size. -/
def failure (l : LineSearch K) (t : LineTrial K) : TangentEnding K :=
  if l.bounds t then
    .severeCurvature (-l.options.sufficient * t.stepSize * l.slope) (l.merit - t.merit)
  else .infeasibilityGrowth t.primalNorm l.allowed

/-- Trials at smaller and smaller step sizes until one is acceptable, the step size is below its
minimum or the budget is exhausted; with the trials made, the last one first. Every trial costs two
evaluations, so the budget bounds their number. -/
def iterate (p : Problem K) (budget : Budget K) (l : LineSearch K) :
    Nat → K → List (LineTrial K) → Counted K (TangentEnding K × List (LineTrial K))
  | 0, _, trials => return (.exhausted .evaluations, trials)
  | remaining + 1, stepSize, trials => do
      match ← budget.exhausted with
      | some limit => return (.exhausted limit, trials)
      | none =>
          let trial ← l.evaluate p stepSize
          let trials := trial :: trials
          if l.decreases trial && l.bounds trial then return (.accepted, trials)
          else if stepSize < l.options.minStep then return (l.failure trial, trials)
          else iterate p budget l remaining (stepSize * l.options.reduction) trials

/-- More trials than the budget has evaluations for. -/
def trialBound (budget : Budget K) (spent : Nat) : Nat :=
  (budget.maxEvaluations - (spent : Int)).toNat + 2

end LineSearch

variable {K : Type} [Scalar K]

/-- Take a tangent step from a point at which the KKT system was refreshed, with the gradient of the
Lagrangian, the Jacobian and the merit there. Unless a trial point is accepted, the step stays. -/
def tangentStep (p : Problem K) (kkt : KktSystem K) (options : TangentOptions K)
    (budget : Budget K) (origin multipliers gradient : Vec K) (J : SparseMatrix K)
    (merit radius : K) : Counted K (TangentOutcome K) := do
  let (direction, kind) ← kkt.searchDirection gradient J options.tolerances
  let slope ← Vec.inner gradient direction
  let stay (ending : TangentEnding K) (trials : List (LineTrial K)) : TangentOutcome K :=
    { point := origin, ending, stepSize := 0, direction := kind, trials }
  if !Vec.isNonzero direction then return stay .stationary []
  if 0 ≤ slope then return stay (.notDescent slope) []
  let line : LineSearch K :=
    { origin, direction, slope, multipliers, merit, allowed := options.growth * radius, options }
  let bound := LineSearch.trialBound budget (← Budget.evaluations)
  match ← line.iterate p budget bound 1 [] with
  | (.accepted, trial :: earlier) =>
      return {
        point := trial.point
        ending := .accepted
        stepSize := trial.stepSize
        direction := kind
        trials := (trial :: earlier).reverse }
  | (ending, trials) => return stay ending trials.reverse

end InfeasibilityControl
