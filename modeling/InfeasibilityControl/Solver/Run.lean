import InfeasibilityControl.Solver.Stages

set_option autoImplicit false
set_option relaxedAutoImplicit false

/-!
Minimization with dynamic control of infeasibility.

A normal step brings the constraints inside a radius; a tangent step then decreases the Lagrangian
while the constraints may grow to a multiple of the radius. The radius shrinks with the dual
residual, so that feasibility and stationarity are approached at one pace.

`advance` makes one round of the iteration, a normal step and, if it goes on, a tangent step. A run
repeats rounds until one ends it; `solveWithin` bounds their number, and a bound that is large
enough does not show in the result.
-/

namespace InfeasibilityControl

/-- The status of a finished run. -/
inductive RunStatus
  | firstOrder
  | exhausted (limit : Limit)
  | infeasible
  | stalled
  | unknown
  deriving DecidableEq

namespace RunStatus

/-- The word for a status. -/
def name : RunStatus → String
  | .firstOrder => "first_order"
  | .exhausted limit => limit.name
  | .infeasible => "infeasible"
  | .stalled => "stalled"
  | .unknown => "unknown"

/-- What a status means. -/
def message : RunStatus → String
  | .firstOrder => "First order stationary point found to the desired tolerance."
  | .exhausted .evaluations => "Maximum number of evaluations exceeded."
  | .exhausted .time => "Maximum elapsed time exceeded."
  | .infeasible => "Problem may be locally infeasible."
  | .stalled => "Tangent step failed and the solver was asked to stop."
  | .unknown => "Solver stopped for an unknown reason."

end RunStatus

/-- What a stage of a run did. -/
inductive StageWork (K : Type)
  | initial
  | normal (outcome : NormalOutcome K)
  | tangent (outcome : TangentOutcome K)

/-- A stage of a run: what it did, the iterate after it and the row that was reported. -/
structure Stage (K : Type) where
  work : StageWork K
  iterate : Iterate K
  row : ProgressRow K

/-- The tolerances of a run, fixed at its start. -/
structure RunTolerances (K : Type) where
  primal : K
  dual : K

/-- Where a run stands. -/
structure RunState (K : Type) where
  iterate : Iterate K
  kkt : KktSystem K
  /-- The stages so far, in order. -/
  stages : List (Stage K)
  solved : Bool
  tired : Option Limit
  infeasible : Bool
  stalled : Bool

/-- What a run is given: the problem, the settings, the policy, the budget and the tolerances. -/
structure RunContext (K : Type) where
  problem : Problem K
  settings : Settings K
  policy : RegularizationPolicy K
  budget : Budget K
  tolerances : RunTolerances K

/-- The result of a run. -/
structure RunResult (K : Type) where
  solution : Vec K
  status : RunStatus
  objective : K
  dualResidual : K
  primalResidual : K
  elapsed : K
  multipliers : Vec K
  iterations : Int
  evaluations : Nat
  counters : Counters
  history : List (ProgressRow K)
  /-- The stages that the history reports on. -/
  stages : List (Stage K)
  tolerances : RunTolerances K

namespace RunState

variable {K : Type} [Scalar K]

/-- The run has come to its end. -/
def isOver (r : RunState K) : Bool := r.solved || r.tired.isSome || r.infeasible || r.stalled

/-- Both residuals of an iterate are below their tolerances. The dual residual is asked for only if
the primal one is. -/
def isSolved (s : Iterate K) (t : RunTolerances K) : Counted K (Bool × Iterate K) := do
  if s.primalNorm < t.primal then
    let (dualNorm, s) ← s.readDualNorm
    return (decide (dualNorm < t.dual), s)
  else return (false, s)

/-- A stage is over: report it and put it on record. -/
def close (r : RunState K) (c : RunContext K) (work : StageWork K) (stage : String)
    (iteration : Int) (status : String) : Counted K (RunState K) := do
  let (row, iterate) ← r.iterate.report c.budget stage iteration status
  return { r with iterate, stages := r.stages ++ [⟨work, iterate, row⟩] }

/-- A normal step and the iterate at the restored point. -/
def restore (r : RunState K) (c : RunContext K) : Counted K (RunState K) := do
  let (normal, iterate) ← r.iterate.normalStep c.problem c.settings c.tolerances.primal
    c.tolerances.dual c.budget
  let iterate ← iterate.restored c.problem c.settings normal
  let r ← { r with iterate }.close c (.normal normal) "N" iterate.iteration normal.status.name
  let tired ← c.budget.exhausted
  return { r with tired, infeasible := normal.status = .infeasible }

/-- The radius after a tangent step, and whether the run stalls there. -/
def afterTangent (settings : Settings K) (primalTolerance radius : K) (ending : TangentEnding K) :
    K × Bool :=
  if ending.isSuccess then (radius, false)
  else match settings.tangentFailure with
    | .proceed => (radius, false)
    | .abort => (radius, true)
    | .shrink => (Scalar.max (0.5 * radius) primalTolerance, false)

/-- A tangent step from the present iterate and the evaluation of its point. -/
def descend (r : RunState K) (c : RunContext K) : Counted K (RunState K) := do
  let regularization ← (c.policy r.iterate : Except Fault (Regularization K))
  let (kkt, refreshed) ← (r.kkt.refresh c.problem r.iterate.point r.iterate.multipliers
    regularization.gamma regularization.delta : StateM (Ledger K) _)
  refreshed
  let (gradient, iterate) ← r.iterate.readLagrangianGradient
  let merit ← iterate.lagrangian
  let tangent ← tangentStep c.problem kkt c.settings.tangentOptions c.budget iterate.point
    iterate.multipliers gradient iterate.jacobian merit iterate.radius
  let (radius, stalled) :=
    afterTangent c.settings c.tolerances.primal iterate.radius tangent.ending
  let iteration := iterate.iteration
  let iterate ←
    if Vec.coincides tangent.point iterate.point then
      pure (iterate.revise
        { Revision.none with radius := some radius, iteration := some (iteration + 1) })
    else
      c.problem.evaluate c.settings tangent.point radius (iteration + 1)
        (some iterate.multipliers)
  let r ← { r with iterate, kkt, stalled }.close c (.tangent tangent) "T" iteration
    tangent.ending.name
  let (solved, iterate) ← isSolved r.iterate c.tolerances
  let tired ← c.budget.exhausted
  return { r with iterate, solved, tired }

/-- One round: a normal step and, unless the run ends there or the point is still outside the
radius, a tangent step. The flag tells whether the normal step is to be repeated at once. -/
def advance (r : RunState K) (c : RunContext K) : Counted K (RunState K × Bool) := do
  let r ← r.restore c
  let s := r.iterate
  if decide (s.primalNorm ≤ s.radius) || r.tired.isSome || r.infeasible then
    let (solved, iterate) ← isSolved s c.tolerances
    let r := { r with iterate, solved }
    if r.solved || r.tired.isSome || r.infeasible then return (r, false)
    else return (← r.descend c, false)
  else return (r, true)

/-- Rounds until one ends the run. Nothing if the bound on their number is met first. -/
def repeatRounds (c : RunContext K) : Nat → RunState K → Bool → Counted K (Option (RunState K))
  | 0, r, again => return if r.isOver && !again then some r else none
  | rounds + 1, r, again => do
      if r.isOver && !again then return some r
      else
        let (r, again) ← r.advance c
        repeatRounds c rounds r again

/-- The status of a finished run; of several reasons to end, the first in this order is named. -/
def status (r : RunState K) : RunStatus :=
  if r.solved then .firstOrder
  else match r.tired with
    | some limit => .exhausted limit
    | none =>
        if r.infeasible then .infeasible
        else if r.stalled then .stalled
        else .unknown

end RunState

variable {K : Type} [Scalar K]

/-- The start of a run: the counts begin afresh, the starting point is evaluated, and the
tolerances are fixed. -/
def startRun (p : Problem K) (settings : Settings K) (policy : RegularizationPolicy K)
    (start? : Option (Vec K)) : Counted K (RunContext K × RunState K) := do
  p.check
  modify Ledger.restart
  let x := start?.getD p.start
  if x.length = p.variableCount then
    let budget ← Budget.start settings.maxEvaluations settings.maxTime
    let kkt ← (KktSystem.ofProblem p : Except Fault (KktSystem K))
    let iterate ← p.evaluate settings x settings.radiusBound 0 none
    let (dualNorm, iterate) ← iterate.readDualNorm
    let tolerances : RunTolerances K :=
      ⟨settings.absolute + settings.relative * iterate.primalNorm,
        settings.absolute + settings.relative * dualNorm⟩
    let c : RunContext K := { problem := p, settings, policy, budget, tolerances }
    let (solved, iterate) ← RunState.isSolved iterate tolerances
    let tired ← budget.exhausted
    let r : RunState K :=
      { iterate
        kkt
        stages := []
        solved
        tired
        infeasible := false
        stalled := false }
    return (c, ← r.close c .initial "init" iterate.iteration "")
  else throw .startLength

/-- The result at the end of a run. -/
def finishRun (c : RunContext K) (r : RunState K) : Counted K (RunResult K) := do
  let elapsed ← c.budget.elapsed
  let (dualNorm, s) ← r.iterate.readDualNorm
  let counters ← Counted.counters
  return {
    solution := s.point
    status := r.status
    objective := s.objective
    dualResidual := dualNorm
    primalResidual := s.primalNorm
    elapsed
    multipliers := s.multipliers
    iterations := s.iteration
    evaluations := counters.evaluations
    counters
    history := r.stages.map Stage.row
    stages := r.stages
    tolerances := c.tolerances }

/-- Minimize, from a given point or the problem's own start, in at most the given number of rounds.
There is no result if the run does not end within them. -/
def solveWithin (p : Problem K) (settings : Settings K) (policy : RegularizationPolicy K)
    (start? : Option (Vec K)) (rounds : Nat) : Counted K (Option (RunResult K)) := do
  let (c, r) ← startRun p settings policy start?
  match ← RunState.repeatRounds c rounds r false with
  | some last => return some (← finishRun c last)
  | none => return none

/-- More rounds than a run takes that comes to an end in practice. -/
def roundBound : Nat := Nat.pow 2 40

/-- Minimize, from a given point or the problem's own start. -/
def solve (p : Problem K) (settings : Settings K) (policy : RegularizationPolicy K)
    (start? : Option (Vec K)) : Counted K (Option (RunResult K)) :=
  solveWithin p settings policy start? roundBound

end InfeasibilityControl
