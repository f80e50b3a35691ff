import InfeasibilityControl.Step.Normal
import InfeasibilityControl.Step.Tangent

set_option autoImplicit false
set_option relaxedAutoImplicit false

/-!
The settings of the method.
-/

namespace InfeasibilityControl

/-- What becomes of the iteration after a tangent step without success. -/
inductive TangentFailure
  /-- It goes on from the restored point. -/
  | proceed
  /-- It stops. -/
  | abort
  /-- The radius is halved, but not below the primal tolerance, and it goes on. -/
  | shrink
  deriving DecidableEq

namespace TangentFailure

/-- The word for a policy. -/
def name : TangentFailure → String
  | .proceed => "continue"
  | .abort => "abort"
  | .shrink => "shrink"

/-- The policy of a word. -/
def ofName? (word : String) : Option TangentFailure :=
  [proceed, abort, shrink].find? fun policy => policy.name == word

end TangentFailure

/-- The settings of the method. -/
structure Settings (K : Type) where
  /-- The absolute part of the primal and of the dual tolerance. -/
  absolute : K
  /-- The part of the tolerances that is relative to the residuals at the start. -/
  relative : K
  /-- At most this relative reduction counts as stationarity of the constraints. -/
  stationarity : K
  maxEvaluations : Int
  maxTime : K
  /-- The radius of tolerated infeasibility at the start, which is also its bound. -/
  radiusBound : K
  tangentFailure : TangentFailure
  normalTrustRadius : K
  maxNormalTrials : Int
  normalAcceptance : K
  minTrustRadius : K
  infeasibilityGrowth : K
  sufficientDecrease : K
  stepReduction : K
  minStep : K
  /-- The tolerances of the least-squares solves. -/
  tolerances : LeastSquares.Tolerances K
  /-- A limit for the steps of least-squares solves. -/
  leastSquaresLimit : Option Int
  verbose : Bool

namespace Settings

variable {K : Type} [Scalar K]

/-- The settings that are used when none are given. -/
def standard : Settings K where
  absolute := 1e-8
  relative := 1e-6
  stationarity := 1e-6
  maxEvaluations := 1000
  maxTime := 60.0
  radiusBound := 1.0
  tangentFailure := .proceed
  normalTrustRadius := 1.0
  maxNormalTrials := 100
  normalAcceptance := 1e-4
  minTrustRadius := 1e-12
  infeasibilityGrowth := 2.0
  sufficientDecrease := 1e-4
  stepReduction := 0.5
  minStep := 1e-10
  tolerances := .standard
  leastSquaresLimit := none
  verbose := false

/-- The settings that are numbers to compute with: name, value and replacement. -/
def numbers : List (String × (Settings K → K) × (Settings K → K → Settings K)) :=
  [("atol", absolute, fun s a => { s with absolute := a }),
    ("rtol", relative, fun s a => { s with relative := a }),
    ("ctol", stationarity, fun s a => { s with stationarity := a }),
    ("max_time", maxTime, fun s a => { s with maxTime := a }),
    ("rho_max", radiusBound, fun s a => { s with radiusBound := a }),
    ("normal_trust_radius", normalTrustRadius, fun s a => { s with normalTrustRadius := a }),
    ("normal_eta", normalAcceptance, fun s a => { s with normalAcceptance := a }),
    ("min_trust_radius", minTrustRadius, fun s a => { s with minTrustRadius := a }),
    ("infeasibility_growth", infeasibilityGrowth, fun s a => { s with infeasibilityGrowth := a }),
    ("backtracking_alpha", sufficientDecrease, fun s a => { s with sufficientDecrease := a }),
    ("backtracking_beta", stepReduction, fun s a => { s with stepReduction := a }),
    ("backtracking_min_step", minStep, fun s a => { s with minStep := a }),
    ("lsqr_atol", fun s => s.tolerances.operator,
      fun s a => { s with tolerances.operator := a }),
    ("lsqr_btol", fun s => s.tolerances.rightSide,
      fun s a => { s with tolerances.rightSide := a })]

/-- Settings with the policy of a word. The word is looked up first, and then the bound of the
radius must be positive. -/
def check (s : Settings K) (tangentFailure : String) : Except Fault (Settings K) :=
  match TangentFailure.ofName? tangentFailure with
  | none => .error .unknownTangentFailure
  | some policy =>
      if s.radiusBound ≤ 0 then .error .radiusBoundNotPositive
      else .ok { s with tangentFailure := policy }

/-- The parameters of the normal steps. -/
def normalOptions (s : Settings K) : NormalOptions K where
  trustRadius := s.normalTrustRadius
  maxTrials := s.maxNormalTrials
  acceptance := s.normalAcceptance
  stationarity := s.stationarity
  minTrustRadius := s.minTrustRadius
  tolerances := s.tolerances

/-- The parameters of the tangent steps. -/
def tangentOptions (s : Settings K) : TangentOptions K where
  growth := s.infeasibilityGrowth
  sufficient := s.sufficientDecrease
  reduction := s.stepReduction
  minStep := s.minStep
  tolerances := s.tolerances

end Settings

end InfeasibilityControl
