set_option autoImplicit false
set_option relaxedAutoImplicit false

/-!
Rows of the progress log.
-/

namespace InfeasibilityControl

/-- One row of the progress log: where the iteration stands after a stage. -/
structure ProgressRow (K : Type) where
  stage : String
  iteration : Int
  evaluations : Int
  objective : K
  dualResidual : K
  primalResidual : K
  radius : K
  status : String
  elapsed : K

/-- The rows of one stage, in order. -/
def ProgressRow.ofStage {K : Type} (rows : List (ProgressRow K)) (stage : String) :
    List (ProgressRow K) :=
  rows.filter fun row => row.stage == stage

end InfeasibilityControl
