import InfeasibilityControl.Report.Table
import InfeasibilityControl.Solver.Run

set_option autoImplicit false
set_option relaxedAutoImplicit false

/-!
What is shown of a finished run: its table with a closing line, and its convergence plot.
-/

namespace InfeasibilityControl

/-- The line under the table of a finished run. -/
def RunResult.closingLine (r : RunResult Float) : String :=
  "  DCI completed in " ++ Decimal.fixed 3 (1000.0 * r.elapsed) ++ " ms with status " ++
    r.status.name

/-- Everything that is printed about a run. -/
def RunResult.transcript (r : RunResult Float) : String :=
  Table.text (Table.lines r.history ++ [r.closingLine])

/-- A line of a plot, over the indices of its values. -/
structure PlotLine (K : Type) where
  label : String
  marker : String
  values : List K

/-- A plot: its lines, the scale of the values and the labels of the axes. -/
structure Plot (K : Type) where
  lines : List (PlotLine K)
  scale : String
  xLabel : String
  yLabel : String

/-- The primal and the dual residual of each stage. -/
def RunResult.convergencePlot {K : Type} (r : RunResult K) : Plot K where
  lines :=
    [⟨"‖c(x)‖", "o", r.history.map ProgressRow.primalResidual⟩,
      ⟨"‖∇L‖", "s", r.history.map ProgressRow.dualResidual⟩]
  scale := "log"
  xLabel := "Stage"
  yLabel := "Residual"

end InfeasibilityControl
