import InfeasibilityControl.Decimal.Layout
import InfeasibilityControl.Report.Row

set_option autoImplicit false
set_option relaxedAutoImplicit false

/-!
The progress log as a table with columns of fixed width.

Columns are two blanks apart. A text shorter than its column is filled up with blanks, and a longer
one is not cut; widths count characters.
-/

namespace InfeasibilityControl.Table

/-- The text at the right edge of its column. -/
def right (width : Nat) (text : String) : String :=
  String.ofList (List.replicate (width - text.length) ' ') ++ text

/-- The text at the left edge of its column. -/
def left (width : Nat) (text : String) : String :=
  text ++ String.ofList (List.replicate (width - text.length) ' ')

/-- The nine columns of a line. -/
def line (stage iteration evaluations objective dual primal radius status elapsed : String) :
    String :=
  String.intercalate "  "
    [right 5 stage, right 5 iteration, right 6 evaluations, right 12 objective, right 9 dual,
      right 9 primal, right 9 radius, left 12 status, right 8 elapsed]

/-- The heading of the columns. -/
def header : String := line "stage" "iter" "#f" "f(x)" "‖∇L‖" "‖c(x)‖" "ρ" "status" "time"

/-- The line of a row: five places for the objective, two for the residuals and the radius, and
milliseconds. -/
def row (r : ProgressRow Float) : String :=
  line r.stage (toString r.iteration) (toString r.evaluations)
    (Decimal.scientific 5 r.objective) (Decimal.scientific 2 r.dualResidual)
    (Decimal.scientific 2 r.primalResidual) (Decimal.scientific 2 r.radius) r.status
    (Decimal.fixed 3 r.elapsed)

/-- Rows under their heading, which is left out if there are none. -/
def lines (rows : List (ProgressRow Float)) : List String :=
  if rows.isEmpty then [] else header :: rows.map row

/-- Lines with an end of line after each. -/
def text (lines : List String) : String := String.join (lines.map fun l => l ++ "\n")

end InfeasibilityControl.Table
