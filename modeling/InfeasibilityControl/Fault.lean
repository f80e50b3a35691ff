import InfeasibilityControl.Decimal.Shortest

set_option autoImplicit false
set_option relaxedAutoImplicit false

/-!
What can go wrong, and the wording of the library's own complaints.

A `Fault` ends a computation. A `Complaint` is a message with the figures that belong to it; the
faults that a caller is meant to catch have one, and a failed line search leaves one as its account.
-/

namespace InfeasibilityControl

/-- The reasons for which a computation has no result. -/
inductive Fault
  /-- An entry is read that a vector or a list does not have. -/
  | missingCoordinate
  /-- Vectors or matrices do not fit together. -/
  | shapeMismatch
  /-- The square of a finite number is too large. -/
  | squareTooLarge
  | boundsLength
  | negativeRegularization
  | rightSideLength
  | leastSquaresRows
  | gradientLength
  | trustRadiusNotPositive
  | unknownTangentFailure
  | radiusBoundNotPositive
  | startLength
  | notEqualityConstrained (constraints inequalities : Int) (bounds : Bool)
  | kktNotFinite
  | kktSingular
  | kktSolutionNotFinite
  | patternAlreadyBuilt
  /-- A field of a snapshot is assigned to. -/
  | readOnly
  deriving DecidableEq

/-- The family that a complaint belongs to, with its figures. -/
inductive Grievance (K : Type)
  | general
  | notEqualityConstrained (constraints inequalities : Int) (bounds : Bool)
  | kktSolve
  | patternAlreadyBuilt
  | lineSearch
  | severeCurvature (required actual : K)
  | infeasibilityGrowth (primal allowed : K)
  | notDescent (slope : K)

/-- A message together with what it is about. -/
structure Complaint (K : Type) where
  message : String
  about : Grievance K

namespace Complaint

/-- Complaints about a failed line search. -/
def isLineSearch {K : Type} (c : Complaint K) : Bool :=
  match c.about with
  | .lineSearch | .severeCurvature .. | .infeasibilityGrowth .. | .notDescent .. => true
  | .general | .notEqualityConstrained .. | .kktSolve | .patternAlreadyBuilt => false

/-- The truth values as they are written in a complaint. -/
def truthText (b : Bool) : String := if b then "True" else "False"

/-- The message, followed by the figures in parentheses where there are any. -/
def text (c : Complaint Float) : String :=
  match c.about with
  | .general | .kktSolve | .patternAlreadyBuilt | .lineSearch => c.message
  | .notEqualityConstrained constraints inequalities bounds =>
      c.message ++ " (" ++ toString constraints ++ " constraint(s), " ++ toString inequalities ++
        " inequalit(ies), bounds=" ++ truthText bounds ++ ")"
  | .severeCurvature required actual =>
      c.message ++ " (required improvement >= " ++ Decimal.compact 3 required ++
        "; actual improvement = " ++ Decimal.compact 3 actual ++ ")"
  | .infeasibilityGrowth primal allowed =>
      c.message ++ " (||c(x)|| = " ++ Decimal.compact 3 primal ++ " > " ++
        Decimal.compact 3 allowed ++ ")"
  | .notDescent slope =>
      c.message ++ " (∇L^T d = " ++ Decimal.shortest slope ++ " >= 0, but should be < 0)"

end Complaint

namespace Fault

/-- The faults that are complaints of the method rather than misuse of a function. -/
def complaint? {K : Type} : Fault → Option (Complaint K)
  | .notEqualityConstrained constraints inequalities bounds =>
      some ⟨"DCI only works for equality constrained problems",
        .notEqualityConstrained constraints inequalities bounds⟩
  | .kktNotFinite => some ⟨"KKT matrix has non-finite entries.", .kktSolve⟩
  | .kktSingular => some ⟨"KKT matrix is singular.", .kktSolve⟩
  | .kktSolutionNotFinite => some ⟨"KKT solution is not finite.", .kktSolve⟩
  | .patternAlreadyBuilt => some ⟨"KKT pattern has already been built.", .patternAlreadyBuilt⟩
  | _ => none

/-- The wording of a fault, where it has one of its own. -/
def message? (fault : Fault) : Option String :=
  match fault with
  | .boundsLength => some "Bounds must have one entry per variable."
  | .negativeRegularization => some "gamma and delta must be nonnegative."
  | .rightSideLength => some "rhs should have one entry per row of the KKT matrix."
  | .leastSquaresRows => some "Dimension mismatch: b should have one entry per row of A."
  | .gradientLength => some "Dimension mismatch: g should have one entry for each column of J."
  | .trustRadiusNotPositive => some "radius must be positive."
  | .unknownTangentFailure =>
      some "tangent_failure must be one of 'continue', 'abort' or 'shrink'."
  | .radiusBoundNotPositive => some "rho_max must be positive."
  | .startLength => some "x0 should have one entry per variable."
  | _ => fault.complaint?.map Complaint.text

end Fault

end InfeasibilityControl
