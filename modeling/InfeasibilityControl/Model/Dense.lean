import InfeasibilityControl.Model.Problem

set_option autoImplicit false
set_option relaxedAutoImplicit false

/-!
Problems whose derivatives are given as matrices and treated as dense.

The Jacobian's pattern lists every position row by row, the Hessian's pattern the lower triangle row
by row; the values are read off the matrices in that order.
-/

namespace InfeasibilityControl

/-- A matrix as a function may give it: with all its entries, row by row, or in sparse form. -/
inductive GivenMatrix (K : Type)
  | dense (rows : List (Vec K))
  | sparse (A : SparseMatrix K)

/-- The rows with all their entries. -/
def GivenMatrix.toRows {K : Type} [Scalar K] : GivenMatrix K → List (Vec K)
  | .dense rows => rows
  | .sparse A => A.toRows

/-- A problem described by functions whose derivatives are treated as dense. -/
structure DenseModel (K : Type) where
  name : String
  start : Vec K
  /-- The number of constraints; without it the constraints at the start are counted. -/
  constraintCount? : Option Int
  lower? : Option (Vec K)
  upper? : Option (Vec K)
  inequalityCount : Int
  evaluationTime : K
  objective : Vec K → Except Fault K
  gradient : Vec K → Except Fault (Vec K)
  constraints : Vec K → Except Fault (Vec K)
  jacobian : Vec K → Except Fault (GivenMatrix K)
  /-- The rows of the Hessian of the Lagrangian. -/
  hessian : Vec K → Vec K → K → Except Fault (List (Vec K))

namespace DenseModel

variable {K : Type} [Scalar K]

/-- Every position of a matrix, row by row. -/
def densePattern (rowCount columnCount : Nat) : List Position :=
  (List.range rowCount).flatMap fun i => (List.range columnCount).map (Position.inRow i)

/-- The positions on and below the diagonal, row by row. -/
def trianglePattern (size : Nat) : List Position :=
  (List.range size).flatMap fun i => (List.range (i + 1)).map (Position.inRow i)

/-- So many entries make up a matrix with the given shape. A negative number of rows stands for
as many rows as the entries fill. -/
def shapeFits (rowCount : Int) (columnCount entryCount : Nat) : Bool :=
  match rowCount with
  | .ofNat count => entryCount == count * columnCount
  | .negSucc _ => columnCount != 0 && entryCount % columnCount == 0

/-- The entries of a matrix at the given positions, its rows being cut anew to the given length.
The number of entries must be that of a matrix with the given shape. -/
def entriesAt (rowCount : Int) (columnCount : Nat) (positions : List Position)
    (rows : List (Vec K)) : Except Fault (Vec K) :=
  let entries := rows.flatten
  if shapeFits rowCount columnCount entries.length then
    .ok (positions.map fun p => entries.getD (p.1.toNat * columnCount + p.2.toNat) 0)
  else .error .shapeMismatch

/-- Some bound is finite. -/
def hasFiniteBound (bound? : Option (Vec K)) : Bool :=
  match bound? with
  | none => false
  | some bound => bound.any Scalar.isFinite

/-- Bounds have one entry per variable. -/
def boundFits (variableCount : Nat) (bound? : Option (Vec K)) : Bool :=
  match bound? with
  | none => true
  | some bound => bound.length == variableCount

/-- The number of constraints, as given or as found at the start. -/
def countConstraints (m : DenseModel K) : Except Fault Int :=
  match m.constraintCount? with
  | some count => .ok count
  | none => (m.constraints m.start).map fun values => values.length

/-- The problem that a model describes. -/
def problem (m : DenseModel K) : Except Fault (Problem K) := do
  let n := m.start.length
  let constraintCount ← m.countConstraints
  if boundFits n m.lower? && boundFits n m.upper? then
    let jacobianPattern := densePattern constraintCount.toNat n
    let hessianPattern := trianglePattern n
    return {
      name := m.name
      start := m.start
      constraintCount
      inequalityCount := m.inequalityCount
      bounded := hasFiniteBound m.lower? || hasFiniteBound m.upper?
      evaluationTime := m.evaluationTime
      objective := m.objective
      gradient := m.gradient
      constraints := m.constraints
      jacobianPattern
      jacobianValues := fun x => do
        entriesAt constraintCount n jacobianPattern (← m.jacobian x).toRows
      hessianPattern
      hessianValues := fun x y weight => do
        entriesAt n n hessianPattern (← m.hessian x y weight) }
  else throw .boundsLength

end DenseModel

end InfeasibilityControl
