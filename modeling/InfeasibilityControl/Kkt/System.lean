import InfeasibilityControl.Matrix.Elimination
import InfeasibilityControl.Model.Problem

set_option autoImplicit false
set_option relaxedAutoImplicit false

/-!
The regularized KKT system of a problem,

    H + γ I    Jᵀ
      J      -δ I

with `H` the Hessian of the Lagrangian and `J` the Jacobian of the constraints. Its lower triangle
is kept in coordinate form. The positions are fixed when the system is made: the Hessian's pattern,
the Jacobian's pattern shifted below it, and the two diagonals. Only the values change afterwards.
-/

namespace InfeasibilityControl

/-- The positions of a KKT system's lower triangle and their present values. -/
structure KktSystem (K : Type) where
  variableCount : Nat
  constraintCount : Nat
  hessianPattern : List Position
  jacobianPattern : List Position
  hessianValues : List K
  jacobianValues : List K
  gamma : K
  delta : K

namespace KktSystem

variable {K : Type} [Scalar K]

/-- The system of a problem, with all values zero. -/
def ofProblem (p : Problem K) : Except Fault (KktSystem K) := do
  let constraintCount ← p.rowCount
  return {
    variableCount := p.variableCount
    constraintCount
    hessianPattern := p.hessianPattern
    jacobianPattern := p.jacobianPattern
    hessianValues := Vec.zeros p.hessianPattern.length
    jacobianValues := Vec.zeros p.jacobianPattern.length
    gamma := 0
    delta := 0 }

/-- The number of rows and columns. -/
def dimension (s : KktSystem K) : Nat := s.variableCount + s.constraintCount

/-- The positions of the lower triangle, block after block. -/
def positions (s : KktSystem K) : List Position :=
  s.hessianPattern ++ s.jacobianPattern.map (Position.below s.variableCount) ++
    (List.range s.variableCount).map Position.diagonal ++
    (List.range s.constraintCount).map fun i => Position.diagonal (s.variableCount + i)

/-- The values at the positions. -/
def values (s : KktSystem K) : List K :=
  s.hessianValues ++ s.jacobianValues ++ List.replicate s.variableCount s.gamma ++
    List.replicate s.constraintCount (-s.delta)

/-- The number of positions. -/
def size (s : KktSystem K) : Nat := s.positions.length

/-- The first and the last-but-one-past index of the four blocks of positions. -/
def blocks (s : KktSystem K) : List (Nat × Nat) :=
  let first := s.hessianPattern.length
  let second := first + s.jacobianPattern.length
  let third := second + s.variableCount
  [(0, first), (first, second), (second, third), (third, third + s.constraintCount)]

/-- The pattern is built once, when the system is made. -/
def buildPattern (_ : KktSystem K) : Except Fault (KktSystem K) := .error .patternAlreadyBuilt

/-- Values for a block of the given size; a single value fills the block. -/
def fill (size : Nat) (values : List K) : Except Fault (List K) :=
  if values.length = size then .ok values
  else match values with
    | [a] => .ok (List.replicate size a)
    | _ => .error .shapeMismatch

/-- Take over the Hessian of the Lagrangian at a point. -/
def refreshHessian (s : KktSystem K) (p : Problem K) (x multipliers : Vec K) :
    Counted K (KktSystem K) := do
  let values ← p.hessianValuesAt x multipliers 1
  return { s with hessianValues := ← fill s.hessianPattern.length values }

/-- Take over the Jacobian at a point. -/
def refreshJacobian (s : KktSystem K) (p : Problem K) (x : Vec K) : Counted K (KktSystem K) := do
  let values ← p.jacobianValuesAt x
  return { s with jacobianValues := ← fill s.jacobianPattern.length values }

/-- Overwrite all values: the Hessian first, then the Jacobian, then the diagonals. If an evaluation
fails or does not fit, what was written before it stays. -/
def refresh (s : KktSystem K) (p : Problem K) (x multipliers : Vec K) (gamma delta : K) :
    StateM (Ledger K) (KktSystem K × Except Fault Unit) := do
  match ← (s.refreshHessian p x multipliers).run with
  | .error fault => return (s, .error fault)
  | .ok half =>
      match ← (half.refreshJacobian p x).run with
      | .error fault => return (half, .error fault)
      | .ok full => return ({ full with gamma, delta }, .ok ())

/-- The lower triangle as a table; values at one position add up. -/
def lower (s : KktSystem K) : Except Fault (List (Vec K)) :=
  (SparseMatrix.ofCoordinates s.dimension s.dimension s.positions s.values).map SparseMatrix.toRows

/-- The entry of a table in a row and a column. -/
def entry (table : List (Vec K)) (i j : Nat) : K := (table[i]?.getD [])[j]?.getD 0

/-- The symmetric matrix with the given lower triangle: the triangle and its transpose added up,
less the diagonal that is then counted twice. -/
def symmetrize (dimension : Nat) (lower : List (Vec K)) : List (Vec K) :=
  (List.range dimension).map fun i =>
    (List.range dimension).map fun j =>
      entry lower i j + entry lower j i - if i = j then entry lower i i else 0

/-- The whole matrix. -/
def matrix (s : KktSystem K) : Except Fault (List (Vec K)) :=
  s.lower.map (symmetrize s.dimension)

/-- The solution for a right-hand side, split into its part for the variables and its part for the
constraints. -/
def solve (s : KktSystem K) (rightSide : Vec K) : Except Fault (Vec K × Vec K) := do
  if rightSide.length = s.dimension then
    let rows ← s.matrix
    if rows.all fun row => row.all Scalar.isFinite then
      match Equation.solve s.dimension (List.zipWith Equation.mk rows rightSide) with
      | none => throw .kktSingular
      | some solution =>
          if solution.all Scalar.isFinite then
            return (solution.take s.variableCount, solution.drop s.variableCount)
          else throw .kktSolutionNotFinite
    else throw .kktNotFinite
  else throw .rightSideLength

end KktSystem

end InfeasibilityControl
