import InfeasibilityControl.LeastSquares.Solve

set_option autoImplicit false
set_option relaxedAutoImplicit false

/-!
Nonlinear problems: minimize an objective subject to constraints that are to vanish.

Derivatives are exchanged in coordinate form: a fixed pattern of positions and, at each point, the
matching values. The Hessian of the Lagrangian `weight * f + yᵀ c` is given by its lower triangle.
The counted evaluators are the only way in which the method looks at a problem, and every call is
entered in the ledger before it is answered.
-/

namespace InfeasibilityControl

/-- A minimization problem, given by its evaluators. -/
structure Problem (K : Type) where
  name : String
  start : Vec K
  /-- The number of constraints as declared; nothing keeps it from being negative. -/
  constraintCount : Int
  inequalityCount : Int
  bounded : Bool
  /-- The seconds that an evaluation of the objective or of the constraints takes. -/
  evaluationTime : K
  objective : Vec K → Except Fault K
  gradient : Vec K → Except Fault (Vec K)
  constraints : Vec K → Except Fault (Vec K)
  jacobianPattern : List Position
  jacobianValues : Vec K → Except Fault (Vec K)
  hessianPattern : List Position
  hessianValues : Vec K → Vec K → K → Except Fault (Vec K)

namespace Problem

variable {K : Type} [Scalar K]

/-- The number of variables. -/
def variableCount (p : Problem K) : Nat := p.start.length

/-- The number of the Jacobian's rows. A negative number of constraints is no number of rows. -/
def rowCount (p : Problem K) : Except Fault Nat :=
  match p.constraintCount with
  | .ofNat count => .ok count
  | .negSucc _ => .error .shapeMismatch

/-- Multipliers that are all zero. -/
def zeroMultipliers (p : Problem K) : Except Fault (Vec K) := p.rowCount.map Vec.zeros

/-- There is at least one constraint, and only constraints that are to vanish. -/
def isEqualityConstrained (p : Problem K) : Bool :=
  0 < p.constraintCount && p.inequalityCount == 0 && !p.bounded

/-- The objective at a point. -/
def objectiveAt (p : Problem K) (x : Vec K) : Counted K K := do
  Counted.count fun c => { c with objective := c.objective + 1 }
  Counted.pass p.evaluationTime
  p.objective x

/-- The gradient of the objective at a point. -/
def gradientAt (p : Problem K) (x : Vec K) : Counted K (Vec K) := do
  Counted.count fun c => { c with gradient := c.gradient + 1 }
  p.gradient x

/-- The constraints at a point. -/
def constraintsAt (p : Problem K) (x : Vec K) : Counted K (Vec K) := do
  Counted.count fun c => { c with constraints := c.constraints + 1 }
  Counted.pass p.evaluationTime
  p.constraints x

/-- The values of the Jacobian at a point, in the order of its pattern. -/
def jacobianValuesAt (p : Problem K) (x : Vec K) : Counted K (Vec K) := do
  Counted.count fun c => { c with jacobian := c.jacobian + 1 }
  p.jacobianValues x

/-- The values of the Hessian of the Lagrangian, in the order of its pattern. -/
def hessianValuesAt (p : Problem K) (x y : Vec K) (weight : K) : Counted K (Vec K) := do
  Counted.count fun c => { c with hessian := c.hessian + 1 }
  p.hessianValues x y weight

/-- The Jacobian at a point, assembled from its pattern and values. -/
def jacobianAt (p : Problem K) (x : Vec K) : Counted K (SparseMatrix K) := do
  let values ← p.jacobianValuesAt x
  SparseMatrix.ofCoordinates (← p.rowCount) p.variableCount p.jacobianPattern values

end Problem

namespace SparseMatrix

variable {K : Type} [Scalar K]

open LeastSquares (Solution Solver Tolerances)

/-- The product of a Jacobian with a vector that has one entry per column. -/
def product (J : SparseMatrix K) (v : Vec K) : Counted K (Vec K) := do
  if v.length = J.columnCount then
    Counted.count fun c => { c with product := c.product + 1 }
    return J.apply v
  else throw .shapeMismatch

/-- The product of a transposed Jacobian with a vector that has one entry per row. -/
def transposedProduct (J : SparseMatrix K) (w : Vec K) : Counted K (Vec K) := do
  if w.length = J.rowCount then
    Counted.count fun c => { c with transposedProduct := c.transposedProduct + 1 }
    return J.applyTransposed w
  else throw .shapeMismatch

/-- Minimize `‖J d - b‖` in the given way; the products made on the way are counted. -/
def leastSquares (J : SparseMatrix K) (b : Vec K) (solver : Solver K) :
    Counted K (Solution K) := do
  let s ← solver J.operator b
  Counted.count fun c =>
    { c with
      product := c.product + s.products
      transposedProduct := c.transposedProduct + s.transposedProducts }
  Counted.recordSolve s.record
  return s

/-- Minimize `‖Jᵀ y - b‖`; the products made on the way are counted. -/
def transposedLeastSquares (J : SparseMatrix K) (b : Vec K) (tolerances : Tolerances K)
    (limit? : Option Int) : Counted K (Solution K) := do
  let s ← LeastSquares.solve J.operator.transpose b tolerances limit?
  Counted.count fun c =>
    { c with
      product := c.product + s.transposedProducts
      transposedProduct := c.transposedProduct + s.products }
  Counted.recordSolve s.record
  return s

/-- The component of a vector in the null space of `J`: the vector less its least-squares
approximation by gradients of the constraints. -/
def projectOntoNullSpace (J : SparseMatrix K) (v : Vec K) (tolerances : Tolerances K)
    (limit? : Option Int) : Counted K (Vec K) := do
  let w ← J.transposedLeastSquares v tolerances limit?
  let image ← J.transposedProduct w.vector
  Vec.subtract v image

end SparseMatrix

end InfeasibilityControl
