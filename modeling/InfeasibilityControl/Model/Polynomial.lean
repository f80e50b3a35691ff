import InfeasibilityControl.Model.Dense

set_option autoImplicit false
set_option relaxedAutoImplicit false

/-!
Polynomials in the coordinates of a point, and the problems that they describe.
-/

namespace InfeasibilityControl

/-- A coefficient and the coordinates it is multiplied by, in order. -/
structure Monomial (K : Type) where
  coefficient : K
  factors : List Int

/-- A sum of monomials, in order. -/
abbrev Polynomial (K : Type) := List (Monomial K)

variable {K : Type} [Scalar K]

/-- The place of a coordinate; a negative index counts from the end. -/
def Vec.place? (x : Vec K) : Int → Option Nat
  | .ofNat i => some i
  | .negSucc i => if i < x.length then some (x.length - (i + 1)) else none

/-- A coordinate of a point. -/
def Vec.coordinate (x : Vec K) (i : Int) : Except Fault K :=
  match (Vec.place? x i).bind fun place => x[place]? with
  | some a => .ok a
  | none => .error .missingCoordinate

namespace Monomial

/-- The coefficient times its coordinates, one after the other. -/
def value (m : Monomial K) (x : Vec K) : Except Fault K :=
  m.factors.foldlM (fun product i => do return product * (← Vec.coordinate x i)) m.coefficient

/-- One monomial for each occurrence of the coordinate, with that occurrence removed. -/
def derivative (m : Monomial K) (k : Nat) : Polynomial K :=
  (List.range m.factors.length).filterMap fun position =>
    if m.factors[position]? = some (k : Int) then
      some ⟨m.coefficient, m.factors.eraseIdx position⟩
    else none

end Monomial

namespace Polynomial

/-- The sum of the monomials, from zero. -/
def value (p : Polynomial K) (x : Vec K) : Except Fault K :=
  p.foldlM (fun sum m => do return sum + (← m.value x)) 0

/-- The derivative by a coordinate. -/
def derivative (p : Polynomial K) (k : Nat) : Polynomial K :=
  p.flatMap fun m => m.derivative k

/-- The weighted sum of an objective's and several constraints' values. -/
def lagrangian (objective : Polynomial K) (constraints : List (Polynomial K)) (x y : Vec K)
    (weight : K) : Except Fault K := do
  let first := weight * (← value objective x)
  (constraints.zip (List.range constraints.length)).foldlM
    (fun sum entry => do
      let multiplier ← Vec.coordinate y entry.2
      return sum + multiplier * (← value entry.1 x))
    first

end Polynomial

/-- The evaluators of a problem. -/
inductive Evaluator
  | objective | gradient | constraints | jacobian | hessian
  deriving DecidableEq

/-- The evaluator of a name. -/
def Evaluator.ofName? (name : String) : Option Evaluator :=
  [("f", objective), ("grad", gradient), ("c", constraints), ("jac", jacobian),
    ("hess", hessian)].lookup name

/-- The comparisons that a coordinate can be put to. -/
inductive Comparison
  | above | below | unequal | equal

/-- The comparison of a symbol. -/
def Comparison.ofSymbol? (symbol : String) : Option Comparison :=
  [(">", above), ("<", below), ("!=", unequal), ("==", equal)].lookup symbol

/-- The comparison of a coordinate with a value. -/
def Comparison.holds (test : Comparison) (a b : K) : Bool :=
  match test with
  | .above => decide (b < a)
  | .below => decide (a < b)
  | .unequal => !(a == b)
  | .equal => a == b

/-- A region, the points at which a coordinate passes a test, and what becomes there of the results
of an evaluator: a value is added to them, or takes the place of those that are finite. -/
structure Patch (K : Type) where
  target : Evaluator
  coordinate : Int
  test : Comparison
  bound : K
  replaces : Bool
  result : K

namespace Patch

/-- A result after the patch, inside its region. -/
def change (patch : Patch K) (a : K) : K :=
  if patch.replaces then a * 0 + patch.result else a + patch.result

/-- What becomes of each result of an evaluator at a point, by the patches meant for it, in order.
The tests are made even if there are no results. -/
def changeAt (patches : List (Patch K)) (target : Evaluator) (x : Vec K) : Except Fault (K → K) :=
  (patches.filter fun patch => patch.target = target).foldlM
    (fun change patch => do
      let a ← Vec.coordinate x patch.coordinate
      return if patch.test.holds a patch.bound then patch.change ∘ change else change)
    id

end Patch

/-- A problem with polynomial objective and constraints. First derivatives that are given take the
place of those of the polynomials, whatever their number. -/
structure PolynomialModel (K : Type) where
  name : String
  start : Vec K
  objective : Polynomial K
  constraints : List (Polynomial K)
  gradient : List (Polynomial K)
  jacobian : List (List (Polynomial K))
  /-- The second derivatives are taken to be zero. -/
  flat : Bool
  /-- The Jacobian is given in sparse form, without its zeros. -/
  sparseJacobian : Bool := false
  patches : List (Patch K)
  constraintCount? : Option Int
  lower? : Option (Vec K)
  upper? : Option (Vec K)
  inequalityCount : Int
  evaluationTime : K

namespace PolynomialModel

/-- The polynomial that is differentiated for second derivatives. -/
def secondDerivative (m : PolynomialModel K) (p : Polynomial K) (i j : Nat) : Polynomial K :=
  if m.flat then [] else (p.derivative i).derivative j

/-- A polynomial's first derivatives, by each coordinate of the start. -/
def derivatives (m : PolynomialModel K) (p : Polynomial K) : List (Polynomial K) :=
  (List.range m.start.length).map p.derivative

/-- The gradient's polynomials. -/
def gradientPolynomials (m : PolynomialModel K) : List (Polynomial K) :=
  if m.gradient.isEmpty then m.derivatives m.objective else m.gradient

/-- The Jacobian's polynomials, row by row. -/
def jacobianPolynomials (m : PolynomialModel K) : List (List (Polynomial K)) :=
  if m.jacobian.isEmpty then m.constraints.map m.derivatives else m.jacobian

/-- The problem with dense derivatives that the polynomials describe. -/
def dense (m : PolynomialModel K) : DenseModel K :=
  let n := m.start.length
  let gradient := m.gradientPolynomials
  let jacobian := m.jacobianPolynomials
  let hessian := (List.range n).map fun i =>
    (List.range n).map fun j =>
      (m.secondDerivative m.objective i j, m.constraints.map fun c => m.secondDerivative c i j)
  let changeAt := Patch.changeAt m.patches
  { name := m.name
    start := m.start
    constraintCount? := m.constraintCount?
    lower? := m.lower?
    upper? := m.upper?
    inequalityCount := m.inequalityCount
    evaluationTime := m.evaluationTime
    objective := fun x => do
      let value ← m.objective.value x
      return (← changeAt .objective x) value
    gradient := fun x => do
      let values ← gradient.mapM fun p => p.value x
      return values.map (← changeAt .gradient x)
    constraints := fun x => do
      let values ← m.constraints.mapM fun p => p.value x
      return values.map (← changeAt .constraints x)
    jacobian := fun x => do
      let rows ← SparseMatrix.rectangular (← jacobian.mapM fun row => row.mapM fun p => p.value x)
      let change ← changeAt .jacobian x
      let rows := rows.map fun row => row.map change
      return if m.sparseJacobian then
        .sparse (SparseMatrix.ofRows (rows.headD []).length rows).dropZeros
      else .dense rows
    hessian := fun x y weight => do
      let rows ← hessian.mapM fun row => row.mapM fun entry =>
        Polynomial.lagrangian entry.1 entry.2 x y weight
      let change ← changeAt .hessian x
      return rows.map fun row => row.map change }

end PolynomialModel

/-- A derivative entry in a sparse description. -/
structure PolynomialEntry (K : Type) where
  position : Position
  objective : Polynomial K
  constraints : List (Polynomial K)

/-- A problem with polynomial objective and constraints whose derivatives are listed by position. -/
structure SparsePolynomialModel (K : Type) where
  name : String
  start : Vec K
  objective : Polynomial K
  constraints : List (Polynomial K)
  jacobian : List (Position × Polynomial K)
  hessian : List (PolynomialEntry K)
  evaluationTime : K

/-- The problem that a sparse description stands for. -/
def SparsePolynomialModel.problem (m : SparsePolynomialModel K) : Problem K :=
  let gradient := (List.range m.start.length).map m.objective.derivative
  { name := m.name
    start := m.start
    constraintCount := m.constraints.length
    inequalityCount := 0
    bounded := false
    evaluationTime := m.evaluationTime
    objective := m.objective.value
    gradient := fun x => gradient.mapM fun p => p.value x
    constraints := fun x => m.constraints.mapM fun p => p.value x
    jacobianPattern := m.jacobian.map Prod.fst
    jacobianValues := fun x => m.jacobian.mapM fun entry => entry.2.value x
    hessianPattern := m.hessian.map PolynomialEntry.position
    hessianValues := fun x y weight => m.hessian.mapM fun entry =>
      Polynomial.lagrangian entry.objective entry.constraints x y weight }

end InfeasibilityControl
