import InfeasibilityControl.Matrix.Sparse

set_option autoImplicit false
set_option relaxedAutoImplicit false

/-!
Minimization of `‖A x - b‖` by Golub–Kahan bidiagonalization with a running QR factorization
(the LSQR recurrence), started at zero.

Each step asks for one product with the operator and, unless the new left vector vanishes, one with
its transpose. The estimates of norms and of the condition number that the recurrence carries along
decide when it ends.
-/

namespace InfeasibilityControl.LeastSquares

/-- How accurate the data are taken to be: the operator's entries and the right-hand side. -/
structure Tolerances (K : Type) where
  operator : K
  rightSide : K

/-- Why the recurrence ended. -/
inductive Ending
  /-- The start is a solution, or no step was allowed. -/
  | atStart
  /-- The residual is within the tolerances. -/
  | residual
  /-- The normal equations hold within the tolerance. -/
  | normalEquations
  /-- The condition number is too large. -/
  | condition
  /-- The residual is as small as the precision lets it be. -/
  | residualPrecision
  /-- The normal equations hold as well as the precision allows. -/
  | normalEquationsPrecision
  /-- The condition number is too large for the precision. -/
  | conditionPrecision
  | stepLimit
  deriving DecidableEq

/-- The endings at which the solution is taken to be found. -/
def Ending.isConverged : Ending → Bool
  | .atStart | .residual | .normalEquations | .residualPrecision | .normalEquationsPrecision => true
  | .condition | .conditionPrecision | .stepLimit => false

/-- The quantities that the recurrence carries from step to step. -/
structure Recurrence (K : Type) where
  solution : Vec K
  left : Vec K
  right : Vec K
  direction : Vec K
  alpha : K
  rhoBar : K
  phiBar : K
  operatorNorm : K
  directionSum : K
  solutionSum : K
  z : K
  cosine : K
  sine : K
  steps : Nat
  products : Nat
  transposedProducts : Nat

variable {K : Type} [Scalar K]

/-- The relative precision of the numbers computed with. -/
def precision : K := 2.220446049250313080847263336181640625e-16

/-- The reciprocal of the largest condition number that is put up with. -/
def conditionTolerance : K := 1e-8

/-- The rotation that takes `(a, b)` to `(r, 0)`: its cosine, its sine and `r`. -/
def rotation (a b : K) : K × K × K :=
  if b == 0 then (Scalar.sign a, 0, Scalar.abs a)
  else if a == 0 then (0, Scalar.sign b, Scalar.abs b)
  else if Scalar.abs a < Scalar.abs b then
    let t := a / b
    let s := Scalar.sign b / Scalar.sqrt (1 + t * t)
    (s * t, s, b / s)
  else
    let t := b / a
    let c := Scalar.sign a / Scalar.sqrt (1 + t * t)
    (c, c * t, a / c)

/-- A vector divided by its norm, unless that is not positive. -/
def normalize (v : Vec K) (norm : K) : Vec K :=
  if (0 : K) < norm then Vec.scale (1 / norm) v else v

/-- The first vectors of the two bases. -/
def start (A : Operator K) (b : Vec K) : Recurrence K :=
  let beta := Vec.norm b
  let positive := decide ((0 : K) < beta)
  let left := normalize b beta
  let image := if positive then A.applyTransposed left else Vec.zeros A.columnCount
  let alpha := if positive then Vec.norm image else 0
  let right := normalize image alpha
  { solution := Vec.zeros A.columnCount
    left := left
    right := right
    direction := right
    alpha := alpha
    rhoBar := alpha
    phiBar := beta
    operatorNorm := 0
    directionSum := 0
    solutionSum := 0
    z := 0
    cosine := -1
    sine := 0
    steps := 0
    products := 0
    transposedProducts := if positive then 1 else 0 }

/-- One step of the recurrence, and the test that ends it there, if one does. Of several tests that
hold, the one that says most about the solution is named. -/
def step (A : Operator K) (tolerances : Tolerances K) (limit : Int) (rightSideNorm : K)
    (s : Recurrence K) : Recurrence K × Option Ending :=
  let steps := s.steps + 1
  let nextLeft := Vec.minus (A.apply s.right) (Vec.scale s.alpha s.left)
  let beta := Vec.norm nextLeft
  let positive := decide ((0 : K) < beta)
  let left := normalize nextLeft beta
  let operatorNorm :=
    if positive then
      Scalar.sqrt (s.operatorNorm * s.operatorNorm + s.alpha * s.alpha + beta * beta)
    else s.operatorNorm
  let nextRight :=
    if positive then Vec.minus (A.applyTransposed left) (Vec.scale beta s.right) else s.right
  let alpha := if positive then Vec.norm nextRight else s.alpha
  let right := if positive then normalize nextRight alpha else s.right
  let (c, sn, rho) := rotation s.rhoBar beta
  let theta := sn * alpha
  let rhoBar := -c * alpha
  let phi := c * s.phiBar
  let phiBar := sn * s.phiBar
  let tau := sn * phi
  let scaled := Vec.scale (1 / rho) s.direction
  let solution := Vec.plus s.solution (Vec.scale (phi / rho) s.direction)
  let direction := Vec.plus right (Vec.scale (-theta / rho) s.direction)
  let scaledNorm := Vec.norm scaled
  let directionSum := s.directionSum + scaledNorm * scaledNorm
  let delta := s.sine * rho
  let gammaBar := -s.cosine * rho
  let rest := phi - delta * s.z
  let zBar := rest / gammaBar
  let solutionNorm := Scalar.sqrt (s.solutionSum + zBar * zBar)
  let gamma := Scalar.sqrt (gammaBar * gammaBar + theta * theta)
  let z := rest / gamma
  let condition := operatorNorm * Scalar.sqrt directionSum
  let residual := Scalar.sqrt (phiBar * phiBar)
  let normalResidual := alpha * Scalar.abs tau
  let test1 := residual / rightSideNorm
  let test2 := normalResidual / (operatorNorm * residual + precision)
  let test3 := 1 / (condition + precision)
  let scaledTest1 := test1 / (1 + operatorNorm * solutionNorm / rightSideNorm)
  let allowed :=
    tolerances.rightSide + tolerances.operator * operatorNorm * solutionNorm / rightSideNorm
  let next : Recurrence K :=
    { solution, left, right, direction, alpha, rhoBar, phiBar, operatorNorm, directionSum
      solutionSum := s.solutionSum + z * z
      z
      cosine := gammaBar / gamma
      sine := theta / gamma
      steps
      products := s.products + 1
      transposedProducts := s.transposedProducts + if positive then 1 else 0 }
  let ending : Option Ending :=
    if test1 ≤ allowed then some .residual
    else if test2 ≤ tolerances.operator then some .normalEquations
    else if test3 ≤ conditionTolerance then some .condition
    else if 1 + scaledTest1 ≤ (1 : K) then some .residualPrecision
    else if 1 + test2 ≤ (1 : K) then some .normalEquationsPrecision
    else if 1 + test3 ≤ (1 : K) then some .conditionPrecision
    else if limit ≤ (steps : Int) then some .stepLimit
    else none
  (next, ending)

/-- Steps until a test ends the recurrence or the allowance is spent. -/
def iterate (A : Operator K) (tolerances : Tolerances K) (limit : Int) (rightSideNorm : K) :
    Nat → Recurrence K → Recurrence K × Ending
  | 0, s => (s, .atStart)
  | allowance + 1, s =>
      match step A tolerances limit rightSideNorm s with
      | (next, some ending) => (next, ending)
      | (next, none) => iterate A tolerances limit rightSideNorm allowance next

/-- The recurrence from its start to its end. At most `limit` steps are taken; none if the start
already satisfies the normal equations or the limit is not positive. -/
def run (A : Operator K) (b : Vec K) (tolerances : Tolerances K) (limit : Int) :
    Recurrence K × Ending :=
  let first := start A b
  if first.alpha * first.phiBar == 0 then (first, .atStart)
  else iterate A tolerances limit first.phiBar limit.toNat first

end InfeasibilityControl.LeastSquares
