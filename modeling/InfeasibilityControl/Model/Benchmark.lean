import InfeasibilityControl.Model.Polynomial

set_option autoImplicit false
set_option relaxedAutoImplicit false

/-!
Five small problems in two variables with one constraint.

Four have a known solution; the last has no feasible point.
-/

namespace InfeasibilityControl

/-- The benchmark problems. -/
inductive Benchmark
  /-- Minimize `x₀² + x₁²` on the line `x₀ + x₁ = 1`. -/
  | quadraticOnLine
  /-- Minimize `(1 - x₀)²` on the parabola `10 (x₁ - x₀²) = 0`. -/
  | parabolicValley
  /-- Minimize `log (1 + x₀²) - x₁` on the quartic `(1 + x₀²)² + x₁² = 4`. -/
  | logarithmOnQuartic
  /-- Minimize `-x₀ + 10 (x₀² + x₁² - 1)` on the unit circle. -/
  | flatCircle
  /-- Minimize `x₀² + x₁²` subject to `x₀² + 1 = 0`. -/
  | infeasibleCircle
  deriving DecidableEq

namespace Benchmark

/-- All benchmark problems. -/
def all : List Benchmark :=
  [.quadraticOnLine, .parabolicValley, .logarithmOnQuartic, .flatCircle, .infeasibleCircle]

/-- The name under which a problem is known. -/
def name : Benchmark → String
  | .quadraticOnLine => "quadratic_on_line"
  | .parabolicValley => "hs6"
  | .logarithmOnQuartic => "hs7"
  | .flatCircle => "bt1"
  | .infeasibleCircle => "infeasible_circle"

/-- The problem of a name. -/
def ofName? (name : String) : Option Benchmark := all.find? fun b => b.name == name

variable {K : Type} [Scalar K]

/-- The square of a number. -/
def square (a : K) : K := a * a

/-- The customary start. -/
def standardStart : Benchmark → Vec K
  | .quadraticOnLine => [2.0, 0.0]
  | .parabolicValley => [-1.2, 1.0]
  | .logarithmOnQuartic => [2.0, 2.0]
  | .flatCircle => [0.08, 0.06]
  | .infeasibleCircle => [1.0, 1.0]

/-- The known solution. -/
def solution? : Benchmark → Option (Vec K)
  | .quadraticOnLine => some [0.5, 0.5]
  | .parabolicValley => some [1.0, 1.0]
  | .logarithmOnQuartic => some [0.0, Scalar.sqrt 3.0]
  | .flatCircle => some [1.0, 0.0]
  | .infeasibleCircle => none

/-- The objective at the known solution. -/
def optimum? : Benchmark → Option K
  | .quadraticOnLine => some 0.5
  | .parabolicValley => some 0.0
  | .logarithmOnQuartic => some (-Scalar.sqrt 3.0)
  | .flatCircle => some (-1.0)
  | .infeasibleCircle => none

/-- The objective. -/
def objective (b : Benchmark) (x : Vec K) : Except Fault K := do
  let x0 ← x.coordinate 0
  match b with
  | .parabolicValley => return square (1.0 - x0)
  | .quadraticOnLine | .infeasibleCircle => return square x0 + square (← x.coordinate 1)
  | .logarithmOnQuartic => return Scalar.logOnePlus (square x0) - (← x.coordinate 1)
  | .flatCircle => return -x0 + 10.0 * (square x0 + square (← x.coordinate 1) - 1.0)

/-- The gradient of the objective. -/
def gradient (b : Benchmark) (x : Vec K) : Except Fault (Vec K) := do
  match b with
  | .quadraticOnLine | .infeasibleCircle => return Vec.scale 2.0 x
  | .parabolicValley => return [-2.0 * (1.0 - (← x.coordinate 0)), 0.0]
  | .logarithmOnQuartic =>
      let x0 ← x.coordinate 0
      return [2.0 * x0 / (1.0 + square x0), -1.0]
  | .flatCircle => return [-1.0 + 20.0 * (← x.coordinate 0), 20.0 * (← x.coordinate 1)]

/-- The constraint. -/
def constraint (b : Benchmark) (x : Vec K) : Except Fault (Vec K) := do
  let x0 ← x.coordinate 0
  match b with
  | .quadraticOnLine => return [x0 + (← x.coordinate 1) - 1.0]
  | .parabolicValley => return [10.0 * ((← x.coordinate 1) - square x0)]
  | .logarithmOnQuartic => return [square (1.0 + square x0) + square (← x.coordinate 1) - 4.0]
  | .flatCircle => return [square x0 + square (← x.coordinate 1) - 1.0]
  | .infeasibleCircle => return [square x0 + 1.0]

/-- The derivative of the constraint. -/
def jacobian (b : Benchmark) (x : Vec K) : Except Fault (List (Vec K)) := do
  match b with
  | .quadraticOnLine => return [[1.0, 1.0]]
  | .parabolicValley => return [[-20.0 * (← x.coordinate 0), 10.0]]
  | .logarithmOnQuartic =>
      let x0 ← x.coordinate 0
      return [[4.0 * x0 * (1.0 + square x0), 2.0 * (← x.coordinate 1)]]
  | .flatCircle => return [[2.0 * (← x.coordinate 0), 2.0 * (← x.coordinate 1)]]
  | .infeasibleCircle => return [[2.0 * (← x.coordinate 0), 0.0]]

/-- A diagonal matrix of two rows. -/
def diagonal (first second : K) : List (Vec K) := [[first, 0.0], [0.0, second]]

/-- A multiple of the identity matrix of two rows. -/
def scaledIdentity (factor : K) : List (Vec K) :=
  [[factor * 1.0, factor * 0.0], [factor * 0.0, factor * 1.0]]

/-- The second derivative of the weighted objective plus the constraint times its multiplier. -/
def hessian (b : Benchmark) (x y : Vec K) (weight : K) : Except Fault (List (Vec K)) := do
  match b with
  | .quadraticOnLine => return scaledIdentity (2.0 * weight)
  | .parabolicValley => return diagonal (2.0 * weight - 20.0 * (← y.coordinate 0)) 0.0
  | .logarithmOnQuartic =>
      let x0 ← x.coordinate 0
      let y0 ← y.coordinate 0
      let u := 1.0 + square x0
      let objectivePart := 2.0 * (1.0 - square x0) / square u
      let constraintPart := 4.0 + 12.0 * square x0
      return diagonal (weight * objectivePart + y0 * constraintPart) (2.0 * y0)
  | .flatCircle =>
      return scaledIdentity (20.0 * weight + 2.0 * (← y.coordinate 0))
  | .infeasibleCircle =>
      return diagonal (2.0 * weight + 2.0 * (← y.coordinate 0)) (2.0 * weight)

/-- The benchmark as a problem with dense derivatives, from the given start. -/
def model (b : Benchmark) (start : Vec K) (evaluationTime : K) : DenseModel K where
  name := b.name
  start := start
  constraintCount? := some 1
  lower? := none
  upper? := none
  inequalityCount := 0
  evaluationTime := evaluationTime
  objective := b.objective
  gradient := b.gradient
  constraints := b.constraint
  jacobian := fun x => (b.jacobian x).map .dense
  hessian := b.hessian

end Benchmark

end InfeasibilityControl
