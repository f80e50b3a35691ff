import InfeasibilityControl.LeastSquares.Bidiagonalization
import InfeasibilityControl.Ledger

set_option autoImplicit false
set_option relaxedAutoImplicit false

/-!
Least-squares solutions and what is built from them: projections and multiplier estimates, for a
matrix at hand.
-/

namespace InfeasibilityControl.LeastSquares

/-- The outcome of a least-squares solve: the last iterate, whether it is taken for the solution,
and the work it took. -/
structure Solution (K : Type) where
  vector : Vec K
  converged : Bool
  steps : Nat
  limit : Int
  columns : Nat
  products : Nat
  transposedProducts : Nat

variable {K : Type} [Scalar K]

/-- The tolerances that are used when none are given. -/
def Tolerances.standard : Tolerances K := ⟨1e-12, 1e-12⟩

/-- The steps allowed when no limit is given: twice the number of columns. -/
def standardLimit (columns : Nat) : Int := 2 * (Nat.max columns 1 : Int)

/-- Minimize `‖A x - b‖`. A zero right-hand side is answered without a product. -/
def solve (A : Operator K) (b : Vec K) (tolerances : Tolerances K) (limit? : Option Int) :
    Except Fault (Solution K) :=
  if A.rowCount = b.length then
    let limit := limit?.getD (standardLimit A.columnCount)
    if Vec.isNonzero b then
      let (last, ending) := run A b tolerances limit
      .ok { vector := last.solution
            converged := ending.isConverged
            steps := last.steps
            limit
            columns := A.columnCount
            products := last.products
            transposedProducts := last.transposedProducts }
    else
      .ok { vector := Vec.zeros A.columnCount
            converged := true
            steps := 0
            limit
            columns := A.columnCount
            products := 0
            transposedProducts := 0 }
  else .error .leastSquaresRows

/-- A way to solve least-squares problems. -/
abbrev Solver (K : Type) := Operator K → Vec K → Except Fault (Solution K)

/-- The recurrence with these tolerances and this limit. -/
def Solver.recurrence (tolerances : Tolerances K) (limit? : Option Int) : Solver K :=
  fun A b => solve A b tolerances limit?

/-- What a solve leaves on record. -/
def Solution.record (s : Solution K) : SolveRecord := ⟨s.columns, s.limit, s.steps⟩

end InfeasibilityControl.LeastSquares
