import InfeasibilityControl.Report.Row
import InfeasibilityControl.Vec

set_option autoImplicit false
set_option relaxedAutoImplicit false

/-!
The account that is kept while a problem is worked on, and computations that keep it.

The ledger survives a fault: what was counted, solved or reported before it stays on record.
-/

namespace InfeasibilityControl

/-- How often each evaluator of a problem was called, and each product with a Jacobian formed. -/
structure Counters where
  objective : Nat
  gradient : Nat
  constraints : Nat
  jacobian : Nat
  product : Nat
  transposedProduct : Nat
  hessian : Nat
  deriving DecidableEq

namespace Counters

/-- Nothing was evaluated. -/
def zero : Counters := ⟨0, 0, 0, 0, 0, 0, 0⟩

/-- All counts together. -/
def total (c : Counters) : Nat :=
  c.objective + c.gradient + c.constraints + c.jacobian + c.product + c.transposedProduct +
    c.hessian

/-- The evaluations that a budget pays for: those of the objective and of the constraints. -/
def evaluations (c : Counters) : Nat := c.objective + c.constraints

end Counters

/-- A clock. It shows the seconds that evaluations took, plus a drift that may depend on how often
it was read before. -/
structure Clock (K : Type) where
  worked : K
  readings : Nat
  drift : Nat → K

/-- What a least-squares solve was allowed and what it took. -/
structure SolveRecord where
  columns : Nat
  limit : Int
  iterations : Nat
  deriving DecidableEq

/-- What a check of a budget saw: the evaluations made and the time taken. The time is missing where
the clock was not read. -/
structure BudgetCheck (K : Type) where
  evaluations : Nat
  elapsed : Option K

/-- The account of a computation: counts, inner solves, budget checks, reported rows and the
clock. -/
structure Ledger (K : Type) where
  counters : Counters
  solves : List SolveRecord
  checks : List (BudgetCheck K)
  rows : List (ProgressRow K)
  clock : Clock K

/-- A computation that keeps the ledger and may end in a fault. -/
abbrev Counted (K α : Type) := ExceptT Fault (StateM (Ledger K)) α

namespace Ledger

variable {K : Type} [Scalar K]

/-- An empty ledger with a clock at zero that only evaluations advance. -/
def empty : Ledger K := ⟨.zero, [], [], [], ⟨0, 0, fun _ => 0⟩⟩

/-- The counts and the records of inner solves and budget checks start afresh. -/
def restart (l : Ledger K) : Ledger K := { l with counters := .zero, solves := [], checks := [] }

/-- Let the clock advance. -/
def pass (seconds : K) (l : Ledger K) : Ledger K :=
  { l with clock := { l.clock with worked := l.clock.worked + seconds } }

/-- What the clock shows. -/
def time (l : Ledger K) : K := l.clock.worked + l.clock.drift l.clock.readings

/-- The ledger after the clock was read. -/
def afterReading (l : Ledger K) : Ledger K :=
  { l with clock := { l.clock with readings := l.clock.readings + 1 } }

end Ledger

namespace Counted

variable {K : Type} [Scalar K]

/-- Change the counters. -/
def count (change : Counters → Counters) : Counted K Unit :=
  modify fun l => { l with counters := change l.counters }

/-- Let the clock advance. -/
def pass (seconds : K) : Counted K Unit := modify (Ledger.pass seconds)

/-- Read the clock. -/
def time : Counted K K := modifyGet fun l => (l.time, l.afterReading)

/-- Put a least-squares solve on record. -/
def recordSolve (s : SolveRecord) : Counted K Unit :=
  modify fun l => { l with solves := l.solves ++ [s] }

/-- Put a budget check on record. -/
def recordCheck (check : BudgetCheck K) : Counted K Unit :=
  modify fun l => { l with checks := l.checks ++ [check] }

/-- Report a row of progress. -/
def report (row : ProgressRow K) : Counted K Unit :=
  modify fun l => { l with rows := l.rows ++ [row] }

/-- The counters at this moment. -/
def counters : Counted K Counters := return (← get).counters

end Counted

end InfeasibilityControl
