import InfeasibilityControl.Ledger

set_option autoImplicit false
set_option relaxedAutoImplicit false

/-!
Budgets of evaluations and of time.

Both limits are strict: a budget is exhausted once the count or the time exceeds its limit.
-/

namespace InfeasibilityControl

/-- The two limits of a budget. -/
inductive Limit
  | evaluations | time
  deriving DecidableEq

/-- The word for a limit that was exceeded. -/
def Limit.name : Limit → String
  | .evaluations => "max_eval"
  | .time => "max_time"

/-- How many evaluations and how much time may be spent, from a moment on. -/
structure Budget (K : Type) where
  maxEvaluations : Int
  maxTime : K
  startTime : K

namespace Budget

variable {K : Type} [Scalar K]

/-- A budget that starts now. -/
def start (maxEvaluations : Int) (maxTime : K) : Counted K (Budget K) :=
  return ⟨maxEvaluations, maxTime, ← Counted.time⟩

/-- The time since the start. -/
def elapsed (b : Budget K) : Counted K K := return (← Counted.time) - b.startTime

/-- The evaluations so far. -/
def evaluations : Counted K Nat := return (← Counted.counters).evaluations

/-- The limit that is exceeded by what a check saw, if one is. -/
def verdict (b : Budget K) (check : BudgetCheck K) : Option Limit :=
  if b.maxEvaluations < (check.evaluations : Int) then some .evaluations
  else match check.elapsed with
    | none => none
    | some elapsed => if b.maxTime < elapsed then some .time else none

/-- Look at the evaluations and, unless they exceed their limit already, at the clock. -/
def check (b : Budget K) : Counted K (BudgetCheck K) := do
  let spent ← evaluations
  if b.maxEvaluations < (spent : Int) then return ⟨spent, none⟩
  else return ⟨spent, some (← b.elapsed)⟩

/-- The limit that is exceeded, if one is. The clock is not read when the evaluations are. -/
def exhausted (b : Budget K) : Counted K (Option Limit) := do
  let check ← b.check
  Counted.recordCheck check
  return b.verdict check

end Budget

end InfeasibilityControl
