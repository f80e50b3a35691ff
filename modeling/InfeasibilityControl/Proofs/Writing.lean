import InfeasibilityControl.Proofs.Iterate
import InfeasibilityControl.Proofs.Outcome

set_option autoImplicit false
set_option relaxedAutoImplicit false

/-!
What the parts of a run report, however they end.

Only the end of a stage reports a row. Evaluators, products, inner solves and steps report nothing,
and none of them takes an evaluation back.
-/

namespace InfeasibilityControl

open Counted (Writes writes_pure writes_throw writes_except writes_get writes_modify
  writes_modifyGet)
open Ledger (Extends)

variable {K : Type}

theorem Counted.writes_count {change : Counters → Counters}
    (h : ∀ c, c.evaluations ≤ (change c).evaluations) :
    Writes 0 (Counted.count (K := K) change) :=
  writes_modify fun l => .of_rows_eq (h l.counters) rfl

theorem Counted.writes_recordSolve {s : SolveRecord} :
    Writes 0 (Counted.recordSolve (K := K) s) :=
  writes_modify fun _ => .of_rows_eq (Nat.le_refl _) rfl

variable [Scalar K] {p : Problem K} {b : Budget K} {settings : Settings K}

theorem Counted.writes_pass {seconds : K} : Writes 0 (Counted.pass seconds) :=
  writes_modify fun _ => .of_rows_eq (Nat.le_refl _) rfl

theorem Counted.writes_time : Writes 0 (Counted.time (K := K)) :=
  writes_modifyGet fun _ => .of_rows_eq (Nat.le_refl _) rfl

namespace Budget

omit [Scalar K] in
theorem evaluations_writes : Writes 0 (evaluations (K := K)) :=
  Writes.then (writes_get.then fun _ => writes_pure) fun _ => writes_pure

theorem elapsed_writes : Writes 0 b.elapsed :=
  Counted.writes_time.then fun _ => writes_pure

theorem start_writes {maxEvaluations : Int} {maxTime : K} :
    Writes 0 (start maxEvaluations maxTime) :=
  Counted.writes_time.then fun _ => writes_pure

theorem check_writes : Writes 0 b.check :=
  evaluations_writes.then fun _ =>
    Writes.ite writes_pure (elapsed_writes.then fun _ => writes_pure)

theorem exhausted_writes : Writes 0 b.exhausted :=
  check_writes.then fun _ =>
    Writes.then (writes_modify fun _ => .of_rows_eq (Nat.le_refl _) rfl) fun _ => writes_pure

end Budget

namespace Problem

theorem objectiveAt_writes {x : Vec K} : Writes 0 (p.objectiveAt x) :=
  (Counted.writes_count fun c => by simp only [Counters.evaluations]; omega).then fun _ =>
    Counted.writes_pass.then fun _ => writes_except

omit [Scalar K] in
theorem gradientAt_writes {x : Vec K} : Writes 0 (p.gradientAt x) :=
  (Counted.writes_count fun _ => by exact Nat.le_refl _).then fun _ => writes_except

theorem constraintsAt_writes {x : Vec K} : Writes 0 (p.constraintsAt x) :=
  (Counted.writes_count fun c => by simp only [Counters.evaluations]; omega).then fun _ =>
    Counted.writes_pass.then fun _ => writes_except

omit [Scalar K] in
theorem jacobianValuesAt_writes {x : Vec K} : Writes 0 (p.jacobianValuesAt x) :=
  (Counted.writes_count fun _ => by exact Nat.le_refl _).then fun _ => writes_except

omit [Scalar K] in
theorem hessianValuesAt_writes {x y : Vec K} {weight : K} :
    Writes 0 (p.hessianValuesAt x y weight) :=
  (Counted.writes_count fun _ => by exact Nat.le_refl _).then fun _ => writes_except

theorem jacobianAt_writes {x : Vec K} : Writes 0 (p.jacobianAt x) :=
  jacobianValuesAt_writes.then fun _ => writes_except.then fun _ => writes_except

end Problem

namespace SparseMatrix

variable {J : SparseMatrix K} {v : Vec K} {tolerances : LeastSquares.Tolerances K}
  {limit? : Option Int}

theorem product_writes : Writes 0 (J.product v) :=
  Writes.ite ((Counted.writes_count fun _ => by exact Nat.le_refl _).then fun _ => writes_pure)
    writes_throw

theorem transposedProduct_writes : Writes 0 (J.transposedProduct v) :=
  Writes.ite ((Counted.writes_count fun _ => by exact Nat.le_refl _).then fun _ => writes_pure)
    writes_throw

theorem leastSquares_writes {solver : LeastSquares.Solver K} :
    Writes 0 (J.leastSquares v solver) :=
  writes_except.then fun _ => (Counted.writes_count fun _ => by exact Nat.le_refl _).then fun _ =>
    Counted.writes_recordSolve.then fun _ => writes_pure

theorem transposedLeastSquares_writes : Writes 0 (J.transposedLeastSquares v tolerances limit?) :=
  writes_except.then fun _ => (Counted.writes_count fun _ => by exact Nat.le_refl _).then fun _ =>
    Counted.writes_recordSolve.then fun _ => writes_pure

theorem projectOntoNullSpace_writes : Writes 0 (J.projectOntoNullSpace v tolerances limit?) :=
  transposedLeastSquares_writes.then fun _ => transposedProduct_writes.then fun _ => writes_except

end SparseMatrix

theorem Settings.estimate_writes {J : SparseMatrix K} {g : Vec K} :
    Writes 0 (settings.estimate J g) :=
  Writes.ite (SparseMatrix.transposedLeastSquares_writes.then fun _ =>
    SparseMatrix.transposedProduct_writes.then fun _ => writes_except.then fun _ => writes_pure)
    writes_throw

theorem Problem.evaluate_writes {x : Vec K} {radius : K} {iteration : Int}
    {multipliers? : Option (Vec K)} :
    Writes 0 (p.evaluate settings x radius iteration multipliers?) := by
  refine objectiveAt_writes.then fun _ => constraintsAt_writes.then fun _ =>
    gradientAt_writes.then fun _ => jacobianAt_writes.then fun _ => ?_
  cases multipliers? with
  | some known => exact writes_pure.then fun _ => writes_pure
  | none =>
    exact Writes.then (m := settings.estimate _ _) Settings.estimate_writes fun _ =>
      writes_pure.then fun _ => writes_pure

namespace NormalState

variable {options : NormalOptions K} {radius : K} {s : NormalState K} {g Jg : Vec K}
  {solver : LeastSquares.Solver K}

theorem examine_writes : Writes 0 (s.examine options b radius) := by
  refine Writes.ite writes_pure ((Budget.exhausted_writes (b := b)).then fun t => ?_)
  cases t with
  | some limit => exact writes_pure
  | none =>
    refine SparseMatrix.transposedProduct_writes.then fun g =>
      Writes.ite writes_pure (SparseMatrix.product_writes.then fun Jg => ?_)
    have hregion : Writes 0 (if s.trustRadius < options.minTrustRadius then
        pure (.inl .infeasible) else pure (.inr (g, Jg)) :
          Counted K (NormalStatus ⊕ Vec K × Vec K)) := Writes.ite writes_pure writes_pure
    exact Writes.ite (writes_except.then fun _ => Writes.ite writes_pure hregion) hregion

theorem attempt_writes : Writes 0 (s.attempt solver p options g Jg) :=
  SparseMatrix.leastSquares_writes.then fun _ => writes_except.then fun _ =>
    writes_except.then fun _ => SparseMatrix.product_writes.then fun _ =>
    writes_except.then fun _ => writes_except.then fun _ => writes_except.then fun _ =>
    Budget.evaluations_writes.then fun _ => Problem.constraintsAt_writes.then fun _ =>
    writes_except.then fun _ =>
      Writes.ite (Problem.jacobianAt_writes.then fun _ => writes_pure) writes_pure

theorem conclude_writes : Writes 0 (s.conclude b radius) := by
  refine Writes.ite writes_pure ((Budget.exhausted_writes (b := b)).then fun t => ?_)
  cases t <;> exact writes_pure

theorem iterate_writes {passes made : Nat} :
    Writes 0 (iterate solver p options b radius passes made s) := by
  induction passes generalizing made s with
  | zero => exact conclude_writes.then fun _ => writes_pure
  | succ passes ih =>
    refine examine_writes.then fun x => ?_
    cases x with
    | inl status => exact writes_pure
    | inr directions => exact attempt_writes.then fun _ => ih

end NormalState

theorem normalStep_writes {options : NormalOptions K} {start c : Vec K}
    {J? : Option (SparseMatrix K)} {radius bound relativeDual floor : K} :
    Writes 0 (normalStep p options b start c J? radius bound relativeDual floor) := by
  cases J? with
  | some known =>
    exact writes_pure.then fun _ => NormalState.iterate_writes.then fun _ => writes_pure
  | none =>
    exact Problem.jacobianAt_writes.then fun _ =>
      NormalState.iterate_writes.then fun _ => writes_pure

namespace KktSystem

variable {kkt : KktSystem K} {x y : Vec K} {gamma delta : K}

theorem refresh_writes :
    Writes 0 (liftM (kkt.refresh p x y gamma delta) : Counted K _) := by
  intro l
  have hhalf : Writes 0 (kkt.refreshHessian p x y) :=
    Problem.hessianValuesAt_writes.then fun _ => writes_except.then fun _ => writes_pure
  have hfull : ∀ half : KktSystem K, Writes 0 (half.refreshJacobian p x) := fun half =>
    Problem.jacobianValuesAt_writes.then fun _ => writes_except.then fun _ => writes_pure
  change l.Extends 0 ((kkt.refresh p x y gamma delta).run l).run.2
  simp only [refresh, StateT.run_bind, Id.run_bind]
  have hhalf := hhalf l
  simp only [Counted.after, Counted.outcome] at hhalf
  rcases hend : ((kkt.refreshHessian p x y).run.run l).run with ⟨half?, l₁⟩
  rw [hend] at hhalf
  cases half? with
  | error fault => exact hhalf
  | ok half =>
    have hfull := hfull half l₁
    simp only [Counted.after, Counted.outcome] at hfull
    simp only [StateT.run_bind, Id.run_bind]
    rcases hend' : ((half.refreshJacobian p x).run.run l₁).run with ⟨full?, l₂⟩
    rw [hend'] at hfull
    cases full? with
    | error fault => exact hhalf.trans hfull
    | ok full => exact hhalf.trans hfull

theorem searchDirection_writes {gradient : Vec K} {J : SparseMatrix K}
    {tolerances : LeastSquares.Tolerances K} :
    Writes 0 (kkt.searchDirection gradient J tolerances) := by
  refine writes_except.then fun d? => ?_
  cases d? with
  | some d => exact writes_pure
  | none => exact SparseMatrix.projectOntoNullSpace_writes.then fun _ => writes_pure

end KktSystem

namespace LineSearch

variable {line : LineSearch K}

theorem evaluate_writes {stepSize : K} : Writes 0 (line.evaluate p stepSize) :=
  writes_except.then fun _ => Budget.evaluations_writes.then fun _ =>
    Problem.objectiveAt_writes.then fun _ => Problem.constraintsAt_writes.then fun _ =>
    writes_except.then fun _ => writes_pure

theorem iterate_writes {remaining : Nat} {stepSize : K} {trials : List (LineTrial K)} :
    Writes 0 (iterate p b line remaining stepSize trials) := by
  induction remaining generalizing stepSize trials with
  | zero => exact writes_pure
  | succ remaining ih =>
    refine Budget.exhausted_writes.then fun t => ?_
    cases t with
    | some limit => exact writes_pure
    | none =>
      exact evaluate_writes.then fun _ =>
        Writes.ite writes_pure (Writes.ite writes_pure ih)

end LineSearch

theorem tangentStep_writes {kkt : KktSystem K} {options : TangentOptions K}
    {origin multipliers gradient : Vec K} {J : SparseMatrix K} {merit radius : K} :
    Writes 0 (tangentStep p kkt options b origin multipliers gradient J merit radius) := by
  refine KktSystem.searchDirection_writes.then fun _ => writes_except.then fun _ =>
    Writes.ite writes_pure (Writes.ite writes_pure (Budget.evaluations_writes.then fun _ =>
      LineSearch.iterate_writes.then fun x => ?_))
  split <;> exact writes_pure

namespace Iterate

variable {s : Iterate K}

theorem readLagrangianGradient_writes : Writes 0 s.readLagrangianGradient := by
  unfold readLagrangianGradient
  split
  · exact writes_pure
  · exact SparseMatrix.transposedProduct_writes.then fun _ =>
      writes_except.then fun _ => writes_pure

theorem readDualNorm_writes : Writes 0 s.readDualNorm :=
  readLagrangianGradient_writes.then fun _ => writes_pure

theorem normalStep_writes {primalTolerance dualTolerance : K} :
    Writes 0 (s.normalStep p settings primalTolerance dualTolerance b) :=
  readDualNorm_writes.then fun _ =>
    InfeasibilityControl.normalStep_writes.then fun _ => writes_pure

theorem restoredWith_writes {o : NormalOutcome K} {x : K × Vec K} :
    Writes 0 (s.restoredWith settings o x) :=
  Settings.estimate_writes.then fun _ => writes_pure

theorem restored_writes {o : NormalOutcome K} : Writes 0 (s.restored p settings o) :=
  Writes.ite (writes_pure.then fun _ => restoredWith_writes)
    (Problem.objectiveAt_writes.then fun _ => Problem.gradientAt_writes.then fun _ =>
      writes_pure.then fun _ => restoredWith_writes)

theorem report_writes {stage status : String} {iteration : Int} :
    Writes 1 (s.report b stage iteration status) :=
  Budget.evaluations_writes.then fun _ => readDualNorm_writes.then fun _ =>
    Budget.elapsed_writes.then fun _ =>
      Writes.bind (j := 0) (writes_modify fun _ => ⟨Nat.le_refl _, _, rfl, Nat.le_refl 1⟩)
        fun _ => writes_pure

end Iterate

namespace RunState

variable {c : RunContext K} {r : RunState K}

theorem close_writes {work : StageWork K} {stage status : String} {iteration : Int} :
    Writes 1 (r.close c work stage iteration status) :=
  Iterate.report_writes.bind (j := 0) fun _ => writes_pure

theorem isSolved_writes {s : Iterate K} {t : RunTolerances K} : Writes 0 (isSolved s t) :=
  Writes.ite (Iterate.readDualNorm_writes.then fun _ => writes_pure) writes_pure

theorem restore_writes : Writes 1 (r.restore c) :=
  Iterate.normalStep_writes.then fun _ => Iterate.restored_writes.then fun _ =>
    close_writes.bind (j := 0) fun _ => Budget.exhausted_writes.then fun _ => writes_pure

theorem closeDescent_writes {o : TangentOutcome K} {iteration : Int} :
    Writes 1 (r.closeDescent c o iteration) :=
  close_writes.bind (j := 0) fun _ => isSolved_writes.then fun _ =>
    Budget.exhausted_writes.then fun _ => writes_pure

theorem descend_writes : Writes 1 (r.descend c) := by
  refine writes_except.then fun _ => KktSystem.refresh_writes.then fun _ =>
    writes_except.then fun _ => Iterate.readLagrangianGradient_writes.then fun _ =>
    writes_except.then fun _ => tangentStep_writes.then fun _ => ?_
  exact Writes.ite (writes_pure.then fun _ => closeDescent_writes)
    (Problem.evaluate_writes.then fun _ => closeDescent_writes)

theorem advance_writes : Writes 2 (r.advance c) := by
  refine restore_writes.bind (j := 1) fun r => Writes.ite (isSolved_writes.then fun _ => ?_)
    writes_pure
  exact Writes.ite writes_pure (descend_writes.bind (j := 0) fun _ => writes_pure)

theorem repeatRounds_writes {rounds : Nat} {again : Bool} :
    Writes (2 * rounds) (repeatRounds c rounds r again) := by
  induction rounds generalizing r again with
  | zero => exact writes_pure
  | succ rounds ih =>
    refine Writes.ite writes_pure (Writes.mono (i := 2 + 2 * rounds) ?_ (by omega))
    exact advance_writes.bind fun _ => ih

end RunState

/-- What the start of a run does once the counts have begun afresh. -/
def openRun (p : Problem K) (settings : Settings K) (policy : RegularizationPolicy K)
    (start? : Option (Vec K)) : Counted K (RunContext K × RunState K) := do
  let x := start?.getD p.start
  if x.length = p.variableCount then
    let budget ← Budget.start settings.maxEvaluations settings.maxTime
    let kkt ← (KktSystem.ofProblem p : Except Fault (KktSystem K))
    let iterate ← p.evaluate settings x settings.radiusBound 0 none
    let (dualNorm, iterate) ← iterate.readDualNorm
    let tolerances : RunTolerances K :=
      ⟨settings.absolute + settings.relative * iterate.primalNorm,
        settings.absolute + settings.relative * dualNorm⟩
    let c : RunContext K := { problem := p, settings, policy, budget, tolerances }
    let (solved, iterate) ← RunState.isSolved iterate tolerances
    let tired ← budget.exhausted
    let r : RunState K :=
      { iterate, kkt, stages := [], solved, tired, infeasible := false, stalled := false }
    return (c, ← r.close c .initial "init" iterate.iteration "")
  else throw .startLength

theorem startRun_eq (p : Problem K) (settings : Settings K) (policy : RegularizationPolicy K)
    (start? : Option (Vec K)) :
    startRun p settings policy start? =
      (liftM p.check : Counted K Unit) >>= fun _ =>
        (modify Ledger.restart : Counted K Unit) >>= fun _ =>
          openRun p settings policy start? := rfl

theorem openRun_writes {policy : RegularizationPolicy K} {start? : Option (Vec K)} :
    Writes 1 (openRun p settings policy start?) :=
  Writes.ite (Budget.start_writes.then fun _ => writes_except.then fun _ =>
    Problem.evaluate_writes.then fun _ => Iterate.readDualNorm_writes.then fun _ =>
    RunState.isSolved_writes.then fun _ => Budget.exhausted_writes.then fun _ =>
    RunState.close_writes.bind (j := 0) fun _ => writes_pure) writes_throw

theorem finishRun_writes {c : RunContext K} {r : RunState K} : Writes 0 (finishRun c r) :=
  Budget.elapsed_writes.then fun _ => Iterate.readDualNorm_writes.then fun _ =>
    Writes.then (writes_get.then fun _ => writes_pure) fun _ => writes_pure

end InfeasibilityControl
