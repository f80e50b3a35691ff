import InfeasibilityControl.Proofs.Iterate
import InfeasibilityControl.Proofs.Trial
import InfeasibilityControl.Proofs.TangentStep

set_option autoImplicit false
set_option relaxedAutoImplicit false

/-!
The least-squares solves that the parts of a run put on record.

A multiplier estimate makes one solve, under the limit of the settings. Each trial of a normal step
makes one and a projection onto the null space makes one, and both of these are under the standard
limit, whatever the settings say. Nothing else makes a solve, and no solve takes more steps than it
is allowed.
-/

namespace InfeasibilityControl

open Counted (Returns)

variable {K α β : Type}

/-- What a solve was allowed: the columns of its matrix and the limit on its steps. -/
def SolveRecord.allowance (s : SolveRecord) : Nat × Int := (s.columns, s.limit)

/-- Between two ledgers solves with these allowances went on record, in this order, and none took
more steps than its limit. -/
def Ledger.Solves (allowances : List (Nat × Int)) (l l' : Ledger K) : Prop :=
  ∃ made, l'.solves = l.solves ++ made ∧ made.map SolveRecord.allowance = allowances ∧
    ∀ s ∈ made, s.iterations ≤ s.limit.toNat

namespace Ledger

variable {l l' l'' : Ledger K} {a b : List (Nat × Int)}

theorem Solves.of_eq (h : l'.solves = l.solves) : Solves [] l l' :=
  ⟨[], by rw [h, List.append_nil], rfl, fun _ hs => by cases hs⟩

theorem Solves.refl : Solves [] l l := .of_eq rfl

theorem Solves.trans (h : Solves a l l') (h' : Solves b l' l'') : Solves (a ++ b) l l'' := by
  obtain ⟨made, hmade, rfl, hwithin⟩ := h
  obtain ⟨more, hmore, rfl, hwithin'⟩ := h'
  refine ⟨made ++ more, ?_, List.map_append, fun s hs => ?_⟩
  · rw [hmore, hmade, List.append_assoc]
  · exact (List.mem_append.1 hs).elim (hwithin s) (hwithin' s)

theorem Solves.rests (h : Solves a l l') (h' : Solves [] l' l'') : Solves a l l'' := by
  have hall := h.trans h'
  rwa [List.append_nil] at hall

end Ledger

namespace Counted

variable {m : Counted K α} {f : α → Counted K β} {a b : List (Nat × Int)}

/-- A computation that comes to its end has put solves with these allowances on record. -/
def Solves (allowances : List (Nat × Int)) (m : Counted K α) : Prop :=
  ∀ l x l', Returns m l x l' → Ledger.Solves allowances l l'

theorem solves_pure {x : α} : Solves [] (pure x : Counted K α) := by
  intro l y l' h
  obtain ⟨-, rfl⟩ := returns_pure.1 h
  exact .refl

theorem solves_throw {fault : Fault} : Solves a (throw fault : Counted K α) :=
  fun _ _ _ h => absurd h not_returns_throw

theorem solves_except {e : Except Fault α} : Solves [] (liftM e : Counted K α) := by
  intro l x l' h
  obtain ⟨-, rfl⟩ := returns_except.1 h
  exact .refl

theorem solves_get : Solves [] (get : Counted K (Ledger K)) := by
  intro l x l' h
  obtain ⟨-, rfl⟩ := returns_get.1 h
  exact .refl

theorem solves_modify {g : Ledger K → Ledger K} (h : ∀ l, (g l).solves = l.solves) :
    Solves [] (modify g : Counted K Unit) := by
  intro l u l' hreturns
  rw [returns_modify.1 hreturns]
  exact .of_eq (h l)

theorem solves_modifyGet {g : Ledger K → α × Ledger K} (h : ∀ l, (g l).2.solves = l.solves) :
    Solves [] (modifyGet g : Counted K α) := by
  intro l x l' hreturns
  have hl := h l
  rw [returns_modifyGet.1 hreturns] at hl
  exact .of_eq hl

theorem Solves.bind (hm : Solves a m) (hf : ∀ x, Solves b (f x)) : Solves (a ++ b) (m >>= f) := by
  intro l y l' h
  obtain ⟨x, l₁, hx, hy⟩ := returns_bind.1 h
  exact (hm _ _ _ hx).trans (hf x _ _ _ hy)

theorem Solves.then (hm : Solves [] m) (hf : ∀ x, Solves a (f x)) : Solves a (m >>= f) :=
  hm.bind hf

theorem Solves.last (hm : Solves a m) (hf : ∀ x, Solves [] (f x)) : Solves a (m >>= f) := by
  intro l y l' h
  obtain ⟨x, l₁, hx, hy⟩ := returns_bind.1 h
  exact (hm _ _ _ hx).rests (hf x _ _ _ hy)

theorem Solves.ite {p : Prop} [Decidable p] {m n : Counted K α} (hm : Solves a m)
    (hn : Solves a n) : Solves a (if p then m else n) := by
  split
  · exact hm
  · exact hn

theorem solves_count {change : Counters → Counters} :
    Solves [] (Counted.count (K := K) change) := solves_modify fun _ => rfl

theorem solves_counters : Solves [] (Counted.counters (K := K)) :=
  solves_get.then fun _ => solves_pure

end Counted

open Counted (Solves solves_pure solves_throw solves_except solves_modify solves_modifyGet
  solves_count solves_counters)

namespace LeastSquares

variable [Scalar K] {A : Operator K} {b : Vec K} {tolerances : Tolerances K}

theorem iterate_steps_le {limit : Int} {norm : K} {allowance : Nat} {s : Recurrence K} :
    (iterate A tolerances limit norm allowance s).1.steps ≤ s.steps + allowance := by
  induction allowance generalizing s with
  | zero => exact Nat.le_refl _
  | succ allowance ih =>
    have hsteps : (step A tolerances limit norm s).1.steps = s.steps + 1 := rfl
    unfold iterate
    split
    · rename_i next ending hstep
      rw [hstep] at hsteps
      simp only at hsteps ⊢
      omega
    · rename_i next hstep
      rw [hstep] at hsteps
      have hrest := ih (s := next)
      simp only at hsteps
      omega

theorem run_steps_le {limit : Int} : (run A b tolerances limit).1.steps ≤ limit.toNat := by
  have hstart : (start A b).steps = 0 := rfl
  unfold run
  simp only
  split
  · rw [hstart]
    exact Nat.zero_le _
  · have hrun : (iterate A tolerances limit (start A b).phiBar limit.toNat (start A b)).1.steps ≤
        (start A b).steps + limit.toNat := iterate_steps_le
    rwa [hstart, Nat.zero_add] at hrun

theorem record_of_solve {limit? : Option Int} {s : Solution K}
    (h : solve A b tolerances limit? = .ok s) :
    s.record.allowance = (A.columnCount, limit?.getD (standardLimit A.columnCount)) ∧
      s.record.iterations ≤ s.record.limit.toNat := by
  unfold solve at h
  split at h
  · split at h
    · cases h
      exact ⟨rfl, run_steps_le⟩
    · cases h
      exact ⟨rfl, Nat.zero_le _⟩
  · cases h

theorem standardLimit_of_pos {columns : Nat} (h : columns ≠ 0) :
    standardLimit columns = 2 * columns := by
  have hmax : Nat.max columns 1 = columns := Nat.max_eq_left (Nat.one_le_iff_ne_zero.2 h)
  rw [standardLimit, hmax]

end LeastSquares

/-- What is allowed without a limit from the settings: twice as many steps as there are columns. -/
def standardAllowance (columns : Nat) : Nat × Int := (columns, 2 * columns)

section

variable [Scalar K] {p : Problem K} {b : Budget K} {settings : Settings K}

/-- What a multiplier estimate is allowed on a problem with so many constraints. -/
def Settings.estimateAllowance (settings : Settings K) (rows : Nat) : Nat × Int :=
  (rows, settings.leastSquaresLimit.getD (2 * rows))

theorem Counted.solves_pass {seconds : K} : Solves [] (Counted.pass seconds) :=
  solves_modify fun _ => rfl

namespace Budget

omit [Scalar K] in
theorem evaluations_solves : Solves [] (evaluations (K := K)) :=
  solves_counters.then fun _ => solves_pure

theorem elapsed_solves : Solves [] b.elapsed :=
  Solves.then (solves_modifyGet fun _ => rfl) fun _ => solves_pure

theorem exhausted_solves : Solves [] b.exhausted := by
  have hcheck : Solves [] b.check := evaluations_solves.then fun _ =>
    Solves.ite solves_pure (elapsed_solves.then fun _ => solves_pure)
  exact hcheck.then fun _ => Solves.then (solves_modify fun _ => rfl) fun _ => solves_pure

end Budget

namespace Problem

variable {x y : Vec K}

theorem objectiveAt_solves : Solves [] (p.objectiveAt x) :=
  solves_count.then fun _ => Counted.solves_pass.then fun _ => solves_except

omit [Scalar K] in
theorem gradientAt_solves : Solves [] (p.gradientAt x) :=
  solves_count.then fun _ => solves_except

theorem constraintsAt_solves : Solves [] (p.constraintsAt x) :=
  solves_count.then fun _ => Counted.solves_pass.then fun _ => solves_except

omit [Scalar K] in
theorem jacobianValuesAt_solves : Solves [] (p.jacobianValuesAt x) :=
  solves_count.then fun _ => solves_except

omit [Scalar K] in
theorem hessianValuesAt_solves {weight : K} : Solves [] (p.hessianValuesAt x y weight) :=
  solves_count.then fun _ => solves_except

theorem jacobianAt_solves : Solves [] (p.jacobianAt x) :=
  jacobianValuesAt_solves.then fun _ => solves_except.then fun _ => solves_except

/-- The matrix is the Jacobian of the problem at some point. -/
def HasJacobian (p : Problem K) (J : SparseMatrix K) : Prop := ∃ x, p.jacobian x = .ok J

theorem HasJacobian.shape {J : SparseMatrix K} (h : p.HasJacobian J) :
    p.rowCount = .ok J.rowCount ∧ J.columnCount = p.variableCount := by
  obtain ⟨x, hx⟩ := h
  simp only [jacobian, Counted.except_bind_eq_ok, SparseMatrix.ofCoordinates] at hx
  obtain ⟨values, -, rows, hrows, hJ⟩ := hx
  split at hJ
  · cases hJ
    exact ⟨hrows, rfl⟩
  · cases hJ

end Problem

namespace SparseMatrix

open LeastSquares (standardLimit)

variable {J : SparseMatrix K} {v : Vec K} {tolerances : LeastSquares.Tolerances K}
  {limit? : Option Int}

theorem product_solves : Solves [] (J.product v) :=
  Solves.ite (solves_count.then fun _ => solves_pure) solves_throw

theorem transposedProduct_solves : Solves [] (J.transposedProduct v) :=
  Solves.ite (solves_count.then fun _ => solves_pure) solves_throw

theorem leastSquares_solves : Solves [(J.columnCount, limit?.getD (standardLimit J.columnCount))]
    (J.leastSquares v (.recurrence tolerances limit?)) := by
  intro l s l' h
  simp only [leastSquares, Counted.count, Counted.recordSolve, Counted.returns_bind,
    Counted.returns_modify, Counted.returns_pure, Counted.returns_except] at h
  obtain ⟨s, _, ⟨hs, rfl⟩, _, _, rfl, _, _, rfl, -, rfl⟩ := h
  obtain ⟨hallowance, hwithin⟩ := LeastSquares.record_of_solve hs
  exact ⟨[s.record], rfl, congrArg (fun a => [a]) hallowance, by simpa using hwithin⟩

theorem transposedLeastSquares_solves :
    Solves [(J.rowCount, limit?.getD (standardLimit J.rowCount))]
      (J.transposedLeastSquares v tolerances limit?) := by
  intro l s l' h
  simp only [transposedLeastSquares, Counted.count, Counted.recordSolve, Counted.returns_bind,
    Counted.returns_modify, Counted.returns_pure, Counted.returns_except] at h
  obtain ⟨s, _, ⟨hs, rfl⟩, _, _, rfl, _, _, rfl, -, rfl⟩ := h
  obtain ⟨hallowance, hwithin⟩ := LeastSquares.record_of_solve hs
  exact ⟨[s.record], rfl, congrArg (fun a => [a]) hallowance, by simpa using hwithin⟩

theorem projectOntoNullSpace_solves :
    Solves [(J.rowCount, limit?.getD (standardLimit J.rowCount))]
      (J.projectOntoNullSpace v tolerances limit?) :=
  transposedLeastSquares_solves.last fun _ =>
    transposedProduct_solves.then fun _ => solves_except

end SparseMatrix

theorem Settings.estimate_solves {J : SparseMatrix K} {g : Vec K} (hrows : J.rowCount ≠ 0) :
    Solves [settings.estimateAllowance J.rowCount] (settings.estimate J g) := by
  rw [estimateAllowance, ← LeastSquares.standardLimit_of_pos hrows]
  exact Solves.ite (SparseMatrix.transposedLeastSquares_solves.last fun _ =>
    SparseMatrix.transposedProduct_solves.then fun _ => solves_except.then fun _ => solves_pure)
    solves_throw

namespace NormalState

variable {options : NormalOptions K} {radius : K} {s s' : NormalState K} {g Jg : Vec K}

theorem examine_solves : Solves [] (s.examine options b radius) := by
  refine Solves.ite solves_pure ((Budget.exhausted_solves (b := b)).then fun t => ?_)
  cases t with
  | some limit => exact solves_pure
  | none =>
    refine SparseMatrix.transposedProduct_solves.then fun g =>
      Solves.ite solves_pure (SparseMatrix.product_solves.then fun Jg => ?_)
    have hregion : Solves [] (if s.trustRadius < options.minTrustRadius then
        pure (.inl .infeasible) else pure (.inr (g, Jg)) :
          Counted K (NormalStatus ⊕ Vec K × Vec K)) := Solves.ite solves_pure solves_pure
    exact Solves.ite (solves_except.then fun _ => Solves.ite solves_pure hregion) hregion

theorem attempt_solves :
    Solves [(s.jacobian.columnCount, LeastSquares.standardLimit s.jacobian.columnCount)]
      (s.attempt options.solver p options g Jg) :=
  SparseMatrix.leastSquares_solves.last fun _ => solves_except.then fun _ =>
    solves_except.then fun _ => SparseMatrix.product_solves.then fun _ =>
    solves_except.then fun _ => solves_except.then fun _ => solves_except.then fun _ =>
    Budget.evaluations_solves.then fun _ => Problem.constraintsAt_solves.then fun _ =>
    solves_except.then fun _ =>
      Solves.ite (Problem.jacobianAt_solves.then fun _ => solves_pure) solves_pure

theorem conclude_solves : Solves [] (s.conclude b radius) := by
  refine Solves.ite solves_pure ((Budget.exhausted_solves (b := b)).then fun t => ?_)
  cases t <;> exact solves_pure

theorem attempt_hasJacobian {l l' : Ledger K}
    (h : Returns (s.attempt options.solver p options g Jg) l s' l')
    (hJ : p.HasJacobian s.jacobian) : p.HasJacobian s'.jacobian := by
  obtain ⟨t, -, -, ⟨-, haccepts⟩ | ⟨-, hrejects⟩⟩ := attempt_returns h
  · exact ⟨_, haccepts.jacobian⟩
  · rwa [hrejects.jacobian]

theorem iterate_solves {passes made : Nat} {last : NormalState K} {status : NormalStatus}
    {count : Int} {l l' : Ledger K}
    (h : Returns (iterate options.solver p options b radius passes made s) l
      (last, status, count) l')
    (hJ : p.HasJacobian s.jacobian) :
    ∃ trials, last.trials = s.trials ++ trials ∧ p.HasJacobian last.jacobian ∧
      l.Solves (trials.map fun _ => standardAllowance p.variableCount) l' ∧
      (trials ≠ [] → p.variableCount ≠ 0) := by
  replace h := runs_of_iterate h
  induction h with
  | concluded concluding =>
    exact ⟨[], (List.append_nil _).symm, hJ, conclude_solves _ _ _ concluding,
      fun hnone => absurd rfl hnone⟩
  | ended ending =>
    exact ⟨[], (List.append_nil _).symm, hJ, examine_solves _ _ _ ending,
      fun hnone => absurd rfl hnone⟩
  | @tried _ _ _ _ _ g _ _ _ _ _ _ _ aiming trying later ih =>
    have haims := examine_aims aiming
    -- A gradient that does not vanish has a coordinate.
    have hcolumns : p.variableCount ≠ 0 := by
      intro hzero
      have hnil : g = [] := List.length_eq_zero_iff.1
        (haims.gradient_length.trans (hJ.shape.2.trans hzero))
      have hnonzero := haims.gradient_nonzero
      rw [hnil] at hnonzero
      cases hnonzero
    have hsolve := attempt_solves _ _ _ trying
    rw [hJ.shape.2, LeastSquares.standardLimit_of_pos hcolumns] at hsolve
    obtain ⟨t, htrial, -⟩ := attempt_makes trying
    obtain ⟨trials, hlast, hJlast, hsolves, -⟩ := ih (attempt_hasJacobian trying hJ)
    refine ⟨t :: trials, ?_, hJlast, ((examine_solves _ _ _ aiming).trans hsolve).trans hsolves,
      fun _ => hcolumns⟩
    rw [hlast, htrial, List.append_assoc, List.singleton_append]

end NormalState

theorem normalStep_solves {options : NormalOptions K} {start c : Vec K} {J : SparseMatrix K}
    {rho bound relativeDual floor : K} {o : NormalOutcome K} {l l' : Ledger K}
    (h : Returns (normalStep p options b start c (some J) rho bound relativeDual floor) l o l')
    (hJ : p.HasJacobian J) :
    l.Solves (o.trials.map fun _ => standardAllowance p.variableCount) l' ∧
      p.HasJacobian o.jacobian := by
  obtain ⟨last, status, count, hpasses, rfl⟩ := normalStep_passes_known h
  obtain ⟨trials, htrials, hlast, hsolves, -⟩ := NormalState.iterate_solves hpasses hJ
  rw [List.nil_append] at htrials
  subst htrials
  exact ⟨hsolves, hlast⟩

namespace KktSystem

variable {kkt : KktSystem K}

theorem refresh_solves {x y : Vec K} {gamma delta : K} {kkt' : KktSystem K} {l l' : Ledger K}
    (h : ((kkt.refresh p x y gamma delta).run l).run = ((kkt', .ok ()), l')) :
    l.Solves [] l' := by
  obtain ⟨half, full, l₁, hhalf, hfull, -⟩ := refresh_ok_iff.1 h
  have hhessian : Solves [] (kkt.refreshHessian p x y) :=
    Problem.hessianValuesAt_solves.then fun _ => solves_except.then fun _ => solves_pure
  have hjacobian : Solves [] (half.refreshJacobian p x) :=
    Problem.jacobianValuesAt_solves.then fun _ => solves_except.then fun _ => solves_pure
  exact (hhessian _ _ _ hhalf).trans (hjacobian _ _ _ hfull)

theorem searchDirection_solves {gradient d : Vec K} {J : SparseMatrix K} {kind : DirectionKind}
    {tolerances : LeastSquares.Tolerances K} {l l' : Ledger K}
    (h : Returns (kkt.searchDirection gradient J tolerances) l (d, kind) l')
    (hrows : J.rowCount ≠ 0) :
    l.Solves (if kind = .projectedGradient then [standardAllowance J.rowCount] else []) l' := by
  obtain ⟨-, rfl, rfl⟩ | ⟨-, rfl, t, ht, -⟩ := searchDirection_cases h
  · exact .refl
  · have hsolve := SparseMatrix.projectOntoNullSpace_solves _ _ _ ht
    rwa [Option.getD_none, LeastSquares.standardLimit_of_pos hrows] at hsolve

end KktSystem

namespace LineSearch

variable {line : LineSearch K}

theorem evaluate_solves {stepSize : K} : Solves [] (line.evaluate p stepSize) :=
  solves_except.then fun _ => Budget.evaluations_solves.then fun _ =>
    Problem.objectiveAt_solves.then fun _ => Problem.constraintsAt_solves.then fun _ =>
    solves_except.then fun _ => solves_pure

theorem iterate_solves {remaining : Nat} {stepSize : K} {trials : List (LineTrial K)} :
    Solves [] (iterate p b line remaining stepSize trials) := by
  induction remaining generalizing stepSize trials with
  | zero => exact solves_pure
  | succ remaining ih =>
    refine Budget.exhausted_solves.then fun t => ?_
    cases t with
    | some limit => exact solves_pure
    | none =>
      exact evaluate_solves.then fun _ =>
        Solves.ite solves_pure (Solves.ite solves_pure ih)

end LineSearch

theorem tangentStep_solves {kkt : KktSystem K} {options : TangentOptions K}
    {origin multipliers gradient : Vec K} {J : SparseMatrix K} {merit radius : K}
    {o : TangentOutcome K} {l l' : Ledger K}
    (h : Returns (tangentStep p kkt options b origin multipliers gradient J merit radius) l o l')
    (hrows : J.rowCount ≠ 0) :
    l.Solves (if o.direction = .projectedGradient then [standardAllowance J.rowCount] else [])
      l' := by
  obtain ⟨d, kind, slope, l₁, hd, -, hcases⟩ := tangentStep_cases h
  have hsolve := KktSystem.searchDirection_solves hd hrows
  obtain ⟨ending, -, rfl, rfl⟩ | ⟨-, ending, trials, hsearch, hends⟩ := hcases
  · exact hsolve
  · have hsolve := hsolve.rests (LineSearch.iterate_solves _ _ _ hsearch)
    cases hends with
    | moves trial earlier => exact hsolve
    | stays fruitless => exact hsolve

namespace Iterate

variable {s : Iterate K}

theorem readLagrangianGradient_solves : Solves [] s.readLagrangianGradient := by
  unfold readLagrangianGradient
  split
  · exact solves_pure
  · exact SparseMatrix.transposedProduct_solves.then fun _ =>
      solves_except.then fun _ => solves_pure

theorem readDualNorm_solves : Solves [] s.readDualNorm :=
  readLagrangianGradient_solves.then fun _ => solves_pure

theorem report_solves {stage status : String} {iteration : Int} :
    Solves [] (s.report b stage iteration status) :=
  Budget.evaluations_solves.then fun _ => readDualNorm_solves.then fun _ =>
    Budget.elapsed_solves.then fun _ =>
      Solves.then (solves_modify fun _ => rfl) fun _ => solves_pure

theorem normalStep_solves {primalTolerance dualTolerance : K} {o : NormalOutcome K}
    {s' : Iterate K} {l l' : Ledger K}
    (h : Returns (s.normalStep p settings primalTolerance dualTolerance b) l (o, s') l')
    (hJ : p.HasJacobian s.jacobian) (hs : s.IsCoherent) :
    l.Solves (o.trials.map fun _ => standardAllowance p.variableCount) l' ∧
      p.HasJacobian o.jacobian := by
  simp only [normalStep, Counted.returns_bind, Counted.returns_pure, Prod.mk.injEq] at h
  obtain ⟨⟨d, s₁⟩, l₁, hd, _, _, hnormal, ⟨rfl, -⟩, rfl⟩ := h
  have hread := readDualNorm_solves _ _ _ hd
  obtain ⟨g, -, -, rfl, -⟩ := readDualNorm_returns hd hs
  obtain ⟨hsolves, hlast⟩ := InfeasibilityControl.normalStep_solves hnormal hJ
  exact ⟨hread.trans hsolves, hlast⟩

theorem restoredWith_solves {o : NormalOutcome K} {x : K × Vec K}
    (hrows : o.jacobian.rowCount ≠ 0) :
    Solves [settings.estimateAllowance o.jacobian.rowCount] (s.restoredWith settings o x) :=
  (Settings.estimate_solves hrows).last fun _ => solves_pure

theorem restored_solves {o : NormalOutcome K} (hrows : o.jacobian.rowCount ≠ 0) :
    Solves [settings.estimateAllowance o.jacobian.rowCount] (s.restored p settings o) :=
  Solves.ite (solves_pure.then fun _ => restoredWith_solves hrows)
    (Problem.objectiveAt_solves.then fun _ => Problem.gradientAt_solves.then fun _ =>
      solves_pure.then fun _ => restoredWith_solves hrows)

end Iterate

namespace Problem

variable {x : Vec K} {radius : K} {iteration : Int}

theorem evaluate_solves_known {multipliers : Vec K} :
    Solves [] (p.evaluate settings x radius iteration (some multipliers)) :=
  objectiveAt_solves.then fun _ => constraintsAt_solves.then fun _ =>
    gradientAt_solves.then fun _ => jacobianAt_solves.then fun _ =>
      solves_pure.then fun _ => solves_pure

theorem evaluate_solves {s : Iterate K} {rows : Nat} {l l' : Ledger K}
    (h : Returns (p.evaluate settings x radius iteration none) l s l')
    (hshape : p.rowCount = .ok rows) (hrows : rows ≠ 0) :
    l.Solves [settings.estimateAllowance rows] l' := by
  simp only [evaluate, Counted.returns_bind, Counted.returns_pure] at h
  obtain ⟨_, _, hf, _, _, hc, _, _, hg, J, _, hJ, _, _, hestimate, _, _, ⟨-, rfl⟩, -, rfl⟩ := h
  have hmatrix : p.HasJacobian J := ⟨x, (jacobianAt_returns hJ).1⟩
  obtain rfl : J.rowCount = rows := Except.ok.inj (hmatrix.shape.1.symm.trans hshape)
  exact ((((objectiveAt_solves _ _ _ hf).trans (constraintsAt_solves _ _ _ hc)).trans
    (gradientAt_solves _ _ _ hg)).trans (jacobianAt_solves _ _ _ hJ)).trans
      (Settings.estimate_solves hrows _ _ _ hestimate)

end Problem

end

end InfeasibilityControl
