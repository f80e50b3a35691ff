import InfeasibilityControl.Proofs.Spending
import InfeasibilityControl.Solver.Stages

set_option autoImplicit false
set_option relaxedAutoImplicit false

/-!
What the counted evaluators, products and inner solves return, and what they spend.

Each evaluator returns what the problem itself gives at the point and spends one evaluation of its
part. Products and inner solves spend none.
-/

namespace InfeasibilityControl

open Counted (Returns)
open Ledger (Spends Rests Quiet)

variable {K : Type} [Scalar K] {l l' : Ledger K}

namespace Problem

variable {p : Problem K}

/-- The Jacobian of a problem at a point. -/
def jacobian (p : Problem K) (x : Vec K) : Except Fault (SparseMatrix K) := do
  let values ← p.jacobianValues x
  SparseMatrix.ofCoordinates (← p.rowCount) p.variableCount p.jacobianPattern values

theorem objectiveAt_returns {x : Vec K} {f : K} (h : Returns (p.objectiveAt x) l f l') :
    p.objective x = .ok f ∧ Spends p.evaluationTime ⟨1, 0, 0, 0, 0⟩ l l' := by
  simp only [objectiveAt, Counted.count, Counted.pass, Counted.returns_bind,
    Counted.returns_modify, Counted.returns_except] at h
  obtain ⟨_, _, rfl, _, _, rfl, hf, rfl⟩ := h
  exact ⟨hf, rfl, rfl, rfl, rfl, rfl, rfl, rfl, Nat.le_refl _⟩

theorem gradientAt_returns {x g : Vec K} (h : Returns (p.gradientAt x) l g l') :
    p.gradient x = .ok g ∧ Spends p.evaluationTime ⟨0, 1, 0, 0, 0⟩ l l' := by
  simp only [gradientAt, Counted.count, Counted.returns_bind, Counted.returns_modify,
    Counted.returns_except] at h
  obtain ⟨_, _, rfl, hg, rfl⟩ := h
  exact ⟨hg, rfl, rfl, rfl, rfl, rfl, rfl, rfl, Nat.le_refl _⟩

theorem constraintsAt_returns {x c : Vec K} (h : Returns (p.constraintsAt x) l c l') :
    p.constraints x = .ok c ∧ Spends p.evaluationTime ⟨0, 0, 1, 0, 0⟩ l l' := by
  simp only [constraintsAt, Counted.count, Counted.pass, Counted.returns_bind,
    Counted.returns_modify, Counted.returns_except] at h
  obtain ⟨_, _, rfl, _, _, rfl, hc, rfl⟩ := h
  exact ⟨hc, rfl, rfl, rfl, rfl, rfl, rfl, rfl, Nat.le_refl _⟩

theorem jacobianValuesAt_returns {x values : Vec K}
    (h : Returns (p.jacobianValuesAt x) l values l') :
    p.jacobianValues x = .ok values ∧ Spends p.evaluationTime ⟨0, 0, 0, 1, 0⟩ l l' := by
  simp only [jacobianValuesAt, Counted.count, Counted.returns_bind, Counted.returns_modify,
    Counted.returns_except] at h
  obtain ⟨_, _, rfl, hv, rfl⟩ := h
  exact ⟨hv, rfl, rfl, rfl, rfl, rfl, rfl, rfl, Nat.le_refl _⟩

theorem hessianValuesAt_returns {x y values : Vec K} {weight : K}
    (h : Returns (p.hessianValuesAt x y weight) l values l') :
    p.hessianValues x y weight = .ok values ∧
      Spends p.evaluationTime ⟨0, 0, 0, 0, 1⟩ l l' := by
  simp only [hessianValuesAt, Counted.count, Counted.returns_bind, Counted.returns_modify,
    Counted.returns_except] at h
  obtain ⟨_, _, rfl, hv, rfl⟩ := h
  exact ⟨hv, rfl, rfl, rfl, rfl, rfl, rfl, rfl, Nat.le_refl _⟩

theorem jacobianAt_returns {x : Vec K} {J : SparseMatrix K} (h : Returns (p.jacobianAt x) l J l') :
    p.jacobian x = .ok J ∧ Spends p.evaluationTime ⟨0, 0, 0, 1, 0⟩ l l' := by
  simp only [jacobianAt, Counted.returns_bind, Counted.returns_except] at h
  obtain ⟨values, _, hv, rows, _, ⟨hrows, rfl⟩, hJ, rfl⟩ := h
  obtain ⟨hv, hs⟩ := jacobianValuesAt_returns hv
  refine ⟨?_, hs⟩
  simpa [jacobian, hv, hrows, bind, Except.bind] using hJ

theorem jacobianAt_always {x : Vec K} {J : SparseMatrix K} (h : p.jacobian x = .ok J) :
    Counted.Always (p.jacobianAt x) J := by
  intro l
  simp only [jacobian, Counted.except_bind_eq_ok] at h
  obtain ⟨values, hvalues, rows, hrows, hJ⟩ := h
  simp only [jacobianAt, jacobianValuesAt, Counted.count, Counted.returns_bind,
    Counted.returns_modify, Counted.returns_except]
  exact ⟨_, values, _, ⟨(), _, rfl, hvalues, rfl⟩, rows, _, ⟨hrows, rfl⟩, hJ, rfl⟩

omit [Scalar K] in
theorem hessianValuesAt_always {x y values : Vec K} {weight : K}
    (h : p.hessianValues x y weight = .ok values) :
    Counted.Always (p.hessianValuesAt x y weight) values := by
  intro l
  simp only [hessianValuesAt, Counted.count, Counted.returns_bind, Counted.returns_modify,
    Counted.returns_except]
  exact ⟨_, (), _, rfl, h, rfl⟩

end Problem

namespace SparseMatrix

variable {J : SparseMatrix K} {v w : Vec K}

theorem product_returns (h : Returns (J.product v) l w l') : w = J.apply v ∧ Quiet l l' := by
  simp only [product, Counted.count, Counted.returns_ite, Counted.returns_bind,
    Counted.returns_modify, Counted.returns_pure, Counted.not_returns_throw, and_false,
    or_false] at h
  obtain ⟨-, _, _, rfl, rfl, rfl⟩ := h
  exact ⟨rfl, ⟨rfl, rfl, rfl, rfl, rfl, rfl, rfl, Nat.le_refl _⟩, rfl⟩

theorem transposedProduct_returns (h : Returns (J.transposedProduct v) l w l') :
    (v.length = J.rowCount ∧ w = J.applyTransposed v) ∧ Quiet l l' := by
  simp only [transposedProduct, Counted.count, Counted.returns_ite, Counted.returns_bind,
    Counted.returns_modify, Counted.returns_pure, Counted.not_returns_throw, and_false,
    or_false] at h
  obtain ⟨hlength, _, _, rfl, rfl, rfl⟩ := h
  exact ⟨⟨hlength, rfl⟩, ⟨rfl, rfl, rfl, rfl, rfl, rfl, rfl, Nat.le_refl _⟩, rfl⟩

theorem transposedProduct_isBlind : Counted.IsBlind (J.transposedProduct v) :=
  Counted.isBlind_ite (Counted.isBlind_bind Counted.isBlind_modify fun _ => Counted.isBlind_pure)
    Counted.isBlind_throw

variable {tolerances : LeastSquares.Tolerances K} {limit? : Option Int}
  {s : LeastSquares.Solution K}

theorem leastSquares_returns {solver : LeastSquares.Solver K}
    (h : Returns (J.leastSquares v solver) l s l') :
    solver J.operator v = .ok s ∧ Quiet l l' := by
  simp only [leastSquares, Counted.count, Counted.recordSolve, Counted.returns_bind,
    Counted.returns_modify, Counted.returns_pure, Counted.returns_except] at h
  obtain ⟨_, _, ⟨hs, rfl⟩, _, _, rfl, _, _, rfl, rfl, rfl⟩ := h
  exact ⟨hs, ⟨rfl, rfl, rfl, rfl, rfl, rfl, rfl, Nat.le_refl _⟩, rfl⟩

theorem transposedLeastSquares_returns
    (h : Returns (J.transposedLeastSquares v tolerances limit?) l s l') :
    LeastSquares.solve J.operator.transpose v tolerances limit? = .ok s ∧ Quiet l l' := by
  simp only [transposedLeastSquares, Counted.count, Counted.recordSolve, Counted.returns_bind,
    Counted.returns_modify, Counted.returns_pure, Counted.returns_except] at h
  obtain ⟨_, _, ⟨hs, rfl⟩, _, _, rfl, _, _, rfl, rfl, rfl⟩ := h
  exact ⟨hs, ⟨rfl, rfl, rfl, rfl, rfl, rfl, rfl, Nat.le_refl _⟩, rfl⟩

theorem transposedLeastSquares_isBlind :
    Counted.IsBlind (J.transposedLeastSquares v tolerances limit?) :=
  Counted.isBlind_bind Counted.isBlind_except fun _ =>
    Counted.isBlind_bind Counted.isBlind_modify fun _ =>
      Counted.isBlind_bind Counted.isBlind_modify fun _ => Counted.isBlind_pure

theorem projectOntoNullSpace_isBlind :
    Counted.IsBlind (J.projectOntoNullSpace v tolerances limit?) :=
  Counted.isBlind_bind transposedLeastSquares_isBlind fun _ =>
    Counted.isBlind_bind transposedProduct_isBlind fun _ => Counted.isBlind_except

theorem projectOntoNullSpace_quiet
    (h : Returns (J.projectOntoNullSpace v tolerances limit?) l w l') : Quiet l l' := by
  simp only [projectOntoNullSpace, Counted.returns_bind, Counted.returns_except] at h
  obtain ⟨_, _, hs, _, _, hw, _, rfl⟩ := h
  exact (transposedLeastSquares_returns hs).2.trans (transposedProduct_returns hw).2

end SparseMatrix

namespace KktSystem

variable {p : Problem K} {kkt kkt' : KktSystem K} {x y : Vec K} {gamma delta : K}

theorem refresh_ok_iff :
    ((kkt.refresh p x y gamma delta).run l).run = ((kkt', .ok ()), l') ↔
      ∃ half full l₁, Returns (kkt.refreshHessian p x y) l half l₁ ∧
        Returns (half.refreshJacobian p x) l₁ full l' ∧ kkt' = { full with gamma, delta } := by
  simp only [refresh, StateT.run_bind, Id.run_bind, Returns]
  rcases ((kkt.refreshHessian p x y).run.run l).run with ⟨half?, l₁⟩
  cases half? with
  | error fault => simp
  | ok half =>
    simp only [StateT.run_bind, Id.run_bind, Prod.mk.injEq, Except.ok.injEq]
    constructor
    · intro h
      rcases hfull : ((half.refreshJacobian p x).run.run l₁).run with ⟨full?, l₂⟩
      rw [hfull] at h
      cases full? with
      | error fault => simp at h
      | ok full =>
        simp only [StateT.run_pure, Id.run_pure, Prod.mk.injEq, and_true] at h
        obtain ⟨rfl, rfl⟩ := h
        exact ⟨half, full, l₁, ⟨rfl, rfl⟩, hfull, rfl⟩
    · rintro ⟨_, full, _, ⟨rfl, rfl⟩, hfull, rfl⟩
      rw [hfull]
      simp

theorem refresh_spends (h : ((kkt.refresh p x y gamma delta).run l).run = ((kkt', .ok ()), l')) :
    Spends p.evaluationTime ⟨0, 0, 0, 1, 1⟩ l l' := by
  obtain ⟨half, full, l₁, hhalf, hfull, -⟩ := refresh_ok_iff.1 h
  simp only [refreshHessian, refreshJacobian, Counted.returns_bind, Counted.returns_pure,
    Counted.returns_except] at hhalf hfull
  obtain ⟨_, _, hH, _, _, ⟨-, rfl⟩, rfl, rfl⟩ := hhalf
  obtain ⟨_, _, hJ, _, _, ⟨-, rfl⟩, rfl, rfl⟩ := hfull
  exact (Problem.hessianValuesAt_returns hH).2.trans (Problem.jacobianValuesAt_returns hJ).2

/-- The system that holds the Hessian and the Jacobian at a point. -/
def loaded (kkt : KktSystem K) (p : Problem K) (x y : Vec K) (gamma delta : K) :
    Except Fault (KktSystem K) := do
  let hessian ← p.hessianValues x y 1
  let hessianValues ← fill kkt.hessianPattern.length hessian
  let jacobian ← p.jacobianValues x
  let jacobianValues ← fill kkt.jacobianPattern.length jacobian
  return { kkt with hessianValues, jacobianValues, gamma, delta }

theorem loaded_eq_ok_iff :
    kkt.loaded p x y gamma delta = .ok kkt' ↔ ∃ hessian hessianValues jacobian jacobianValues,
      p.hessianValues x y 1 = .ok hessian ∧
      fill kkt.hessianPattern.length hessian = .ok hessianValues ∧
      p.jacobianValues x = .ok jacobian ∧
      fill kkt.jacobianPattern.length jacobian = .ok jacobianValues ∧
      kkt' = { kkt with hessianValues, jacobianValues, gamma, delta } := by
  simp only [loaded, Counted.except_bind_eq_ok, pure, Except.pure, Except.ok.injEq]
  constructor
  · rintro ⟨hessian, hH, hessianValues, hhessian, jacobian, hJ, jacobianValues, hjacobian, rfl⟩
    exact ⟨hessian, hessianValues, jacobian, jacobianValues, hH, hhessian, hJ, hjacobian, rfl⟩
  · rintro ⟨hessian, hessianValues, jacobian, jacobianValues, hH, hhessian, hJ, hjacobian, rfl⟩
    exact ⟨hessian, hH, hessianValues, hhessian, jacobian, hJ, jacobianValues, hjacobian, rfl⟩

theorem loaded_of_refresh
    (h : ((kkt.refresh p x y gamma delta).run l).run = ((kkt', .ok ()), l')) :
    kkt.loaded p x y gamma delta = .ok kkt' := by
  obtain ⟨half, full, l₁, hhalf, hfull, rfl⟩ := refresh_ok_iff.1 h
  simp only [refreshHessian, refreshJacobian, Counted.returns_bind, Counted.returns_pure,
    Counted.returns_except] at hhalf hfull
  obtain ⟨hessian, _, hH, hessianValues, _, ⟨hhessian, rfl⟩, rfl, rfl⟩ := hhalf
  obtain ⟨jacobian, _, hJ, jacobianValues, _, ⟨hjacobian, rfl⟩, rfl, rfl⟩ := hfull
  exact loaded_eq_ok_iff.2 ⟨hessian, hessianValues, jacobian, jacobianValues,
    (Problem.hessianValuesAt_returns hH).1, hhessian, (Problem.jacobianValuesAt_returns hJ).1,
    hjacobian, rfl⟩

theorem refresh_of_loaded (h : kkt.loaded p x y gamma delta = .ok kkt') (l : Ledger K) :
    ∃ l', ((kkt.refresh p x y gamma delta).run l).run = ((kkt', .ok ()), l') := by
  obtain ⟨hessian, hessianValues, jacobian, jacobianValues, hH, hhessian, hJ, hjacobian, rfl⟩ :=
    loaded_eq_ok_iff.1 h
  have hhalf : ∃ l₁, Returns (kkt.refreshHessian p x y) l { kkt with hessianValues } l₁ := by
    simp only [refreshHessian, Problem.hessianValuesAt, Counted.count, Counted.returns_bind,
      Counted.returns_modify, Counted.returns_except, Counted.returns_pure]
    exact ⟨_, hessian, _, ⟨(), _, rfl, hH, rfl⟩, hessianValues, _, ⟨hhessian, rfl⟩, rfl, rfl⟩
  obtain ⟨l₁, hhalf⟩ := hhalf
  have hfull : ∃ l₂, Returns (({ kkt with hessianValues } : KktSystem K).refreshJacobian p x) l₁
      { kkt with hessianValues, jacobianValues } l₂ := by
    simp only [refreshJacobian, Problem.jacobianValuesAt, Counted.count, Counted.returns_bind,
      Counted.returns_modify, Counted.returns_except, Counted.returns_pure]
    exact ⟨_, jacobian, _, ⟨(), _, rfl, hJ, rfl⟩, jacobianValues, _, ⟨hjacobian, rfl⟩, rfl, rfl⟩
  obtain ⟨l₂, hfull⟩ := hfull
  exact ⟨l₂, refresh_ok_iff.2 ⟨_, _, l₁, hhalf, hfull, rfl⟩⟩

theorem loaded_of_loaded {x' y' : Vec K} {gamma' delta' : K}
    (h : kkt.loaded p x y gamma delta = .ok kkt') :
    kkt'.loaded p x' y' gamma' delta' = kkt.loaded p x' y' gamma' delta' := by
  obtain ⟨hessian, hessianValues, jacobian, jacobianValues, -, -, -, -, rfl⟩ :=
    loaded_eq_ok_iff.1 h
  rfl

end KktSystem

namespace Settings

variable {settings : Settings K}

/-- The multipliers that the least-squares solver finds for a Jacobian and a gradient: its
approximation to the `y` with the least `‖Jᵀ y + g‖`. -/
def leastSquaresMultipliers (settings : Settings K) (J : SparseMatrix K) (g : Vec K) :
    Except Fault (Vec K) :=
  if J.columnCount = g.length then
    (LeastSquares.solve J.operator.transpose (Vec.negate g) settings.tolerances
      settings.leastSquaresLimit).map LeastSquares.Solution.vector
  else .error .gradientLength

/-- The least-squares multipliers of a problem at a point. -/
def multipliersAt (settings : Settings K) (p : Problem K) (x : Vec K) : Except Fault (Vec K) := do
  settings.leastSquaresMultipliers (← p.jacobian x) (← p.gradient x)

theorem estimate_returns {J : SparseMatrix K} {g : Vec K} {e : MultiplierEstimate K}
    (h : Returns (settings.estimate J g) l e l') :
    settings.leastSquaresMultipliers J g = .ok e.multipliers ∧ Quiet l l' := by
  simp only [estimate, estimateMultipliers, Counted.returns_ite, Counted.returns_bind,
    Counted.returns_pure, Counted.returns_except, Counted.not_returns_throw, and_false,
    or_false] at h
  obtain ⟨hlength, s, _, hs, _, _, himage, _, _, ⟨-, rfl⟩, rfl, rfl⟩ := h
  obtain ⟨hs, hquiet⟩ := SparseMatrix.transposedLeastSquares_returns hs
  refine ⟨?_, hquiet.trans (SparseMatrix.transposedProduct_returns himage).2⟩
  simp [leastSquaresMultipliers, hlength, hs, Except.map]

end Settings

end InfeasibilityControl
