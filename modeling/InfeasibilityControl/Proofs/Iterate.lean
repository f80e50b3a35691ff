import InfeasibilityControl.Proofs.Evaluation
import InfeasibilityControl.Solver.Run

set_option autoImplicit false
set_option relaxedAutoImplicit false

/-!
Iterates whose parts belong to their point.

An iterate is exact if its objective, constraints, gradient and Jacobian are what the problem gives
at its point. It is coherent if a gradient of the Lagrangian that it remembers is the one its parts
make, so that reading the dual residual is as good as forming it anew.
-/

namespace InfeasibilityControl

open Counted (Returns)
open Ledger (Spends Rests Quiet)

variable {K : Type} [Scalar K] {l l' : Ledger K} {p : Problem K} {settings : Settings K}

/-- How often the point is evaluated that a step from `u` to `v` ends at: once, unless it compares
equal to the old one. -/
def Vec.moves (u v : Vec K) : Nat := if Vec.coincides v u then 0 else 1

theorem Vec.moves_eq_zero_iff {u v : Vec K} : moves u v = 0 ↔ coincides v u = true := by
  unfold moves
  split <;> simp [*]

theorem Vec.moves_le_one {u v : Vec K} : moves u v ≤ 1 := by
  unfold moves
  split <;> simp

namespace Iterate

variable {s s' : Iterate K} {d : K} {g : Vec K}

/-- The parts of an iterate are what the problem gives at its point. -/
structure IsExact (p : Problem K) (s : Iterate K) : Prop where
  objective : p.objective s.point = .ok s.objective
  constraints : p.constraints s.point = .ok s.constraints
  gradient : p.gradient s.point = .ok s.gradient
  jacobian : p.jacobian s.point = .ok s.jacobian

/-- A remembered gradient of the Lagrangian is the one that the parts of the iterate make. -/
def IsCoherent (s : Iterate K) : Prop :=
  ∀ g, s.lagrangianGradient? = some g → s.freshLagrangianGradient = .ok g

/-- The iterate that remembers a gradient of the Lagrangian, or none. -/
def recalling (s : Iterate K) (g? : Option (Vec K)) : Iterate K :=
  { s with lagrangianGradient? := g? }

/-- Both residuals, formed from the parts of the iterate, are below their tolerances. -/
def Passes (s : Iterate K) (t : RunTolerances K) : Prop :=
  s.primalNorm < t.primal ∧ ∃ d, s.freshDualNorm = .ok d ∧ d < t.dual

theorem IsExact.recalling (h : s.IsExact p) (g? : Option (Vec K)) : (s.recalling g?).IsExact p :=
  ⟨h.objective, h.constraints, h.gradient, h.jacobian⟩

theorem isCoherent_of_none (h : s.lagrangianGradient? = none) : s.IsCoherent := by
  intro g hg
  simp [h] at hg

theorem isCoherent_recalling_some (h : s.freshLagrangianGradient = .ok g) :
    (s.recalling (some g)).IsCoherent := by
  intro g' hg
  cases hg
  exact h

omit [Scalar K] in
theorem recalling_self : s.recalling s.lagrangianGradient? = s := rfl

theorem freshDualNorm_eq (h : s.freshLagrangianGradient = .ok g) :
    s.freshDualNorm = .ok (Vec.norm g) := by
  simp [freshDualNorm, h, Except.map]

theorem readLagrangianGradient_returns (h : Returns s.readLagrangianGradient l (g, s') l')
    (hs : s.IsCoherent) :
    s.freshLagrangianGradient = .ok g ∧ s' = s.recalling (some g) ∧ Quiet l l' := by
  unfold readLagrangianGradient at h
  split at h
  · rename_i known hknown
    simp only [Counted.returns_pure, Prod.mk.injEq] at h
    obtain ⟨⟨rfl, rfl⟩, rfl⟩ := h
    refine ⟨hs g hknown, ?_, .refl⟩
    rw [← hknown, recalling_self]
  · simp only [Counted.returns_bind, Counted.returns_except, Counted.returns_pure,
      Prod.mk.injEq] at h
    obtain ⟨image, _, himage, _, _, ⟨hg, rfl⟩, ⟨rfl, rfl⟩, rfl⟩ := h
    obtain ⟨⟨hlength, rfl⟩, hquiet⟩ := SparseMatrix.transposedProduct_returns himage
    refine ⟨?_, rfl, hquiet⟩
    rw [freshLagrangianGradient, if_pos hlength, hg]

theorem readDualNorm_returns (h : Returns s.readDualNorm l (d, s') l') (hs : s.IsCoherent) :
    ∃ g, s.freshLagrangianGradient = .ok g ∧ d = Vec.norm g ∧ s' = s.recalling (some g) ∧
      Quiet l l' := by
  simp only [readDualNorm, Counted.returns_bind, Counted.returns_pure, Prod.mk.injEq] at h
  obtain ⟨⟨g, s₁⟩, _, hg, ⟨rfl, rfl⟩, rfl⟩ := h
  obtain ⟨hfresh, rfl, hquiet⟩ := readLagrangianGradient_returns hg hs
  exact ⟨g, hfresh, rfl, rfl, hquiet⟩

/-- A row shows an iterate, under the number of an iteration, after so many evaluations. -/
structure IsShownBy (s : Iterate K) (row : ProgressRow K) (stage : String) (iteration : Int)
    (status : String) (evaluations : Nat) : Prop where
  stage : row.stage = stage
  iteration : row.iteration = iteration
  evaluations : row.evaluations = evaluations
  objective : row.objective = s.objective
  dualResidual : s.freshDualNorm = .ok row.dualResidual
  primalResidual : row.primalResidual = s.primalNorm
  radius : row.radius = s.radius
  status : row.status = status

theorem IsShownBy.recalling {row : ProgressRow K} {stage status : String} {iteration : Int}
    {evaluations : Nat} (h : s.IsShownBy row stage iteration status evaluations)
    (g? : Option (Vec K)) :
    (s.recalling g?).IsShownBy row stage iteration status evaluations :=
  ⟨h.stage, h.iteration, h.evaluations, h.objective, h.dualResidual, h.primalResidual, h.radius,
    h.status⟩

theorem report_returns {b : Budget K} {stage status : String} {iteration : Int}
    {row : ProgressRow K} (h : Returns (s.report b stage iteration status) l (row, s') l')
    (hs : s.IsCoherent) :
    ∃ g, s' = s.recalling (some g) ∧ s'.IsCoherent ∧
      s'.IsShownBy row stage iteration status l'.counters.evaluations ∧ Quiet l l' ∧
      ∀ dt, b.Clocked dt row.elapsed l l' := by
  simp only [report, Counted.report, Counted.returns_bind, Counted.returns_pure,
    Counted.returns_modify, Budget.evaluations_returns, Prod.mk.injEq] at h
  obtain ⟨_, _, ⟨rfl, rfl⟩, ⟨d, s₁⟩, l₁, hd, elapsed, l₂, helapsed, _, _, rfl, ⟨rfl, rfl⟩,
    rfl⟩ := h
  obtain ⟨g, hg, rfl, rfl, hquiet⟩ := readDualNorm_returns hd hs
  have hread : Quiet l₁ l₂ := by
    rw [(Budget.elapsed_returns.1 helapsed).2]
    exact Ledger.quiet_afterReading
  have hquiet' := hquiet.trans hread
  refine ⟨g, rfl, isCoherent_recalling_some hg, ?_, hquiet'.trans (Ledger.quiet_rows _),
    fun dt => ?_⟩
  · refine ⟨rfl, rfl, ?_, rfl, freshDualNorm_eq hg, rfl, rfl, rfl⟩
    exact congrArg Nat.cast hquiet'.evaluations.symm
  · exact ((Budget.clocked_of_elapsed helapsed).after hquiet.toRests.spends).trans
      (Ledger.quiet_rows _).toRests.spends

/-- One iterate is at the restored point of a normal step from the other. The objective and its
gradient are those of the old iterate where the points coincide. -/
structure IsRestored (p : Problem K) (settings : Settings K) (s : Iterate K) (o : NormalOutcome K)
    (s' : Iterate K) : Prop where
  point : s'.point = o.point
  constraints : s'.constraints = o.constraints
  jacobian : s'.jacobian = o.jacobian
  radius : s'.radius = o.radius
  iteration : s'.iteration = s.iteration
  multipliers : settings.leastSquaresMultipliers s'.jacobian s'.gradient = .ok s'.multipliers
  kept : Vec.coincides o.point s.point → s'.objective = s.objective ∧ s'.gradient = s.gradient
  evaluated : ¬ Vec.coincides o.point s.point →
    p.objective s'.point = .ok s'.objective ∧ p.gradient s'.point = .ok s'.gradient

/-- One iterate follows on a tangent step from the other. Where the points coincide, what is known
there is kept; elsewhere everything but the multipliers is evaluated. -/
structure IsDescended (p : Problem K) (s : Iterate K) (o : TangentOutcome K) (s' : Iterate K) :
    Prop where
  iteration : s'.iteration = s.iteration + 1
  multipliers : s'.multipliers = s.multipliers
  kept : Vec.coincides o.point s.point → s'.point = s.point ∧ s'.objective = s.objective ∧
    s'.constraints = s.constraints ∧ s'.gradient = s.gradient ∧ s'.jacobian = s.jacobian
  evaluated : ¬ Vec.coincides o.point s.point → s'.point = o.point ∧ s'.IsExact p

theorem IsDescended.recalling {o : TangentOutcome K} (h : s.IsDescended p o s')
    (g? : Option (Vec K)) : s.IsDescended p o (s'.recalling g?) :=
  ⟨h.iteration, h.multipliers, h.kept,
    fun hmoved => ⟨(h.evaluated hmoved).1, (h.evaluated hmoved).2.recalling g?⟩⟩

theorem IsDescended.of_recalling {o : TangentOutcome K} {g? : Option (Vec K)}
    (h : (s.recalling g?).IsDescended p o s') : s.IsDescended p o s' :=
  ⟨h.iteration, h.multipliers, h.kept, h.evaluated⟩

theorem IsRestored.recalling {o : NormalOutcome K} (h : s.IsRestored p settings o s')
    (g? : Option (Vec K)) : s.IsRestored p settings o (s'.recalling g?) :=
  ⟨h.point, h.constraints, h.jacobian, h.radius, h.iteration, h.multipliers, h.kept, h.evaluated⟩

theorem IsRestored.of_recalling {o : NormalOutcome K} {g? : Option (Vec K)}
    (h : (s.recalling g?).IsRestored p settings o s') : s.IsRestored p settings o s' :=
  ⟨h.point, h.constraints, h.jacobian, h.radius, h.iteration, h.multipliers, h.kept, h.evaluated⟩

/-- The iterate at a restored point, once the objective and its gradient are known there. -/
def restoredWith (s : Iterate K) (settings : Settings K) (o : NormalOutcome K) (x : K × Vec K) :
    Counted K (Iterate K) := do
  let estimate ← settings.estimate o.jacobian x.2
  return s.revise {
    point := some o.point
    objective := some x.1
    constraints := some o.constraints
    gradient := some x.2
    jacobian := some o.jacobian
    multipliers := some estimate.multipliers
    radius := some o.radius
    iteration := none }

theorem restored_returns {o : NormalOutcome K} (h : Returns (s.restored p settings o) l s' l') :
    s.IsRestored p settings o s' ∧ s'.lagrangianGradient? = none ∧
      Spends p.evaluationTime
        ⟨Vec.moves s.point o.point, Vec.moves s.point o.point, 0, 0, 0⟩ l l' := by
  simp only [restored, Counted.returns_bind, Counted.returns_ite, Counted.returns_pure,
    Prod.exists, Prod.mk.injEq] at h
  obtain ⟨hsame, _, _, _, ⟨⟨rfl, rfl⟩, rfl⟩, e, _, he, rfl, rfl⟩ |
    ⟨hmoved, f, _, hf, g, _, hg, _, _, _, ⟨⟨rfl, rfl⟩, rfl⟩, e, _, he, rfl, rfl⟩ := h
  · obtain ⟨hy, hquiet⟩ := Settings.estimate_returns he
    refine ⟨⟨rfl, rfl, rfl, rfl, rfl, hy, fun _ => ⟨rfl, rfl⟩, fun hmoved => absurd hsame hmoved⟩,
      rfl, ?_⟩
    rw [Vec.moves, if_pos hsame]
    exact hquiet.toRests.spends
  · obtain ⟨hf, hfspent⟩ := Problem.objectiveAt_returns hf
    obtain ⟨hg, hgspent⟩ := Problem.gradientAt_returns hg
    obtain ⟨hy, hquiet⟩ := Settings.estimate_returns he
    have hspent := (hfspent.trans hgspent).rests hquiet.toRests
    refine ⟨⟨rfl, rfl, rfl, rfl, rfl, hy, fun hsame => absurd hsame hmoved, fun _ => ⟨hf, hg⟩⟩,
      rfl, ?_⟩
    rw [Vec.moves, if_neg hmoved]
    exact hspent

end Iterate

private theorem Problem.evaluations_returns {x : Vec K} {f : K} {c g : Vec K} {J : SparseMatrix K}
    {l₁ l₂ l₃ l₄ : Ledger K} (hf : Returns (p.objectiveAt x) l f l₁)
    (hc : Returns (p.constraintsAt x) l₁ c l₂) (hg : Returns (p.gradientAt x) l₂ g l₃)
    (hJ : Returns (p.jacobianAt x) l₃ J l₄) :
    (p.objective x = .ok f ∧ p.constraints x = .ok c ∧ p.gradient x = .ok g ∧
      p.jacobian x = .ok J) ∧ Spends p.evaluationTime ⟨1, 1, 1, 1, 0⟩ l l₄ := by
  obtain ⟨hf, hfspent⟩ := objectiveAt_returns hf
  obtain ⟨hc, hcspent⟩ := constraintsAt_returns hc
  obtain ⟨hg, hgspent⟩ := gradientAt_returns hg
  obtain ⟨hJ, hJspent⟩ := jacobianAt_returns hJ
  exact ⟨⟨hf, hc, hg, hJ⟩, ((hfspent.trans hcspent).trans hgspent).trans hJspent⟩

theorem Problem.evaluate_returns {x : Vec K} {radius : K} {iteration : Int}
    {multipliers? : Option (Vec K)} {s : Iterate K}
    (h : Returns (p.evaluate settings x radius iteration multipliers?) l s l') :
    s.IsExact p ∧ (s.point = x ∧ s.radius = radius ∧ s.iteration = iteration ∧
        s.lagrangianGradient? = none) ∧
      (∀ y, multipliers? = some y → s.multipliers = y) ∧
      (multipliers? = none → settings.multipliersAt p x = .ok s.multipliers) ∧
      Spends p.evaluationTime ⟨1, 1, 1, 1, 0⟩ l l' := by
  cases multipliers? with
  | some known =>
    simp only [evaluate, Counted.returns_bind, Counted.returns_pure] at h
    obtain ⟨f, _, hf, c, _, hc, g, _, hg, J, _, hJ, _, _, ⟨rfl, rfl⟩, rfl, rfl⟩ := h
    obtain ⟨⟨hf, hc, hg, hJ⟩, hspent⟩ := evaluations_returns hf hc hg hJ
    refine ⟨⟨hf, hc, hg, hJ⟩, ⟨rfl, rfl, rfl, rfl⟩, ?_, ?_, hspent⟩
    · intro y hy
      cases hy
      rfl
    · intro hnone
      cases hnone
  | none =>
    simp only [evaluate, Counted.returns_bind, Counted.returns_pure] at h
    obtain ⟨f, _, hf, c, _, hc, g, _, hg, J, _, hJ, e, _, he, _, _, ⟨rfl, rfl⟩, rfl, rfl⟩ := h
    obtain ⟨⟨hf, hc, hg, hJ⟩, hspent⟩ := evaluations_returns hf hc hg hJ
    obtain ⟨hy, hquiet⟩ := Settings.estimate_returns he
    refine ⟨⟨hf, hc, hg, hJ⟩, ⟨rfl, rfl, rfl, rfl⟩, ?_, ?_, hspent.rests hquiet.toRests⟩
    · intro y hsome
      cases hsome
    · intro _
      simpa [Settings.multipliersAt, hJ, hg, bind, Except.bind] using hy

/-- The gradient of the Lagrangian of a problem, `∇f(x) + J(x)ᵀ y`. -/
def Problem.lagrangianGradient (p : Problem K) (x y : Vec K) : Except Fault (Vec K) := do
  let g ← p.gradient x
  let J ← p.jacobian x
  if y.length = J.rowCount then Vec.add g (J.applyTransposed y) else .error .shapeMismatch

/-- The primal residual of a problem at a point. -/
def Problem.primalNorm (p : Problem K) (x : Vec K) : Except Fault K :=
  (p.constraints x).map Vec.norm

/-- The dual residual of a problem at a point, with the given multipliers. -/
def Problem.dualNorm (p : Problem K) (x y : Vec K) : Except Fault K :=
  (p.lagrangianGradient x y).map Vec.norm

/-- The tolerances of a run from a point: absolute parts plus parts relative to the residuals
there, the dual one with the least-squares multipliers. -/
def Settings.tolerancesAt (settings : Settings K) (p : Problem K) (x : Vec K) :
    Except Fault (RunTolerances K) := do
  let y ← settings.multipliersAt p x
  let primal ← p.primalNorm x
  let dual ← p.dualNorm x y
  return ⟨settings.absolute + settings.relative * primal,
    settings.absolute + settings.relative * dual⟩

theorem Iterate.IsExact.primalNorm {s : Iterate K} (h : s.IsExact p) :
    p.primalNorm s.point = .ok s.primalNorm := by
  simp [Problem.primalNorm, h.constraints, Except.map, Iterate.primalNorm]

theorem Iterate.IsExact.dualNorm {s : Iterate K} (h : s.IsExact p) :
    p.dualNorm s.point s.multipliers = s.freshDualNorm := by
  simp [Problem.dualNorm, Problem.lagrangianGradient, h.gradient, h.jacobian, bind, Except.bind,
    Iterate.freshDualNorm, Iterate.freshLagrangianGradient]

theorem RunState.isSolved_returns {s s' : Iterate K} {t : RunTolerances K} {solved : Bool}
    (h : Returns (isSolved s t) l (solved, s') l') (hs : s.IsCoherent) :
    (solved = true ↔ s.Passes t) ∧ (∃ g?, s' = s.recalling g?) ∧ s'.IsCoherent ∧ Quiet l l' := by
  simp only [isSolved, Counted.returns_ite, Counted.returns_bind, Counted.returns_pure,
    Prod.mk.injEq, Prod.exists] at h
  obtain ⟨hprimal, d, s₁, _, hd, ⟨rfl, rfl⟩, rfl⟩ | ⟨hprimal, ⟨rfl, rfl⟩, rfl⟩ := h
  · obtain ⟨g, hg, rfl, rfl, hquiet⟩ := Iterate.readDualNorm_returns hd hs
    refine ⟨?_, ⟨_, rfl⟩, Iterate.isCoherent_recalling_some hg, hquiet⟩
    simp [Iterate.Passes, hprimal, Iterate.freshDualNorm_eq hg]
  · refine ⟨?_, ⟨_, Iterate.recalling_self.symm⟩, hs, .refl⟩
    simp [Iterate.Passes, hprimal]

/-- How a round with a tangent step ends: the stage is reported and the new point judged. -/
def RunState.closeDescent (r : RunState K) (c : RunContext K) (o : TangentOutcome K)
    (iteration : Int) : Counted K (RunState K) := do
  let r ← r.close c (.tangent o) "T" iteration o.ending.name
  let (solved, iterate) ← isSolved r.iterate c.tolerances
  let tired ← c.budget.exhausted
  return { r with iterate, solved, tired }

theorem RunState.isSolved_keeps {s s' : Iterate K} {t : RunTolerances K} {solved : Bool}
    {g : Vec K} (h : Returns (isSolved s t) l (solved, s') l')
    (hknown : s.lagrangianGradient? = some g) : s' = s := by
  simp only [isSolved, Iterate.readDualNorm, Iterate.readLagrangianGradient, hknown,
    Counted.returns_ite, Counted.returns_bind, Counted.returns_pure, Prod.mk.injEq] at h
  obtain ⟨-, _, _, ⟨_, _, ⟨rfl, rfl⟩, rfl, rfl⟩, ⟨rfl, rfl⟩, rfl⟩ | ⟨-, ⟨rfl, rfl⟩, rfl⟩ := h
  · rfl
  · rfl

end InfeasibilityControl
