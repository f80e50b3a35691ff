import Mathlib
import InfeasibilityControl.Proofs.Exact.AffineStep
import InfeasibilityControl.Proofs.Exact.QuadraticProblem
import InfeasibilityControl.Proofs.FirstAcceptable
import InfeasibilityControl.Proofs.Kkt.Curvature

set_option autoImplicit false
set_option relaxedAutoImplicit false

/-!
Full steps on quadratic problems.

Along a KKT direction the Lagrangian of a quadratic problem changes by the slope and half the
curvature of the objective, and the slope outweighs that curvature. So the full step achieves half
of the linear decrease. If the constraints are not regularized the direction is tangent, and the
constraints keep their values. Without any regularization the full step ends at the least point with
these values.
-/

namespace InfeasibilityControl

open Counted (Always Returns)
open scoped InnerProductSpace

variable {p : Problem ℝ} {Q A : SparseMatrix ℝ} {q b d w gradient : Vec ℝ} {r merit : ℝ}
  {kkt : KktSystem ℝ} {s : Iterate ℝ}

/-- The matrix plus a multiple of the identity is positive definite. -/
def SparseMatrix.IsPositiveDefinite (Q : SparseMatrix ℝ) (n : Nat) (gamma : ℝ) : Prop :=
  ∀ v : Vec ℝ, v.length = n → Vec.isNonzero v = true →
    0 < Vec.dot v (Vec.plus (Q.apply v) (Vec.scale gamma v))

/-- An exact iterate with the gradient of its Lagrangian and its merit. -/
structure Iterate.IsMeasured (p : Problem ℝ) (m : Nat) (g : Vec ℝ) (merit : ℝ) (s : Iterate ℝ) :
    Prop extends s.IsExact p where
  pointLength : s.point.length = p.variableCount
  multipliersLength : s.multipliers.length = m
  gradientLength : s.gradient.length = p.variableCount
  constraintsLength : s.constraints.length = m
  lagrangianGradient : s.freshLagrangianGradient = .ok g
  lagrangian : s.lagrangian = .ok merit

namespace Problem.IsQuadratic

variable (hp : p.IsQuadratic Q A q b r)
include hp

theorem exists_trialAt {line : LineSearch ℝ} (horigin : line.origin.length = p.variableCount)
    (hdirection : line.direction.length = p.variableCount)
    (hmultipliers : line.multipliers.length = b.length) (k : Nat) :
    ∃ t, line.trialAt p 0 k = .ok t := by
  have hscaled : (Vec.scale (line.stepAt k) line.direction).length = p.variableCount :=
    (Vec.length_scale _ _).trans hdirection
  have hlength := Vec.length_plus_of_length horigin hscaled
  have hconstraints := hp.length_constraints hlength (hp.constraints _ hlength)
  exact ⟨_, LineSearch.trialAt_eq (Vec.add_of_length (horigin.trans hscaled.symm))
    (hp.objective _ hlength) (hp.constraints _ hlength) (hmultipliers.trans hconstraints.symm)⟩

theorem curvature_nonneg (hdefinite : Q.IsPositiveDefinite p.variableCount 0)
    (v : EuclideanSpace ℝ (Fin p.variableCount)) :
    0 ≤ ⟪v, Q.linear p.variableCount p.variableCount v⟫_ℝ := by
  obtain ⟨u, hu, rfl⟩ := Vec.exists_euclid v
  by_cases hzero : u.euclid p.variableCount = 0
  · rw [hzero, inner_zero_left]
  · have hpositive := hdefinite u hu ((Vec.isNonzero_iff hu).2 hzero)
    have hlength : (Q.apply u).length = (Vec.scale 0 u).length := by
      rw [hp.square.length_apply, Vec.length_scale, hu]
    rw [Vec.dot_eq_inner hu.le, Vec.euclid_plus hlength, hp.square.euclid_apply,
      Vec.euclid_scale, zero_smul, add_zero] at hpositive
    exact hpositive.le

theorem exists_isMeasured (hs : s.IsExact p) (hpoint : s.point.length = p.variableCount)
    (hmultipliers : s.multipliers.length = b.length) :
    ∃ gradient merit, s.IsMeasured p b.length gradient merit := by
  have hjacobian : s.jacobian = A :=
    Except.ok.inj (hs.jacobian.symm.trans (hp.jacobian _ hpoint))
  have hgradient : s.gradient.length = p.variableCount := by
    rw [← Except.ok.inj ((hp.gradient _ hpoint).symm.trans hs.gradient)]
    exact Vec.length_plus_of_length (hp.square.length_apply _) hp.linear
  have hconstraints := hp.length_constraints hpoint hs.constraints
  refine ⟨Vec.plus s.gradient (A.applyTransposed s.multipliers),
    s.objective + Vec.dot s.multipliers s.constraints, hs, hpoint, hmultipliers, hgradient,
    hconstraints, ?_, ?_⟩
  · rw [Iterate.freshLagrangianGradient, hjacobian,
      if_pos (hmultipliers.trans hp.hasShape.rowCount.symm),
      Vec.add_of_length (hgradient.trans (hp.hasShape.length_applyTransposed _).symm)]
  · rw [Iterate.lagrangian, Vec.inner_of_length (hmultipliers.trans hconstraints.symm)]
    rfl

variable (hs : s.IsMeasured p b.length gradient merit)
include hs

theorem jacobian_eq : s.jacobian = A :=
  Except.ok.inj (hs.jacobian.symm.trans (hp.jacobian _ hs.pointLength))

theorem gradient_eq : gradient = Vec.plus s.gradient (A.applyTransposed s.multipliers) := by
  have hfresh := hs.lagrangianGradient
  rw [Iterate.freshLagrangianGradient, hp.jacobian_eq hs,
    if_pos (hs.multipliersLength.trans hp.hasShape.rowCount.symm),
    Vec.add_of_length (hs.gradientLength.trans (hp.hasShape.length_applyTransposed _).symm),
    Except.ok.injEq] at hfresh
  exact hfresh.symm

theorem length_gradient : gradient.length = p.variableCount := by
  rw [hp.gradient_eq hs]
  exact Vec.length_plus_of_length hs.gradientLength (hp.hasShape.length_applyTransposed _)

theorem lagrangian_step (hd : d.length = p.variableCount) :
    ∃ f c, p.objective (Vec.plus s.point d) = .ok f ∧
      p.constraints (Vec.plus s.point d) = .ok c ∧ c.length = b.length ∧
      f + Vec.dot s.multipliers c =
        merit + Vec.dot gradient d + 1 / 2 * Vec.dot d (Q.apply d) := by
  have hmerit := hs.lagrangian
  rw [Iterate.lagrangian,
    Vec.inner_of_length (hs.multipliersLength.trans hs.constraintsLength.symm)] at hmerit
  have himage := hp.hasShape.length_apply d
  refine ⟨_, _, hp.objective_plus hs.pointLength hd hs.objective hs.gradient,
    hp.constraints_step hs.pointLength hd hs.constraints,
    Vec.length_plus_of_length hs.constraintsLength himage, ?_⟩
  rw [← Except.ok.inj hmerit, hp.gradient_eq hs, Vec.dot_comm s.multipliers (Vec.plus _ _),
    Vec.dot_plus_left (hs.constraintsLength.trans himage.symm),
    Vec.dot_plus_left (hs.gradientLength.trans (hp.hasShape.length_applyTransposed _).symm),
    hp.hasShape.dot_applyTransposed hs.multipliersLength.le, Vec.dot_comm s.constraints,
    Vec.dot_comm (A.apply d)]
  ring

end Problem.IsQuadratic

namespace KktSystem

/-- The system holds the second derivatives and the Jacobian of a quadratic problem. -/
structure HoldsQuadratic (p : Problem ℝ) (m : Nat) (Q A : SparseMatrix ℝ) (kkt : KktSystem ℝ) :
    Prop extends kkt.Fits p m where
  product : ∀ d : Vec ℝ, kkt.hessianProduct d = Q.apply d
  jacobian_eq : kkt.jacobian = .ok A

theorem Fits.exists_holdsQuadratic (h : kkt.Fits p b.length) (hp : p.IsQuadratic Q A q b r)
    {x y : Vec ℝ} (hx : x.length = p.variableCount) (hy : y.length = b.length)
    (gamma delta : ℝ) (l : Ledger ℝ) :
    ∃ held l', ((kkt.refresh p x y gamma delta).run l).run = ((held, .ok ()), l') ∧
      held.gamma = gamma ∧ held.delta = delta ∧ held.HoldsQuadratic p b.length Q A := by
  obtain ⟨hessian, hhessian, hhessianLength, hentries⟩ := hp.hessian x y hx hy
  obtain ⟨jacobian, hjacobian, hjacobianLength, hA⟩ := hp.exists_jacobianValues hx
  have hloaded : kkt.loaded p x y gamma delta =
      .ok (holding p b.length hessian jacobian gamma delta) :=
    h.loaded hhessian hhessianLength hjacobian hjacobianLength
  obtain ⟨l', hrefresh⟩ := refresh_of_loaded hloaded l
  refine ⟨holding p b.length hessian jacobian gamma delta, l', hrefresh, rfl, rfl,
    holding_fits hhessianLength hjacobianLength, fun d => ?_, hA⟩
  refine Vec.ext_coord ?_ fun i hi => ?_
  · rw [length_hessianProduct, hp.square.length_apply]
    rfl
  · rw [length_hessianProduct] at hi
    rw [hessianProduct, mirroredProduct, Vec.coord_tabulate hi, hp.square.coord_apply]
    refine Finset.sum_congr rfl fun j hj => ?_
    exact congrArg (· * d.coord j) (hentries i hi j (Finset.mem_range.1 hj))

namespace HoldsQuadratic

variable (h : kkt.HoldsQuadratic p b.length Q A) (hp : p.IsQuadratic Q A q b r)
  (hsolution : kkt.IsSolution A (kkt.directionRightSide gradient) d w)
include h hsolution

theorem slope_eq (hgradient : gradient.length = p.variableCount) :
    Vec.dot gradient d = -kkt.curvature d w :=
  hsolution.slope (hasShape_of_jacobian h.jacobian_eq) (hgradient.trans h.variableCount.symm)

theorem slope_neg (hgradient : gradient.length = p.variableCount) (hdelta : 0 ≤ kkt.delta)
    (hdefinite : Q.IsPositiveDefinite p.variableCount kkt.gamma)
    (hnonzero : Vec.isNonzero d = true) : Vec.dot gradient d < 0 := by
  have hcurved := hdefinite d (hsolution.primal.trans h.variableCount) hnonzero
  have hdual : 0 ≤ kkt.delta * Vec.norm w ^ 2 := mul_nonneg hdelta (sq_nonneg _)
  rw [h.slope_eq hsolution hgradient, neg_lt_zero, curvature, h.product]
  linarith

include hp

theorem curvature_eq : kkt.curvature d w =
    Vec.dot d (Q.apply d) + kkt.gamma * Vec.dot d d + kkt.delta * Vec.norm w ^ 2 := by
  have hlength : (Q.apply d).length = (Vec.scale kkt.gamma d).length := by
    rw [hp.square.length_apply, Vec.length_scale, hsolution.primal, h.variableCount]
  rw [curvature, h.product, Vec.dot_comm d (Vec.plus _ _), Vec.dot_plus_left hlength,
    Vec.dot_scale_left, Vec.dot_comm (Q.apply d)]

/-- The slope outweighs the curvature of the objective. -/
theorem curvature_le_slope (hgradient : gradient.length = p.variableCount)
    (hgamma : 0 ≤ kkt.gamma) (hdelta : 0 ≤ kkt.delta) :
    Vec.dot d (Q.apply d) ≤ -Vec.dot gradient d := by
  have hprimal : 0 ≤ kkt.gamma * Vec.dot d d := mul_nonneg hgamma Vec.dot_self_nonneg
  have hdual : 0 ≤ kkt.delta * Vec.norm w ^ 2 := mul_nonneg hdelta (sq_nonneg _)
  rw [h.slope_eq hsolution hgradient, neg_neg, h.curvature_eq hp hsolution]
  linarith

theorem constraints_kept (hgradient : gradient.length = p.variableCount)
    (hdelta : kkt.delta = 0) {x c : Vec ℝ} (hx : x.length = p.variableCount)
    (hc : p.constraints x = .ok c) : p.constraints (Vec.plus x d) = .ok c := by
  have htangent := hsolution.apply_eq (hasShape_of_jacobian h.jacobian_eq)
    (hgradient.trans h.variableCount.symm)
  have hclength := hp.length_constraints hx hc
  have himage := hp.hasShape.length_apply d
  rw [hp.constraints_step hx (hsolution.primal.trans h.variableCount) hc, Except.ok.injEq,
    ← Vec.euclid_inj (Vec.length_plus_of_length hclength himage) hclength,
    Vec.euclid_plus (hclength.trans himage.symm), htangent, hdelta, Vec.euclid_scale, zero_smul,
    add_zero]

end HoldsQuadratic

/-- How a tangent step goes along a direction that allows the full step. It takes the direction of
the system, and the full step decreases the merit enough. If the constraints are not regularized
they keep their values, and the step succeeds with its first trial; without any regularization it
ends at the least point with these values. -/
structure AllowsFullStep (kkt : KktSystem ℝ) (p : Problem ℝ) (s : Iterate ℝ) (gradient : Vec ℝ)
    (merit : ℝ) (d : Vec ℝ) : Prop where
  direction : ∀ tolerances,
    Always (kkt.searchDirection gradient s.jacobian tolerances) (d, .kkt)
  decreases : ∀ (options : TangentOptions ℝ) (radius : ℝ), options.sufficient ≤ 1 / 2 →
    ∃ t, (tangentLine options s.point s.multipliers d (Vec.dot gradient d) merit radius).trialAt
        p 0 0 = .ok t ∧ t.stepSize = 1 ∧ t.point = Vec.plus s.point d ∧
      (tangentLine options s.point s.multipliers d (Vec.dot gradient d) merit radius).decreases t =
        true
  success : kkt.delta = 0 → ∀ (options : TangentOptions ℝ) (budget : Budget ℝ) (radius : ℝ)
    (l : Ledger ℝ), options.sufficient ≤ 1 / 2 → 1 ≤ options.growth →
    Vec.norm s.constraints ≤ radius → LineSearch.InBudget p budget l 0 →
    ∃ o l', Returns (tangentStep p kkt options budget s.point s.multipliers gradient s.jacobian
        merit radius) l o l' ∧ o.ending.name = "success" ∧ o.direction = .kkt ∧
      o.trials.length = 1 ∧ o.point = Vec.plus s.point d ∧
      p.constraints o.point = .ok s.constraints
  least : kkt.gamma = 0 → kkt.delta = 0 → ∃ f, p.objective (Vec.plus s.point d) = .ok f ∧
    ∀ x f', x.length = p.variableCount → p.constraints x = .ok s.constraints →
      p.objective x = .ok f' → f ≤ f'

namespace HoldsQuadratic

variable (h : kkt.HoldsQuadratic p b.length Q A) (hp : p.IsQuadratic Q A q b r)
  (hs : s.IsMeasured p b.length gradient merit)
  (hsolve : kkt.solve (kkt.directionRightSide gradient) = .ok (d, w))
include h hp hs hsolve

theorem isSolution : kkt.IsSolution A (kkt.directionRightSide gradient) d w :=
  h.isSolution_of_solve hp.triangular h.jacobian_eq
    (h.length_directionRightSide (hp.length_gradient hs)) hsolve

theorem length_direction : d.length = p.variableCount :=
  (h.isSolution hp hs hsolve).primal.trans h.variableCount

theorem constraints_last (hdelta : kkt.delta = 0) :
    p.constraints (Vec.plus s.point d) = .ok s.constraints :=
  h.constraints_kept hp (h.isSolution hp hs hsolve) (hp.length_gradient hs) hdelta hs.pointLength
    hs.constraints

theorem always_direction (hdownhill : Vec.dot gradient d < 0)
    (tolerances : LeastSquares.Tolerances ℝ) :
    Always (kkt.searchDirection gradient A tolerances) (d, .kkt) := by
  have hlength : gradient.length = d.length :=
    (hp.length_gradient hs).trans (h.length_direction hp hs hsolve).symm
  obtain ⟨t, -, -, ⟨-, d', w', hfound, hkkt⟩ | ⟨hunfit, -⟩⟩ :=
    h.always_searchDirection hp.triangular.toIsPatterned (hp.length_gradient hs) hp.hasShape
  · cases hsolve.symm.trans hfound
    exact hkkt
  · exact absurd ((isUnfit_iff_of_solve hsolve hlength).1 hunfit).1 (not_le.2 hdownhill)

theorem exists_trial (hgamma : 0 ≤ kkt.gamma) (hdelta : 0 ≤ kkt.delta)
    (hdownhill : Vec.dot gradient d < 0) {options : TangentOptions ℝ}
    (hsufficient : options.sufficient ≤ 1 / 2) (radius : ℝ) :
    ∃ t c, (tangentLine options s.point s.multipliers d (Vec.dot gradient d) merit
        radius).trialAt p 0 0 = .ok t ∧ t.stepSize = 1 ∧ t.point = Vec.plus s.point d ∧
      p.constraints t.point = .ok c ∧ t.primalNorm = Vec.norm c ∧
      (tangentLine options s.point s.multipliers d (Vec.dot gradient d) merit
        radius).decreases t = true := by
  have hd := h.length_direction hp hs hsolve
  let line := tangentLine options s.point s.multipliers d (Vec.dot gradient d) merit radius
  obtain ⟨f, c, hf, hc, hclength, hchange⟩ := hp.lagrangian_step hs hd
  have hcurved := h.curvature_le_slope hp (h.isSolution hp hs hsolve) (hp.length_gradient hs)
    hgamma hdelta
  have hadd : Vec.add line.origin (Vec.scale (line.stepAt 0) line.direction) =
      .ok (Vec.plus s.point d) := by
    show Vec.add s.point (Vec.scale 1 d) = _
    rw [Vec.scale_one, Vec.add_of_length (hs.pointLength.trans hd.symm)]
  refine ⟨_, c, LineSearch.trialAt_eq hadd hf hc (hs.multipliersLength.trans hclength.symm), rfl,
    rfl, hc, rfl, ?_⟩
  -- The merit changes by the slope and at most half of its opposite.
  have hhalf : 1 / 2 * Vec.dot gradient d ≤ options.sufficient * Vec.dot gradient d :=
    mul_le_mul_of_nonpos_right hsufficient hdownhill.le
  have hrequired : f + Vec.dot s.multipliers c ≤
      merit + options.sufficient * 1 * Vec.dot gradient d := by
    linarith
  exact LineSearch.decreases_iff.2 ⟨rfl, hrequired⟩

theorem isAcceptable (hgamma : 0 ≤ kkt.gamma) (hdelta : kkt.delta = 0)
    (hdownhill : Vec.dot gradient d < 0) {options : TangentOptions ℝ}
    (hsufficient : options.sufficient ≤ 1 / 2) (hgrowth : 1 ≤ options.growth) {radius : ℝ}
    (hinside : Vec.norm s.constraints ≤ radius) :
    (tangentLine options s.point s.multipliers d (Vec.dot gradient d) merit
      radius).IsAcceptable p 0 := by
  let line := tangentLine options s.point s.multipliers d (Vec.dot gradient d) merit radius
  obtain ⟨t, c, htrial, -, hreached, hc, hnorm, hdecreases⟩ :=
    h.exists_trial hp hs hsolve hgamma hdelta.ge hdownhill hsufficient radius
  rw [hreached] at hc
  obtain rfl := Except.ok.inj (hc.symm.trans (h.constraints_last hp hs hsolve hdelta))
  have hbounds : t.primalNorm ≤ line.allowed := by
    rw [hnorm]
    exact hinside.trans (le_mul_of_one_le_left ((Vec.norm_nonneg _).trans hinside) hgrowth)
  exact ⟨t, htrial, LineSearch.accepts_iff.2 ⟨LineSearch.decreases_iff.1 hdecreases, hbounds⟩⟩

theorem gradient_last (hgamma : kkt.gamma = 0) :
    Q.linear p.variableCount p.variableCount ((Vec.plus s.point d).euclid p.variableCount) +
        q.euclid p.variableCount =
      -((A.applyTransposed w).euclid p.variableCount +
        (A.applyTransposed s.multipliers).euclid p.variableCount) := by
  have hsolution := h.isSolution hp hs hsolve
  have hd := h.length_direction hp hs hsolve
  have hbalance := hsolution.balance (hasShape_of_jacobian h.jacobian_eq)
    ((hp.length_gradient hs).trans h.variableCount.symm)
  have hproduct : (kkt.hessianProduct d).length = (Vec.scale kkt.gamma d).length := by
    rw [length_hessianProduct, Vec.length_scale, hsolution.primal]
  rw [hp.gradient_eq hs, h.variableCount, Vec.euclid_plus hproduct, h.product,
    hp.square.euclid_apply, hgamma, Vec.euclid_scale, zero_smul, add_zero,
    Vec.euclid_plus (hs.gradientLength.trans (hp.hasShape.length_applyTransposed _).symm),
    ← Except.ok.inj ((hp.gradient _ hs.pointLength).symm.trans hs.gradient), hp.euclid_gradient,
    ← sub_eq_zero] at hbalance
  rw [Vec.euclid_plus (hs.pointLength.trans hd.symm), map_add, ← sub_eq_zero, ← hbalance]
  abel

/-- Without regularization the full step ends at the least point with the same constraints. -/
theorem least (hgamma : kkt.gamma = 0) (hdelta : kkt.delta = 0)
    (hdefinite : Q.IsPositiveDefinite p.variableCount kkt.gamma) :
    ∃ f, p.objective (Vec.plus s.point d) = .ok f ∧
      ∀ x f', x.length = p.variableCount → p.constraints x = .ok s.constraints →
        p.objective x = .ok f' → f ≤ f' := by
  have hlast := Vec.length_plus_of_length hs.pointLength (h.length_direction hp hs hsolve)
  have hkept := h.constraints_last hp hs hsolve hdelta
  refine ⟨_, hp.objective_eq hlast, fun x f' hx hsame hf' => ?_⟩
  obtain rfl := Except.ok.inj ((hp.objective_eq hx).symm.trans hf')
  refine QuadraticModel.value_le_of_orthogonal hp.isSymmetric
    (fun v => hp.curvature_nonneg (hgamma ▸ hdefinite) v) ?_
  rw [h.gradient_last hp hs hsolve hgamma, inner_neg_left, inner_add_left,
    hp.hasShape.inner_applyTransposed, hp.hasShape.inner_applyTransposed,
    hp.apply_minus_of_constraints hlast hx hkept hsame, inner_zero_right, inner_zero_right,
    add_zero, neg_zero]

theorem allowsFullStep (hgamma : 0 ≤ kkt.gamma) (hdelta : 0 ≤ kkt.delta)
    (hdefinite : Q.IsPositiveDefinite p.variableCount kkt.gamma)
    (hnonzero : Vec.isNonzero d = true) : kkt.AllowsFullStep p s gradient merit d := by
  have hd := h.length_direction hp hs hsolve
  have hdownhill := h.slope_neg (h.isSolution hp hs hsolve) (hp.length_gradient hs) hdelta
    hdefinite hnonzero
  have hdirection := h.always_direction hp hs hsolve hdownhill
  refine ⟨fun tolerances => ?_, fun options radius hsufficient => ?_, ?_, ?_⟩
  · rw [hp.jacobian_eq hs]
    exact hdirection tolerances
  · obtain ⟨t, c, htrial, hsize, hreached, -, -, hdecreases⟩ :=
      h.exists_trial hp hs hsolve hgamma hdelta hdownhill hsufficient radius
    exact ⟨t, htrial, hsize, hreached, hdecreases⟩
  · intro hzero options budget radius l hsufficient hgrowth hinside hwithin
    obtain ⟨o, l', ho, hname, hkkt, hone, hadd⟩ := exists_fullStep (hdirection options.tolerances)
      (Vec.inner_of_length ((hp.length_gradient hs).trans hd.symm)) hnonzero (not_le.2 hdownhill)
      (hp.exists_trialAt hs.pointLength hd hs.multipliersLength)
      (h.isAcceptable hp hs hsolve hgamma hzero hdownhill hsufficient hgrowth hinside) hwithin
    rw [Vec.scale_one, Vec.add_of_length (hs.pointLength.trans hd.symm), Except.ok.injEq] at hadd
    rw [hp.jacobian_eq hs]
    refine ⟨o, l', ho, hname, hkkt, hone, hadd.symm, ?_⟩
    rw [← hadd]
    exact h.constraints_last hp hs hsolve hzero
  · intro hgammaZero hdeltaZero
    exact h.least hp hs hsolve hgammaZero hdeltaZero hdefinite

end HoldsQuadratic

/-- At every point of a quadratic problem whose regularized second derivatives are positive
definite, a system can be refreshed. If it is not singular then, it has a direction, and one that is
not zero allows the full step. -/
theorem refreshed_allowsFullStep (hp : p.IsQuadratic Q A q b r) (hkkt : kkt.Fits p b.length)
    (hs : s.IsExact p) (hpoint : s.point.length = p.variableCount)
    (hmultipliers : s.multipliers.length = b.length) {gamma delta : ℝ} (hgamma : 0 ≤ gamma)
    (hdelta : 0 ≤ delta) (hdefinite : Q.IsPositiveDefinite p.variableCount gamma)
    (l : Ledger ℝ) :
    ∃ gradient merit held l', s.freshLagrangianGradient = .ok gradient ∧
      s.lagrangian = .ok merit ∧
      ((kkt.refresh p s.point s.multipliers gamma delta).run l).run = ((held, .ok ()), l') ∧
      held.gamma = gamma ∧ held.delta = delta ∧
      (¬ held.IsSingular → ∃ d w, held.solve (held.directionRightSide gradient) = .ok (d, w) ∧
        (Vec.isNonzero d = true → held.AllowsFullStep p s gradient merit d)) := by
  obtain ⟨gradient, merit, hmeasured⟩ := hp.exists_isMeasured hs hpoint hmultipliers
  obtain ⟨held, l', hrefresh, rfl, rfl, hheld⟩ :=
    hkkt.exists_holdsQuadratic hp hpoint hmultipliers gamma delta l
  refine ⟨gradient, merit, held, l', hmeasured.lagrangianGradient, hmeasured.lagrangian, hrefresh,
    rfl, rfl, fun hregular => ?_⟩
  obtain ⟨d, w, hsolve, -⟩ := (hheld.answers hp.triangular hheld.jacobian_eq _).answer
    (hheld.length_directionRightSide (hp.length_gradient hmeasured)) hregular
  refine ⟨d, w, hsolve, fun hnonzero => ?_⟩
  exact hheld.allowsFullStep hp hmeasured hsolve hgamma hdelta hdefinite hnonzero

end KktSystem

/-- Half the sum of the squares of two numbers whose sum is to be one. -/
noncomputable def squaresOnLine : Problem ℝ where
  name := "squares_on_line"
  start := [1, 0]
  constraintCount := 1
  inequalityCount := 0
  bounded := false
  evaluationTime := 0
  objective := fun x => .ok (0.5 * Vec.dot x x)
  gradient := fun x => .ok x
  constraints := fun x => .ok (Vec.minus (tiltedRow.apply x) [1])
  jacobianPattern := [(0, 0), (0, 1)]
  jacobianValues := fun _ => .ok [1, 1]
  hessianPattern := [(0, 0), (1, 1)]
  hessianValues := fun _ _ _ => .ok [1, 1]

namespace squaresOnLine

/-- The identity of the plane. -/
noncomputable def identity : SparseMatrix ℝ := ⟨2, 2, [[some 1, none], [none, some 1]]⟩

theorem apply_identity (a b : ℝ) : identity.apply [a, b] = [a, b] := by
  simp [identity, SparseMatrix.apply, SparseMatrix.rowProduct]

theorem isQuadratic : squaresOnLine.IsQuadratic identity tiltedRow [0, 0] [1] 0 where
  triangular := ⟨⟨rfl, by decide, by decide⟩, by decide⟩
  square := ⟨rfl, rfl, rfl, by simp [identity, squaresOnLine, Problem.variableCount]⟩
  symmetric i j := by
    rcases i with _ | _ | i <;> rcases j with _ | _ | j <;>
      simp [identity, SparseMatrix.coeff, SparseMatrix.toRows, tableEntry]
  linear := rfl
  hasShape := tiltedLine.isAffine.hasShape
  objective x hx := by
    obtain ⟨a, b, rfl⟩ := List.length_eq_two.1 hx
    rw [apply_identity]
    simp [squaresOnLine]
    norm_num
  gradient x hx := by
    obtain ⟨a, b, rfl⟩ := List.length_eq_two.1 hx
    rw [apply_identity]
    simp [squaresOnLine, Vec.plus]
  constraints _ _ := rfl
  jacobian _ _ := rfl
  hessian x y _ _ := by
    have hvariables : squaresOnLine.variableCount = 2 := rfl
    have hpattern : squaresOnLine.hessianPattern = [(0, 0), (1, 1)] := rfl
    refine ⟨[1, 1], rfl, rfl, fun i hi j hj => ?_⟩
    rw [hvariables] at hi hj
    rw [hpattern]
    interval_cases i <;> interval_cases j <;>
      simp [mirrored, SparseMatrix.placed, identity, SparseMatrix.coeff, SparseMatrix.toRows,
        tableEntry]

theorem isPositiveDefinite : identity.IsPositiveDefinite 2 0 := by
  intro v hv hnonzero
  obtain ⟨a, b, rfl⟩ := List.length_eq_two.1 hv
  have hvalue : Vec.dot [a, b] (Vec.plus (identity.apply [a, b]) (Vec.scale 0 [a, b])) =
      a ^ 2 + b ^ 2 := by
    rw [apply_identity]
    simp [Vec.plus, Vec.scale]
    ring
  rw [hvalue]
  have hsome : a ≠ 0 ∨ b ≠ 0 := by
    by_contra hnone
    obtain ⟨rfl, rfl⟩ : a = 0 ∧ b = 0 := by
      simpa [not_or] using hnone
    simp [Vec.isNonzero, Scalar.real_beq] at hnonzero
  rcases hsome with ha | hb
  · positivity
  · positivity

/-- The iterate at an end of the line. -/
noncomputable def iterate : Iterate ℝ where
  point := [1, 0]
  objective := 0.5
  constraints := [0]
  gradient := [1, 0]
  jacobian := tiltedRow
  multipliers := [0]
  radius := 1
  iteration := 0
  lagrangianGradient? := none

theorem isExact : iterate.IsExact squaresOnLine where
  objective := by
    simp [squaresOnLine, iterate]
  constraints := by
    simp [squaresOnLine, iterate, tiltedRow, SparseMatrix.apply, SparseMatrix.rowProduct, Vec.minus]
  gradient := rfl
  jacobian := rfl

theorem not_isSingular : ¬ (KktSystem.holding squaresOnLine 1 [1, 1] [1, 1] 0 0).IsSingular := by
  have hvariables : squaresOnLine.variableCount = 2 := rfl
  have hhessian : squaresOnLine.hessianPattern = [(0, 0), (1, 1)] := rfl
  have hjacobian : squaresOnLine.jacobianPattern = [(0, 0), (0, 1)] := rfl
  have htriangular : squaresOnLine.IsTriangular 1 := isQuadratic.triangular
  rw [KktSystem.isSingular_three_iff htriangular rfl rfl rfl]
  simp only [KktSystem.whole, KktSystem.triangle, hvariables, hhessian, hjacobian]
  simp [SparseMatrix.placed, Position.below]
  norm_num

theorem isSolution : (KktSystem.holding squaresOnLine 1 [1, 1] [1, 1] 0 0).IsSolution tiltedRow
    [-1, 0, 0] [-1 / 2, 1 / 2] [-1 / 2] := by
  have hproduct : mirroredProduct 2 [(0, 0), (1, 1)] [1, 1] [-1 / 2, 1 / 2] = [-1 / 2, 1 / 2] := by
    simp [mirroredProduct, mirrored, SparseMatrix.placed, List.range_succ, Finset.sum_range_succ]
  have hhessian : (KktSystem.holding squaresOnLine 1 [1, 1] [1, 1] 0 0).hessianProduct
      [-1 / 2, 1 / 2] = [-1 / 2, 1 / 2] := hproduct
  refine ⟨rfl, rfl, ?_, ?_⟩
  · rw [hhessian]
    simp [KktSystem.holding, squaresOnLine, Problem.variableCount, tiltedRow, Vec.plus, Vec.scale,
      SparseMatrix.applyTransposed, SparseMatrix.addRow, Vec.zeros, List.replicate]
    norm_num
  · simp [KktSystem.holding, squaresOnLine, Problem.variableCount, tiltedRow, Vec.minus, Vec.scale,
      SparseMatrix.apply, SparseMatrix.rowProduct]
    norm_num

theorem lagrangianGradient_eq : iterate.freshLagrangianGradient = .ok [1, 0] := by
  simp [Iterate.freshLagrangianGradient, iterate, tiltedRow, Vec.add, Vec.combine,
    SparseMatrix.applyTransposed, SparseMatrix.addRow, Vec.zeros, List.replicate]

theorem lagrangian_eq : iterate.lagrangian = .ok (1 / 2) := by
  simp [Iterate.lagrangian, iterate, Vec.inner, bind, Except.bind, pure, Except.pure]
  norm_num

theorem inBudget : LineSearch.InBudget squaresOnLine ⟨100, 60, 0⟩ Ledger.empty 0 := by
  have hunspent : Counters.zero.evaluations = 0 := rfl
  simp [LineSearch.InBudget, Budget.lookAfter, Budget.verdict, Ledger.empty, Clock.shows, hunspent]

theorem standard_allows :
    (Settings.tangentOptions .standard : TangentOptions ℝ).sufficient ≤ 1 / 2 ∧
      1 ≤ (Settings.tangentOptions .standard : TangentOptions ℝ).growth ∧
      Vec.norm iterate.constraints ≤ 1 := by
  have hsufficient : (1e-4 : ℝ) ≤ 1 / 2 := by norm_num
  have hgrowth : (1 : ℝ) ≤ 2.0 := by norm_num
  have hnorm : Vec.norm ([0] : Vec ℝ) = 0 := by
    show Real.sqrt (0 + 0 * 0) = 0
    rw [mul_zero, add_zero, Real.sqrt_zero]
  exact ⟨hsufficient, hgrowth, hnorm.trans_le zero_le_one⟩

end squaresOnLine

/-- One full step leads from the end of the line to its middle, where the sum is least. -/
theorem squaresOnLine_allowsFullStep :
    ∃ first held l, KktSystem.ofProblem squaresOnLine = .ok first ∧
      ((first.refresh squaresOnLine [1, 0] [0] 0 0).run Ledger.empty).run = ((held, .ok ()), l) ∧
      held.AllowsFullStep squaresOnLine squaresOnLine.iterate [1, 0] (1 / 2) [-1 / 2, 1 / 2] ∧
      ∃ o l', Returns (tangentStep squaresOnLine held (Settings.tangentOptions .standard)
          ⟨100, 60, 0⟩ [1, 0] [0] [1, 0] tiltedRow (1 / 2) 1) .empty o l' ∧
        o.ending.name = "success" ∧ o.direction = .kkt ∧ o.trials.length = 1 ∧
        o.point = [1 / 2, 1 / 2] := by
  have htriangular : squaresOnLine.IsTriangular 1 := squaresOnLine.isQuadratic.triangular
  obtain ⟨first, hfirst⟩ := KktSystem.exists_ofProblem htriangular.rowCount
  have hfits := KktSystem.fits_of_ofProblem htriangular.rowCount hfirst
  obtain ⟨gradient, merit, held, l, hgradient, hmerit, hrefresh, -, -, hstep⟩ :=
    KktSystem.refreshed_allowsFullStep squaresOnLine.isQuadratic hfits squaresOnLine.isExact rfl rfl
      le_rfl le_rfl squaresOnLine.isPositiveDefinite Ledger.empty
  obtain rfl : gradient = [1, 0] :=
    Except.ok.inj (hgradient.symm.trans squaresOnLine.lagrangianGradient_eq)
  obtain rfl : merit = 1 / 2 := Except.ok.inj (hmerit.symm.trans squaresOnLine.lagrangian_eq)
  have hloaded : first.loaded squaresOnLine [1, 0] [0] 0 0 =
      .ok (KktSystem.holding squaresOnLine 1 [1, 1] [1, 1] 0 0) := hfits.loaded rfl rfl rfl rfl
  obtain ⟨l₁, hheld⟩ := KktSystem.refresh_of_loaded hloaded Ledger.empty
  cases hrefresh.symm.trans hheld
  obtain ⟨d, w, hsolve, hallows⟩ := hstep squaresOnLine.not_isSingular
  obtain ⟨d', w', hfound, -, -, hunique⟩ := (KktSystem.Fits.answers (KktSystem.holding_fits rfl rfl)
    htriangular rfl [-1, 0, 0]).answer rfl squaresOnLine.not_isSingular
  obtain ⟨rfl, rfl⟩ := (hunique [-1 / 2, 1 / 2] [-1 / 2]).1 squaresOnLine.isSolution
  have hright : (KktSystem.holding squaresOnLine 1 [1, 1] [1, 1] 0 0).directionRightSide [1, 0] =
      [-1, 0, 0] := by
    simp [KktSystem.directionRightSide, KktSystem.holding, Vec.negate, Vec.zeros]
  rw [hright] at hsolve
  cases hsolve.symm.trans hfound
  have hfull := hallows (by simp [Vec.isNonzero, Scalar.real_beq])
  obtain ⟨hsufficient, hgrowth, hinside⟩ := squaresOnLine.standard_allows
  obtain ⟨o, l', ho, hname, hdirection, hone, hpoint, -⟩ := hfull.success rfl
    (Settings.tangentOptions .standard) ⟨100, 60, 0⟩ 1 .empty hsufficient hgrowth hinside
    squaresOnLine.inBudget
  refine ⟨first, _, l, hfirst, hrefresh, hfull, o, l', ho, hname, hdirection, hone, ?_⟩
  rw [hpoint]
  simp [squaresOnLine.iterate, Vec.plus]
  norm_num

end InfeasibilityControl
