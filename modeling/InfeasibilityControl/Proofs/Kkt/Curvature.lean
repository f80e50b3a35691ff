import Mathlib
import InfeasibilityControl.Proofs.Kkt.Solve
import InfeasibilityControl.Proofs.Kkt.TangentStep

set_option autoImplicit false
set_option relaxedAutoImplicit false

/-!
The curvature that decides about a KKT direction.

The slope along the direction is the negative of the curvature of the regularized Hessian along it,
less a multiple of the square of the multipliers. The sign of the slope is therefore a test of the
curvature, for every Hessian, every Jacobian and every regularization.
-/

namespace InfeasibilityControl

open Counted (Always)
open scoped InnerProductSpace

namespace KktSystem

variable {p : Problem ℝ} {m : Nat} {kkt : KktSystem ℝ} {J : SparseMatrix ℝ}
  {gradient d w : Vec ℝ} {tolerances : LeastSquares.Tolerances ℝ}

/-- The curvature `dᵀ (H + γ I) d + δ ‖w‖²` of a system. -/
noncomputable def curvature (kkt : KktSystem ℝ) (d w : Vec ℝ) : ℝ :=
  Vec.dot d (Vec.plus (kkt.hessianProduct d) (Vec.scale kkt.gamma d)) +
    kkt.delta * Vec.norm w ^ 2

@[simp] theorem length_hessianProduct : (kkt.hessianProduct d).length = kkt.variableCount := by
  simp [hessianProduct, mirroredProduct]

namespace IsSolution

variable (h : kkt.IsSolution J (kkt.directionRightSide gradient) d w)
  (hJ : J.HasShape kkt.constraintCount kkt.variableCount)
include h hJ

theorem balance (hgradient : gradient.length = kkt.variableCount) :
    (Vec.plus (kkt.hessianProduct d) (Vec.scale kkt.gamma d)).euclid kkt.variableCount +
      (J.applyTransposed w).euclid kkt.variableCount = -gradient.euclid kkt.variableCount := by
  have hupper := h.upper
  have hnegated : (Vec.negate gradient).length = kkt.variableCount :=
    (Vec.length_negate gradient).trans hgradient
  rw [directionRightSide, List.take_left' hnegated] at hupper
  have hlength : (Vec.plus (kkt.hessianProduct d) (Vec.scale kkt.gamma d)).length =
      (J.applyTransposed w).length := by simp [h.primal, hJ.length_applyTransposed]
  rw [← Vec.euclid_negate, ← hupper, Vec.euclid_plus hlength]

theorem apply_eq (hgradient : gradient.length = kkt.variableCount) :
    J.apply d = Vec.scale kkt.delta w := by
  have hlower := h.lower
  have hnegated : (Vec.negate gradient).length = kkt.variableCount :=
    (Vec.length_negate gradient).trans hgradient
  have hproduct := hJ.length_apply d
  have hscaled : (Vec.scale kkt.delta w).length = kkt.constraintCount :=
    (Vec.length_scale _ _).trans h.dual
  rw [directionRightSide, List.drop_left' hnegated] at hlower
  rw [← Vec.euclid_inj hproduct hscaled, ← sub_eq_zero,
    ← Vec.euclid_minus (hproduct.trans hscaled.symm), hlower, Vec.euclid_zeros]

theorem slope (hgradient : gradient.length = kkt.variableCount) :
    Vec.dot gradient d = -kkt.curvature d w := by
  have hcurved : (Vec.plus (kkt.hessianProduct d) (Vec.scale kkt.gamma d)).length =
      kkt.variableCount := by simp [h.primal]
  have hforces : ⟪(J.applyTransposed w).euclid kkt.variableCount,
      d.euclid kkt.variableCount⟫_ℝ = kkt.delta * Vec.norm w ^ 2 := by
    rw [hJ.inner_applyTransposed, ← hJ.euclid_apply, h.apply_eq hJ hgradient, Vec.euclid_scale,
      real_inner_smul_right, real_inner_self_eq_norm_sq, Vec.norm_eq h.dual.le]
  calc Vec.dot gradient d
      = ⟪gradient.euclid kkt.variableCount, d.euclid kkt.variableCount⟫_ℝ :=
        Vec.dot_eq_inner hgradient.le
    _ = -⟪(Vec.plus (kkt.hessianProduct d) (Vec.scale kkt.gamma d)).euclid kkt.variableCount +
          (J.applyTransposed w).euclid kkt.variableCount, d.euclid kkt.variableCount⟫_ℝ := by
        rw [h.balance hJ hgradient, inner_neg_left, neg_neg]
    _ = -kkt.curvature d w := by
        rw [inner_add_left, hforces, curvature, Vec.dot_comm d, Vec.dot_eq_inner hcurved.le]

end IsSolution

theorem isUnfit_iff_of_solve (hsolve : kkt.solve (kkt.directionRightSide gradient) = .ok (d, w))
    (hlength : gradient.length = d.length) :
    kkt.IsUnfit gradient ↔ 0 ≤ Vec.dot gradient d ∧ Vec.isNonzero d = true := by
  simp [IsUnfit, hsolve, Vec.inner_of_length hlength]

/-- How a system decides on a search direction, given the projected gradient: a KKT direction is
taken exactly if it is zero or its curvature is positive, and the projection takes its place
otherwise and where the solve fails. -/
structure DecidesByCurvature (kkt : KktSystem ℝ) (J : SparseMatrix ℝ)
    (tolerances : LeastSquares.Tolerances ℝ) (gradient projected : Vec ℝ) : Prop where
  slope : ∀ d w, kkt.solve (kkt.directionRightSide gradient) = .ok (d, w) →
    Vec.dot gradient d = -kkt.curvature d w
  tangent : ∀ d w, kkt.solve (kkt.directionRightSide gradient) = .ok (d, w) →
    J.apply d = Vec.scale kkt.delta w
  kkt_iff : ∀ d w, kkt.solve (kkt.directionRightSide gradient) = .ok (d, w) →
    (Always (kkt.searchDirection gradient J tolerances) (d, .kkt) ↔
      Vec.isNonzero d = false ∨ 0 < kkt.curvature d w)
  fallback : ∀ d w, kkt.solve (kkt.directionRightSide gradient) = .ok (d, w) →
    ¬ (Vec.isNonzero d = false ∨ 0 < kkt.curvature d w) →
    Always (kkt.searchDirection gradient J tolerances) (Vec.negate projected, .projectedGradient)
  failure : ∀ fault, kkt.solve (kkt.directionRightSide gradient) = .error fault →
    Always (kkt.searchDirection gradient J tolerances) (Vec.negate projected, .projectedGradient)

theorem Fits.decidesByCurvature (h : kkt.Fits p m) (hp : p.IsTriangular m)
    (hJ : kkt.jacobian = .ok J) (hgradient : gradient.length = p.variableCount) :
    ∃ t, Always (J.projectOntoNullSpace gradient tolerances none) t ∧
      kkt.DecidesByCurvature J tolerances gradient t := by
  have hshape := h.hasShape hJ
  have hkktShape := hasShape_of_jacobian hJ
  have hlength : gradient.length = kkt.variableCount := hgradient.trans h.variableCount.symm
  have hsolution : ∀ d w, kkt.solve (kkt.directionRightSide gradient) = .ok (d, w) →
      kkt.IsSolution J (kkt.directionRightSide gradient) d w := by
    intro d w hsolve
    exact h.isSolution_of_solve hp hJ (h.length_directionRightSide hgradient) hsolve
  have hunfit : ∀ d w, kkt.solve (kkt.directionRightSide gradient) = .ok (d, w) →
      (kkt.IsUnfit gradient ↔ ¬ (Vec.isNonzero d = false ∨ 0 < kkt.curvature d w)) := by
    intro d w hsolve
    have hanswer := hsolution d w hsolve
    rw [isUnfit_iff_of_solve hsolve (hlength.trans hanswer.primal.symm),
      hanswer.slope hkktShape hlength, not_or, Bool.not_eq_false, not_lt, and_comm,
      Left.nonneg_neg_iff]
  obtain ⟨t, ht, -, hcases⟩ := h.always_searchDirection hp.toIsPatterned hgradient hshape
  refine ⟨t, ht, fun d w hsolve => (hsolution d w hsolve).slope hkktShape hlength,
    fun d w hsolve => (hsolution d w hsolve).apply_eq hkktShape hlength, ?_, ?_, ?_⟩
  · intro d w hsolve
    obtain ⟨hfit, d', w', hfound, hkkt⟩ | ⟨hunfit', hprojected⟩ := hcases
    · cases hsolve.symm.trans hfound
      rw [hunfit d w hsolve, not_not] at hfit
      exact ⟨fun _ => hfit, fun _ => hkkt⟩
    · rw [hunfit d w hsolve] at hunfit'
      refine ⟨fun hkkt => ?_, fun hcurved => absurd hcurved hunfit'⟩
      cases hkkt.unique hprojected
  · intro d w hsolve hflat
    obtain ⟨hfit, -⟩ | ⟨-, hprojected⟩ := hcases
    · exact absurd ((hunfit d w hsolve).2 hflat) hfit
    · exact hprojected
  · intro fault hsolve
    obtain ⟨hfit, -⟩ | ⟨-, hprojected⟩ := hcases
    · exact absurd (.inl ⟨fault, hsolve⟩) hfit
    · exact hprojected

/-- At every point a system can be refreshed, and then it decides by the curvature of what it was
refreshed with. -/
theorem refreshed_decidesByCurvature (hp : p.IsTriangular m) (hkkt : kkt.Fits p m)
    {x y hessian jacobian : Vec ℝ} (gamma delta : ℝ)
    (hhessian : p.hessianValues x y 1 = .ok hessian)
    (hhessianLength : hessian.length = p.hessianPattern.length)
    (hjacobian : p.jacobianValues x = .ok jacobian)
    (hjacobianLength : jacobian.length = p.jacobianPattern.length)
    (hgradient : gradient.length = p.variableCount)
    (tolerances : LeastSquares.Tolerances ℝ) (l : Ledger ℝ) :
    ∃ J t l', Always (p.jacobianAt x) J ∧
      Always (J.projectOntoNullSpace gradient tolerances none) t ∧
      ((kkt.refresh p x y gamma delta).run l).run =
        ((holding p m hessian jacobian gamma delta, .ok ()), l') ∧
      (holding p m hessian jacobian gamma delta).DecidesByCurvature J tolerances gradient t := by
  have hfits : (holding p m hessian jacobian gamma delta).Fits p m :=
    holding_fits hhessianLength hjacobianLength
  obtain ⟨J, hJ⟩ := hfits.exists_jacobian hp.toIsPatterned
  have hatPoint : p.jacobian x = .ok J := (hp.jacobian_eq hjacobian).trans hJ
  obtain ⟨l', hrefresh⟩ := refresh_of_loaded
    (hkkt.loaded hhessian hhessianLength hjacobian hjacobianLength) l
  obtain ⟨t, ht, hdecides⟩ := hfits.decidesByCurvature hp hJ hgradient
  exact ⟨J, t, l', Problem.jacobianAt_always hatPoint, ht, hrefresh, hdecides⟩

theorem curvature_repeatedPositions (a b gamma delta : ℝ) (jacobian w : Vec ℝ) :
    (holding repeatedPositions 1 [1, 2, 3, 4] jacobian gamma delta).curvature [a, b] w =
      (6 + gamma) * a ^ 2 + 8 * (a * b) + gamma * b ^ 2 + delta * Vec.norm w ^ 2 := by
  have hhessian : mirroredProduct 2 [(1, 0), (0, 0), (1, 0), (0, 0)] [1, 2, 3, 4] [a, b] =
      [6 * a + 4 * b, 4 * a] := by
    simp [mirroredProduct, mirrored, SparseMatrix.placed, List.range_succ, Finset.sum_range_succ]
    norm_num
  have hproduct : (holding repeatedPositions 1 [1, 2, 3, 4] jacobian gamma delta).hessianProduct
      [a, b] = [6 * a + 4 * b, 4 * a] := hhessian
  rw [curvature, hproduct]
  simp [holding, Vec.plus, Vec.scale]
  ring

/-- With one regularization the KKT direction is taken, the Hessian being positive definite then.
With another one the system is singular, and the projection takes its place. -/
theorem repeatedPositions_decides :
    ∃ first, ofProblem repeatedPositions = .ok first ∧
      (∃ kkt l' J d w, ((first.refresh repeatedPositions [0, 0] [0] 5 6).run Ledger.empty).run =
          ((kkt, .ok ()), l') ∧ kkt.solve (kkt.directionRightSide [1, 0]) = .ok (d, w) ∧
        Always (kkt.searchDirection [1, 0] J .standard) (d, .kkt)) ∧
      ∃ kkt l' J t, ((first.refresh repeatedPositions [0, 0] [0] 0 2).run Ledger.empty).run =
          ((kkt, .ok ()), l') ∧
        Always (kkt.searchDirection [1, 0] J .standard) (Vec.negate t, .projectedGradient) := by
  have htriangular := isTriangular_repeatedPositions
  obtain ⟨first, hfirst⟩ := exists_ofProblem (p := repeatedPositions) htriangular.rowCount
  have hfits := fits_of_ofProblem htriangular.rowCount hfirst
  have hlength : List.length ([1, 0] : Vec ℝ) = repeatedPositions.variableCount := rfl
  refine ⟨first, hfirst, ?_, ?_⟩
  · obtain ⟨J, t, l', -, -, hrefresh, hdecides⟩ := refreshed_decidesByCurvature htriangular hfits
      (x := [0, 0]) (y := [0]) 5 6 rfl rfl rfl rfl hlength .standard Ledger.empty
    have hheld : (holding repeatedPositions 1 [1, 2, 3, 4] [1, 2, 3] 5 6).Fits
        repeatedPositions 1 := holding_fits rfl rfl
    have hregular : ¬ (holding repeatedPositions 1 [1, 2, 3, 4] [1, 2, 3] 5 6).IsSingular := by
      rw [isSingular_repeatedPositions_iff]
      norm_num
    obtain ⟨J', hJ'⟩ := hheld.exists_jacobian htriangular.toIsPatterned
    obtain ⟨d, w, hsolve, hd, -, -⟩ := (hheld.answers htriangular hJ' _).answer
      (hheld.length_directionRightSide hlength) hregular
    refine ⟨_, l', J, d, w, hrefresh, hsolve, (hdecides.kkt_iff d w hsolve).2 ?_⟩
    obtain ⟨a, b, rfl⟩ := List.length_eq_two.1 hd
    rw [curvature_repeatedPositions]
    by_cases hzero : a = 0 ∧ b = 0
    · left
      simp [Vec.isNonzero, hzero]
    · right
      have hw : 0 ≤ 6 * Vec.norm w ^ 2 := by positivity
      have hpositive : 0 < a ^ 2 + b ^ 2 := by
        rcases not_and_or.1 hzero with ha | hb
        · positivity
        · positivity
      linarith [sq_nonneg (a + b), sq_nonneg a]
  · obtain ⟨J, t, l', -, -, hrefresh, hdecides⟩ := refreshed_decidesByCurvature htriangular hfits
      (x := [0, 0]) (y := [0]) 0 2 rfl rfl rfl rfl hlength .standard Ledger.empty
    have hheld : (holding repeatedPositions 1 [1, 2, 3, 4] [1, 2, 3] 0 2).Fits
        repeatedPositions 1 := holding_fits rfl rfl
    have hsingular : (holding repeatedPositions 1 [1, 2, 3, 4] [1, 2, 3] 0 2).IsSingular := by
      rw [isSingular_repeatedPositions_iff]
      norm_num
    obtain ⟨J', hJ'⟩ := hheld.exists_jacobian htriangular.toIsPatterned
    obtain ⟨fault, hsolve, -⟩ := (hheld.answers htriangular hJ' _).failure.2
      ⟨hheld.length_directionRightSide hlength, hsingular⟩
    exact ⟨_, l', J, t, hrefresh, hdecides.failure fault hsolve⟩

end KktSystem

end InfeasibilityControl
