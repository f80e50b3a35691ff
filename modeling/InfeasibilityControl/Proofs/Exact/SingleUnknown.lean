import Mathlib
import InfeasibilityControl.Proofs.Exact.NullSpace
import InfeasibilityControl.Proofs.Exact.SingleEquation

set_option autoImplicit false
set_option relaxedAutoImplicit false

/-!
The least-squares recurrence with a single unknown, in exact arithmetic.

There is one dimension on the right, so nothing is left of the product with the transpose after the
first step, and that step is the last one. It ends at a minimizer, whatever the tolerances.
-/

namespace InfeasibilityControl

open scoped InnerProductSpace

namespace LeastSquares

section

variable {A : Operator ℝ} {s : Recurrence ℝ}

theorem rotation_quotient {a b : ℝ} (ha : 0 < a) (hb : 0 < b) :
    (rotation a b).1 / (rotation a b).2.2 = a / (a ^ 2 + b ^ 2) := by
  have hsign : ∀ {c : ℝ}, 0 < c → Scalar.sign c = 1 := by
    intro c hc
    simp [Scalar.sign, hc]
  have hunder : ∀ t : ℝ, 0 < 1 + t * t := fun t =>
    add_pos_of_pos_of_nonneg one_pos (mul_self_nonneg t)
  have hroot : ∀ t : ℝ, Scalar.sqrt (1 + t * t) * Scalar.sqrt (1 + t * t) = 1 + t * t := fun t =>
    Real.mul_self_sqrt (hunder t).le
  have hrootPos : ∀ t : ℝ, 0 < Scalar.sqrt (1 + t * t) := fun t => Real.sqrt_pos.2 (hunder t)
  simp only [rotation, Scalar.real_beq, hb.ne', ha.ne', hsign ha, hsign hb, decide_false,
    Bool.false_eq_true, if_false]
  split
  · have hpos := hrootPos (a / b)
    have hsquare := hroot (a / b)
    generalize Scalar.sqrt (1 + a / b * (a / b)) = r at hpos hsquare
    have hlength : a ^ 2 + b ^ 2 = r * r * b ^ 2 := by
      rw [hsquare]
      field_simp
      ring
    rw [hlength]
    field_simp
  · have hpos := hrootPos (b / a)
    have hsquare := hroot (b / a)
    generalize Scalar.sqrt (1 + b / a * (b / a)) = r at hpos hsquare
    have hlength : a ^ 2 + b ^ 2 = r * r * a ^ 2 := by
      rw [hsquare]
      field_simp
    rw [hlength]
    field_simp

theorem step_of_last (tolerances : Tolerances ℝ) (limit : Int) (rightSideNorm : ℝ) {beta : ℝ}
    (hbeta : Vec.norm (Vec.minus (A.apply s.right) (Vec.scale s.alpha s.left)) = beta)
    (hlast : 0 < beta → Vec.norm (Vec.minus (A.applyTransposed (normalize
      (Vec.minus (A.apply s.right) (Vec.scale s.alpha s.left)) beta))
        (Vec.scale beta s.right)) = 0) (hrho : 0 < s.rhoBar) :
    (step A tolerances limit rightSideNorm s).2.isSome = true ∧
      (step A tolerances limit rightSideNorm s).1.solution = Vec.plus s.solution
        (Vec.scale (s.rhoBar / (s.rhoBar ^ 2 + beta ^ 2) * s.phiBar) s.direction) := by
  obtain rfl | hpos := (hbeta ▸ Vec.norm_nonneg _ : 0 ≤ beta).eq_or_lt
  · have hquotient : s.rhoBar / (s.rhoBar ^ 2 + 0 ^ 2) * s.phiBar = s.phiBar / s.rhoBar := by
      field_simp
      ring
    rw [hquotient]
    exact step_of_breakdown tolerances limit rightSideNorm hbeta hrho
  · have hquotient := rotation_quotient hrho hpos
    rcases hrotation : rotation s.rhoBar beta with ⟨c, sn, rho⟩
    rw [hrotation] at hquotient
    constructor
    · simp only [step, hbeta, hpos, hlast hpos, decide_true, if_true, zero_mul, zero_div,
        add_zero, le_refl]
      split_ifs <;> rfl
    · simp only [step, hbeta, hrotation]
      rw [← hquotient, div_mul_eq_mul_div]

end

section

variable {n : Nat} {L : EuclideanSpace ℝ (Fin n) →ₗ[ℝ] EuclideanSpace ℝ (Fin 1)}
  {u x : EuclideanSpace ℝ (Fin n)} {e : EuclideanSpace ℝ (Fin 1)} {alpha beta t : ℝ}

theorem image_eq_component (he : ‖e‖ = 1) : L x = ⟪LinearMap.adjoint L e, x⟫_ℝ • e := by
  have hne : e ≠ 0 := norm_ne_zero_iff.1 (he ▸ one_ne_zero)
  rw [LinearMap.adjoint_inner_left, ← component_eq hne (L x), real_inner_smul_right,
    real_inner_self_eq_norm_sq, he]
  congr 1
  ring

variable (he : ‖e‖ = 1) (hu : ‖u‖ = 1) (himage : L u = alpha • e)
  (hbeta : ‖LinearMap.adjoint L e - alpha • u‖ = beta)
include he himage

theorem inner_adjoint_eq : ⟪LinearMap.adjoint L e, u⟫_ℝ = alpha := by
  rw [LinearMap.adjoint_inner_left, himage, real_inner_smul_right, real_inner_self_eq_norm_sq, he]
  ring

include hu hbeta

theorem adjoint_norm_sq : ‖LinearMap.adjoint L e‖ ^ 2 = alpha ^ 2 + beta ^ 2 := by
  have hexpand := norm_sub_sq_real (LinearMap.adjoint L e) (alpha • u)
  rw [hbeta, real_inner_smul_right, inner_adjoint_eq he himage, norm_smul, hu, mul_one,
    Real.norm_eq_abs, sq_abs] at hexpand
  linarith

theorem image_residual (hpos : 0 < beta) :
    L ((1 / beta) • (LinearMap.adjoint L e - alpha • u)) = beta • e := by
  rw [image_eq_component he, real_inner_smul_right, inner_sub_right, real_inner_smul_right,
    inner_adjoint_eq he himage, real_inner_self_eq_norm_sq, adjoint_norm_sq he hu himage hbeta]
  congr 1
  field_simp
  ring

theorem image_last_residual (halpha : 0 < alpha) :
    L (t • u - LinearMap.adjoint L ((alpha / (alpha ^ 2 + beta ^ 2) * t) • e)) = 0 := by
  rw [image_eq_component he, map_smul, inner_sub_right, real_inner_smul_right,
    real_inner_smul_right, inner_adjoint_eq he himage, real_inner_self_eq_norm_sq,
    adjoint_norm_sq he hu himage hbeta]
  have hlength : alpha ^ 2 + beta ^ 2 ≠ 0 := by positivity
  have hzero : t * alpha - alpha / (alpha ^ 2 + beta ^ 2) * t * (alpha ^ 2 + beta ^ 2) = 0 := by
    field_simp
    ring
  rw [hzero, zero_smul]

end

variable {J : SparseMatrix ℝ} {n : Nat} {v : Vec ℝ} {tolerances : Tolerances ℝ}

/-- The first step from unit vectors that belong together is the last one. It goes to a multiple of
the right vector whose residual is in the null space. -/
theorem step_single (hJ : J.HasShape 1 n) {s : Recurrence ℝ} (hleft : s.left.length = n)
    (hright : s.right.length = 1) (hleftUnit : ‖s.left.euclid n‖ = 1)
    (hrightUnit : ‖s.right.euclid 1‖ = 1)
    (himage : J.linear 1 n (s.left.euclid n) = s.alpha • s.right.euclid 1)
    (halpha : 0 < s.alpha) (hrho : s.rhoBar = s.alpha) (hdirection : s.direction = s.right)
    (limit : Int) (rightSideNorm : ℝ) :
    (step J.operator.transpose tolerances limit rightSideNorm s).2.isSome = true ∧
      ∃ k : ℝ, (step J.operator.transpose tolerances limit rightSideNorm s).1.solution =
          Vec.plus s.solution (Vec.scale k s.right) ∧
        J.linear 1 n (s.phiBar • s.left.euclid n -
          LinearMap.adjoint (J.linear 1 n) (k • s.right.euclid 1)) = 0 := by
  let nextLeft := Vec.minus (J.applyTransposed s.right) (Vec.scale s.alpha s.left)
  have hproduct := hJ.length_applyTransposed s.right
  have hscaled : (Vec.scale s.alpha s.left).length = n := (Vec.length_scale _ _).trans hleft
  have hnextLeft : nextLeft.euclid n =
      LinearMap.adjoint (J.linear 1 n) (s.right.euclid 1) - s.alpha • s.left.euclid n := by
    rw [Vec.euclid_minus (hproduct.trans hscaled.symm), hJ.euclid_applyTransposed,
      Vec.euclid_scale]
  have hbeta : ‖LinearMap.adjoint (J.linear 1 n) (s.right.euclid 1) - s.alpha • s.left.euclid n‖ =
      Vec.norm nextLeft := by
    rw [← hnextLeft, ← Vec.norm_eq (Vec.length_minus_of_length hproduct hscaled).le]
  -- The next left vector is taken back to a multiple of the only right vector, so that nothing
  -- remains for a second step.
  have hlast : 0 < Vec.norm nextLeft → Vec.norm (Vec.minus
      (J.apply (normalize nextLeft (Vec.norm nextLeft)))
        (Vec.scale (Vec.norm nextLeft) s.right)) = 0 := by
    intro hpos
    have hnormal : normalize nextLeft (Vec.norm nextLeft) =
        Vec.scale (1 / Vec.norm nextLeft) nextLeft := if_pos hpos
    have hback := image_residual hrightUnit hleftUnit himage hbeta hpos
    have hlength := hJ.length_apply (normalize nextLeft (Vec.norm nextLeft))
    have hmultiple : (Vec.scale (Vec.norm nextLeft) s.right).length = 1 :=
      (Vec.length_scale _ _).trans hright
    rw [Vec.norm_eq (Vec.length_minus_of_length hlength hmultiple).le,
      Vec.euclid_minus (hlength.trans hmultiple.symm), hJ.euclid_apply, hnormal, Vec.euclid_scale,
      Vec.euclid_scale, hnextLeft, hback, sub_self, norm_zero]
  obtain ⟨hends, hsolution⟩ := step_of_last (A := J.operator.transpose) tolerances limit
    rightSideNorm rfl hlast (hrho ▸ halpha)
  rw [hdirection, hrho] at hsolution
  exact ⟨hends, _, hsolution, image_last_residual hrightUnit hleftUnit himage hbeta halpha⟩

theorem linear_run_single (hJ : J.HasShape 1 n) (hv : v.length = n) (hpos : 0 < Vec.norm v)
    {limit : Int} (hlimit : 0 < limit) :
    J.linear 1 n (v.euclid n - (J.applyTransposed
      (run J.operator.transpose v tolerances limit).1.solution).euclid n) = 0 := by
  have hnorm : Vec.norm v = ‖v.euclid n‖ := Vec.norm_eq hv.le
  have hvpos : 0 < ‖v.euclid n‖ := hnorm ▸ hpos
  let u := Vec.scale (1 / Vec.norm v) v
  let image := J.apply u
  let alpha := Vec.norm image
  have hu : u.euclid n = ‖v.euclid n‖⁻¹ • v.euclid n := by
    rw [Vec.euclid_scale, hnorm, one_div]
  have hunit : ‖u.euclid n‖ = 1 := Vec.norm_euclid_unit hv hpos
  have hback : v.euclid n = Vec.norm v • u.euclid n := by
    rw [hu, smul_smul, hnorm, mul_inv_cancel₀ hvpos.ne', one_smul]
  have himage : image.euclid 1 = J.linear 1 n (u.euclid n) := hJ.euclid_apply u
  have halpha : alpha = ‖image.euclid 1‖ := Vec.norm_eq (hJ.length_apply u).le
  have hfirst := start_of_pos (A := J.operator.transpose) hpos (rfl : _ = u) (rfl : _ = image)
    (rfl : _ = alpha)
  rw [hJ.euclid_applyTransposed, hback]
  obtain hzero | halphaPos := (Vec.norm_nonneg image).eq_or_lt
  -- The right side is in the null space already, and no step is made.
  · have hflat : J.linear 1 n (u.euclid n) = 0 := by
      rw [← himage, ← norm_eq_zero, ← halpha]
      exact hzero.symm
    rw [run_of_flat tolerances limit (by rw [hfirst]; simp [alpha, ← hzero]), hfirst,
      Vec.euclid_zeros, map_zero, sub_zero, map_smul, hflat, smul_zero]
  · have himageLength : image.length = 1 := hJ.length_apply u
    obtain ⟨hlength, hmultiple, hrightUnit⟩ := euclid_normalize himageLength
    change (normalize image alpha).length = 1 at hlength
    have hproduct : J.linear 1 n (u.euclid n) = alpha • (normalize image alpha).euclid 1 := by
      rw [← himage]
      exact hmultiple.symm
    have hgoes : (start J.operator.transpose v).alpha * (start J.operator.transpose v).phiBar ≠
        0 := by
      rw [hfirst]
      exact mul_ne_zero halphaPos.ne' hpos.ne'
    obtain ⟨hends, k, hsolution, hresidual⟩ := step_single hJ
      (s := start J.operator.transpose v) (by rw [hfirst]; simp [u, hv])
      (by rw [hfirst]; exact hlength) (by rw [hfirst]; exact hunit)
      (by rw [hfirst]; exact hrightUnit halphaPos) (by rw [hfirst]; exact hproduct)
      (by rw [hfirst]; exact halphaPos) (by rw [hfirst]) (by rw [hfirst]) limit
      (start J.operator.transpose v).phiBar
    rw [run_of_ends hlimit hgoes hends, hsolution]
    rw [hfirst] at hresidual ⊢
    have hrows : J.operator.transpose.columnCount = 1 := hJ.rowCount
    rw [Vec.euclid_plus (by simp [hlength, hrows]), Vec.euclid_zeros, zero_add,
      Vec.euclid_scale k]
    exact hresidual

theorem solvesTransposed_single (hJ : J.HasShape 1 n) (tolerances : Tolerances ℝ) (v : Vec ℝ) :
    J.SolvesTransposed tolerances v := by
  intro s hs
  by_cases hrows : J.operator.transpose.rowCount = v.length
  · have hv : v.length = n := hrows.symm.trans hJ.columnCount
    have himage : ∀ w, (J.operator.transpose.applyTransposed w).length =
        J.operator.transpose.columnCount := fun w => (hJ.length_apply w).trans hJ.rowCount.symm
    have hlength : s.vector.length = 1 := (length_solve himage hs).trans hJ.rowCount
    rw [hJ.approximates_iff hv hlength]
    rw [solve, if_pos hrows] at hs
    by_cases hnonzero : Vec.isNonzero v = true
    · simp only [hnonzero, if_true, Option.getD_none] at hs
      rw [← Except.ok.inj hs]
      exact linear_run_single hJ hv (Vec.norm_pos_of_isNonzero hnonzero) (standardLimit_pos _)
    · have hzero : v.euclid n = 0 :=
        (Vec.isNonzero_eq_false_iff hv).1 (Bool.eq_false_iff.2 hnonzero)
      simp only [hnonzero] at hs
      rw [← Except.ok.inj hs, hJ.euclid_applyTransposed, hzero, Vec.euclid_zeros, map_zero,
        sub_zero, map_zero]
  · rw [solve, if_neg hrows] at hs
    cases hs

end LeastSquares

end InfeasibilityControl
