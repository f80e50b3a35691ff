import Mathlib
import InfeasibilityControl.Proofs.Exact.Bidiagonalization
import InfeasibilityControl.Proofs.Exact.SingleEquation

set_option autoImplicit false
set_option relaxedAutoImplicit false

/-!
What the numbers of the least-squares recurrence stand for, in exact arithmetic.

The recurrence carries two orthogonal bases and the coefficients of its solution in them. A step
that does not end it keeps this up. The measures at the end of a step are therefore norms of the
solution that it reaches, of its residual, and of what the transpose makes of that residual.
-/

namespace InfeasibilityControl

open scoped InnerProductSpace

/-- The operator is a linear map between spaces of these dimensions, and its transpose the
adjoint. -/
structure Operator.Represents (A : Operator ℝ) {m n : Nat}
    (L : EuclideanSpace ℝ (Fin n) →ₗ[ℝ] EuclideanSpace ℝ (Fin m)) : Prop where
  rowCount : A.rowCount = m
  columnCount : A.columnCount = n
  length_apply : ∀ v, (A.apply v).length = m
  length_applyTransposed : ∀ w, (A.applyTransposed w).length = n
  apply : ∀ v, (A.apply v).euclid m = L (v.euclid n)
  applyTransposed : ∀ w, (A.applyTransposed w).euclid n = LinearMap.adjoint L (w.euclid m)

theorem SparseMatrix.HasShape.represents {J : SparseMatrix ℝ} {m n : Nat} (h : J.HasShape m n) :
    J.operator.Represents (J.linear m n) :=
  ⟨h.rowCount, h.columnCount, h.length_apply, h.length_applyTransposed, h.euclid_apply,
    h.euclid_applyTransposed⟩

theorem Operator.Represents.transpose {A : Operator ℝ} {m n : Nat}
    {L : EuclideanSpace ℝ (Fin n) →ₗ[ℝ] EuclideanSpace ℝ (Fin m)} (h : A.Represents L) :
    A.transpose.Represents (LinearMap.adjoint L) :=
  ⟨h.columnCount, h.rowCount, h.length_applyTransposed, h.length_apply, h.applyTransposed,
    fun v => by rw [LinearMap.adjoint_adjoint]; exact h.apply v⟩

namespace LeastSquares

variable {A : Operator ℝ} {m n : Nat}
  {L : EuclideanSpace ℝ (Fin n) →ₗ[ℝ] EuclideanSpace ℝ (Fin m)} {b : Vec ℝ} {s : Recurrence ℝ}
  {tolerances : Tolerances ℝ} {limit : Int}

/-- The recurrence carries vectors of the right lengths, and its numbers are what they stand for. -/
structure Recurrence.IsExact (L : EuclideanSpace ℝ (Fin n) →ₗ[ℝ] EuclideanSpace ℝ (Fin m))
    (b : Vec ℝ) (s : Recurrence ℝ) : Prop where
  left : s.left.length = m
  right : s.right.length = n
  direction : s.direction.length = n
  solution : s.solution.length = n
  known : ∃ S R p,
    Bases L (LinearMap.adjoint L) (s.left.euclid m) (s.right.euclid n) s.alpha S R ∧
    Follows L (LinearMap.adjoint L) (b.euclid m) (s.left.euclid m) p (s.right.euclid n)
      (s.direction.euclid n) (s.solution.euclid n) s.alpha s.rhoBar s.phiBar S ∧
    Measured (s.right.euclid n) (s.direction.euclid n) (s.solution.euclid n) s.cosine s.sine s.z
      s.solutionSum R ∧
    Module.finrank ℝ R = s.steps

theorem extend_of_pos {K : Type} [Scalar K] {A : Operator K} {s : Recurrence K}
    (hpos : 0 < (s.extend A).beta) :
    (s.extend A).alpha = Vec.norm (Vec.minus (A.applyTransposed (s.extend A).left)
      (Vec.scale (s.extend A).beta s.right)) ∧
    (s.extend A).right = normalize (Vec.minus (A.applyTransposed (s.extend A).left)
      (Vec.scale (s.extend A).beta s.right)) (Vec.norm (Vec.minus
        (A.applyTransposed (s.extend A).left) (Vec.scale (s.extend A).beta s.right))) := by
  have hpos' : (0 : K) < Vec.norm (Vec.minus (A.apply s.right) (Vec.scale s.alpha s.left)) := hpos
  simp only [Recurrence.extend, hpos', decide_true, if_true, and_self]

theorem euclid_nextLeft (hA : A.Represents L) (hleft : s.left.length = m) :
    (Vec.minus (A.apply s.right) (Vec.scale s.alpha s.left)).euclid m =
      L (s.right.euclid n) - s.alpha • s.left.euclid m := by
  rw [Vec.euclid_minus ((hA.length_apply _).trans ((Vec.length_scale _ _).trans hleft).symm),
    hA.apply, Vec.euclid_scale]

theorem length_nextLeft (hA : A.Represents L) (hleft : s.left.length = m) :
    (Vec.minus (A.apply s.right) (Vec.scale s.alpha s.left)).length = m :=
  Vec.length_minus_of_length (hA.length_apply _) ((Vec.length_scale _ _).trans hleft)

theorem beta_extend (hA : A.Represents L) (hleft : s.left.length = m) :
    (s.extend A).beta = ‖L (s.right.euclid n) - s.alpha • s.left.euclid m‖ := by
  rw [← euclid_nextLeft hA hleft, ← Vec.norm_eq (length_nextLeft hA hleft).le]
  rfl

/-- The next vectors of the bases, where there is a next left vector. -/
structure Extension.Continues (L : EuclideanSpace ℝ (Fin n) →ₗ[ℝ] EuclideanSpace ℝ (Fin m))
    (s : Recurrence ℝ) (e : Extension ℝ) : Prop where
  left : e.left.length = m
  right : e.right.length = n
  left_unit : ‖e.left.euclid m‖ = 1
  right_unit : 0 < e.alpha → ‖e.right.euclid n‖ = 1
  norm_right : ‖e.alpha • e.right.euclid n‖ = e.alpha
  image : L (s.right.euclid n) = s.alpha • s.left.euclid m + e.beta • e.left.euclid m
  back : LinearMap.adjoint L (e.left.euclid m) =
    e.alpha • e.right.euclid n + e.beta • s.right.euclid n

theorem continues_extend (hA : A.Represents L) (hleft : s.left.length = m)
    (hright : s.right.length = n) (hpos : 0 < (s.extend A).beta) :
    (s.extend A).Continues L s := by
  obtain ⟨hlength, hmultiple, hunit⟩ := euclid_normalize (length_nextLeft (s := s) hA hleft)
  -- The next right vector is made of the next left one.
  let left := normalize (Vec.minus (A.apply s.right) (Vec.scale s.alpha s.left))
    (s.extend A).beta
  let nextRight := Vec.minus (A.applyTransposed left) (Vec.scale (s.extend A).beta s.right)
  have hscaled : (Vec.scale (s.extend A).beta s.right).length = n :=
    (Vec.length_scale _ _).trans hright
  have hnextRight : nextRight.length = n :=
    Vec.length_minus_of_length (hA.length_applyTransposed _) hscaled
  obtain ⟨hlength', hmultiple', hunit'⟩ := euclid_normalize hnextRight
  obtain ⟨halpha, hrightEq⟩ : (s.extend A).alpha = Vec.norm nextRight ∧
      (s.extend A).right = normalize nextRight (Vec.norm nextRight) := extend_of_pos hpos
  have hpoint : nextRight.euclid n = LinearMap.adjoint L (left.euclid m) -
      (s.extend A).beta • s.right.euclid n := by
    rw [Vec.euclid_minus ((hA.length_applyTransposed _).trans hscaled.symm), hA.applyTransposed,
      Vec.euclid_scale]
  refine ⟨hlength, ?_, hunit hpos, ?_, ?_, ?_, ?_⟩
  · rw [hrightEq]
    exact hlength'
  · rw [hrightEq, halpha]
    exact hunit'
  · rw [hrightEq, halpha, hmultiple', Vec.norm_eq hnextRight.le]
  · have hmultiple : (s.extend A).beta • (s.extend A).left.euclid m = _ := hmultiple
    rw [hmultiple, euclid_nextLeft hA hleft, add_sub_cancel]
  · rw [hrightEq, halpha, hmultiple', hpoint, sub_add_cancel]
    rfl

theorem image_of_not_pos (hA : A.Represents L) (hleft : s.left.length = m)
    (hnot : ¬ 0 < (s.extend A).beta) :
    (s.extend A).beta = 0 ∧ L (s.right.euclid n) = s.alpha • s.left.euclid m := by
  rw [beta_extend hA hleft] at hnot ⊢
  have hzero := le_antisymm (not_lt.1 hnot) (norm_nonneg _)
  exact ⟨hzero, sub_eq_zero.1 (norm_eq_zero.1 hzero)⟩

section

variable {e : Extension ℝ} {c sn rho : ℝ}

theorem euclid_solution_rotated (hs : s.IsExact L b) :
    (s.rotated e c sn rho).solution.euclid n =
      s.solution.euclid n + (c * s.phiBar / rho) • s.direction.euclid n := by
  have hlength : (Vec.scale (c * s.phiBar / rho) s.direction).length = n :=
    (Vec.length_scale _ _).trans hs.direction
  rw [← Vec.euclid_scale, ← Vec.euclid_plus (hs.solution.trans hlength.symm)]
  rfl

theorem euclid_direction_rotated (hs : s.IsExact L b) (hright : e.right.length = n) :
    (s.rotated e c sn rho).direction.euclid n =
      e.right.euclid n + (-(sn * e.alpha) / rho) • s.direction.euclid n := by
  have hlength : (Vec.scale (-(sn * e.alpha) / rho) s.direction).length = n :=
    (Vec.length_scale _ _).trans hs.direction
  rw [← Vec.euclid_scale, ← Vec.euclid_plus (hright.trans hlength.symm)]
  rfl

theorem left_orthogonal (he : e.Continues L s) (hpos : 0 < e.beta)
    {S : Submodule ℝ (EuclideanSpace ℝ (Fin m))} {R : Submodule ℝ (EuclideanSpace ℝ (Fin n))}
    (hbases : Bases L (LinearMap.adjoint L) (s.left.euclid m) (s.right.euclid n) s.alpha S R) :
    e.left.euclid m ∈ (S ⊔ ℝ ∙ s.left.euclid m)ᗮ := by
  have hnext := hbases.left_next fun y x => LinearMap.adjoint_inner_left L x y
  rwa [he.image, add_sub_cancel_left, Submodule.smul_mem_iff _ hpos.ne'] at hnext

/-- The norms that a step reports: of the residual of the next solution, of what the transpose makes
of it, and of that solution. -/
theorem norms_rotated (hA : A.Represents L) (hs : s.IsExact L b)
    (hr : IsRotation s.rhoBar (s.extend A).beta c sn rho) :
    ‖b.euclid m - L ((s.rotated (s.extend A) c sn rho).solution.euclid n)‖ = |sn * s.phiBar| ∧
    ‖LinearMap.adjoint L (b.euclid m -
      L ((s.rotated (s.extend A) c sn rho).solution.euclid n))‖ =
        (s.extend A).alpha * |sn * (c * s.phiBar)| ∧
    ‖(s.rotated (s.extend A) c sn rho).solution.euclid n‖ ^ 2 =
      s.solutionSum + (c * s.phiBar - s.sine * rho * s.z) / (-s.cosine * rho) *
        ((c * s.phiBar - s.sine * rho * s.z) / (-s.cosine * rho)) := by
  obtain ⟨S, R, p, hbases, hfollows, hmeasured, -⟩ := hs.known
  have hsolution := hmeasured.norm_next hr.length (c * s.phiBar)
  rw [euclid_solution_rotated hs]
  by_cases hpos : 0 < (s.extend A).beta
  · have he := continues_extend hA hs.left hs.right hpos
    have hunit := hfollows.unit_next hr (left_orthogonal he hpos hbases) he.left_unit
    rw [hfollows.residual_next hr he.image]
    refine ⟨?_, ?_, hsolution⟩
    · rw [norm_smul, hunit, mul_one, Real.norm_eq_abs]
    · rw [map_smul, hfollows.back_next hr he.back, smul_smul, norm_smul, he.norm_right,
        Real.norm_eq_abs, mul_comm]
      congr 1
      rw [mul_neg, abs_neg]
      congr 1
      ring
  -- Without a next left vector no residual remains.
  · obtain ⟨hbeta, himage⟩ := image_of_not_pos hA hs.left hpos
    have hsine : sn = 0 := (mul_eq_zero.1 (hr.second.trans hbeta)).resolve_right hr.length
    have hsplit : L (s.right.euclid n) =
        s.alpha • s.left.euclid m + (s.extend A).beta • (0 : EuclideanSpace ℝ (Fin m)) := by
      rw [himage, smul_zero, add_zero]
    have hzero := hfollows.residual_next hr hsplit
    rw [hzero, hsine]
    simp [hsolution]

theorem Recurrence.IsExact.rotated (hA : A.Represents L) (hs : s.IsExact L b)
    (hr : IsRotation s.rhoBar (s.extend A).beta c sn rho) (hbeta : 0 < (s.extend A).beta)
    (halpha : 0 < (s.extend A).alpha) : (s.rotated (s.extend A) c sn rho).IsExact L b := by
  obtain ⟨S, R, p, hbases, hfollows, hmeasured, hrank⟩ := hs.known
  have he := continues_extend hA hs.left hs.right hbeta
  have hleft := left_orthogonal he hbeta hbases
  have hright : (s.extend A).right.euclid n ∈ (R ⊔ ℝ ∙ s.right.euclid n)ᗮ := by
    have hnext := hbases.right_next (fun y x => LinearMap.adjoint_inner_left L x y) hleft
      he.left_unit he.image
    rwa [he.back, add_sub_cancel_right, Submodule.smul_mem_iff _ halpha.ne'] at hnext
  have hgamma : Scalar.sqrt (-s.cosine * rho * (-s.cosine * rho) +
      sn * (s.extend A).alpha * (sn * (s.extend A).alpha)) ^ 2 =
        -s.cosine * rho * (-s.cosine * rho) +
          sn * (s.extend A).alpha * (sn * (s.extend A).alpha) :=
    Real.sq_sqrt (add_nonneg (mul_self_nonneg _) (mul_self_nonneg _))
  refine ⟨he.left, he.right, ?_, ?_, S ⊔ ℝ ∙ s.left.euclid m, R ⊔ ℝ ∙ s.right.euclid n,
    sn • p - c • (s.extend A).left.euclid m,
    hbases.next hleft hright he.left_unit (he.right_unit halpha) he.image he.back, ?_, ?_, ?_⟩
  · exact Vec.length_plus_of_length he.right ((Vec.length_scale _ _).trans hs.direction)
  · exact Vec.length_plus_of_length hs.solution ((Vec.length_scale _ _).trans hs.direction)
  · rw [euclid_solution_rotated hs, euclid_direction_rotated hs he.right]
    exact hfollows.next hr hleft he.left_unit he.image he.back
  · rw [euclid_solution_rotated hs, euclid_direction_rotated hs he.right]
    exact hmeasured.next hr.length hright (he.right_unit halpha) hgamma
  · rw [hbases.finrank_next, hrank]
    rfl

end

theorem Recurrence.IsExact.step (hA : A.Represents L) (hs : s.IsExact L b) (hd : s.IsDefined)
    {norm : ℝ} (h : (LeastSquares.step A tolerances limit norm s).2 = none) :
    (LeastSquares.step A tolerances limit norm s).1.IsExact L b := by
  obtain ⟨halpha, -, hsn⟩ := factors_ne_zero h
  have hr := isRotation_rotation (b := (s.extend A).beta) hd.rhoBar
  have hbeta : 0 < (s.extend A).beta :=
    lt_of_le_of_ne (Vec.norm_nonneg _) (hr.second ▸ mul_ne_zero hsn hr.length).symm
  have hnonneg : 0 ≤ (s.extend A).alpha := by
    rw [(extend_of_pos hbeta).1]
    exact Vec.norm_nonneg _
  exact hs.rotated hA hr hbeta (lt_of_le_of_ne hnonneg halpha.symm)

theorem isExact_start (hA : A.Represents L) (hb : b.length = m)
    (h : (start A b).alpha * (start A b).phiBar ≠ 0) : (start A b).IsExact L b := by
  obtain ⟨halpha, hphiBar⟩ := mul_ne_zero_iff.1 h
  have hpos : 0 < Vec.norm b := lt_of_le_of_ne (Vec.norm_nonneg b) hphiBar.symm
  obtain ⟨hleft, hleftMultiple, hleftUnit⟩ := euclid_normalize hb
  have hleftEq : normalize b (Vec.norm b) = Vec.scale (1 / Vec.norm b) b := if_pos hpos
  obtain ⟨hright, hrightMultiple, hrightUnit⟩ := euclid_normalize
    (hA.length_applyTransposed (normalize b (Vec.norm b)))
  have hfirst := start_of_pos (A := A) hpos hleftEq.symm rfl rfl
  rw [hfirst] at halpha ⊢
  have hnorm := lt_of_le_of_ne (Vec.norm_nonneg _) (Ne.symm halpha)
  have hback := (hrightMultiple.trans (hA.applyTransposed _)).symm
  refine ⟨hleft, hright, hright, (Vec.length_zeros _).trans hA.columnCount, ⊥, ⊥,
    (normalize b (Vec.norm b)).euclid m, .first (hleftUnit hpos) (hrightUnit hnorm) hback, ?_, ?_,
    finrank_bot ℝ _⟩
  all_goals rw [Vec.euclid_zeros]
  · exact .first (hleftUnit hpos) hleftMultiple hback
  · exact .first (hrightUnit hnorm)

theorem measure_eq (hA : A.Represents L) (hb : b.length = m) (hs : s.IsExact L b)
    {c sn rho : ℝ} (hr : IsRotation s.rhoBar (s.extend A).beta c sn rho) {x : Vec ℝ}
    (hx : (s.rotated (s.extend A) c sn rho).solution = x) (tolerances : Tolerances ℝ) (norm : ℝ) :
    s.measure tolerances norm (s.extend A) c sn rho =
      { test1 := Vec.norm (Vec.minus b (A.apply x)) / norm
        test2 := Vec.norm (A.applyTransposed (Vec.minus b (A.apply x))) /
          ((s.extend A).operatorNorm * Vec.norm (Vec.minus b (A.apply x)) + precision)
        test3 := (s.measure tolerances norm (s.extend A) c sn rho).test3
        scaledTest1 := Vec.norm (Vec.minus b (A.apply x)) / norm /
          (1 + (s.extend A).operatorNorm * Vec.norm x / norm)
        allowed := tolerances.rightSide +
          tolerances.operator * (s.extend A).operatorNorm * Vec.norm x / norm } := by
  have hlength : x.length = n := by
    rw [← hx]
    exact Vec.length_plus_of_length hs.solution ((Vec.length_scale _ _).trans hs.direction)
  obtain ⟨hresidual, htransposed, hsolution⟩ := norms_rotated hA hs hr
  have himage := hA.length_apply x
  have hdifference : (Vec.minus b (A.apply x)).length = m :=
    Vec.length_minus_of_length hb himage
  rw [hx, ← hA.apply, ← Vec.euclid_minus (hb.trans himage.symm)] at hresidual htransposed
  rw [← Vec.norm_eq hdifference.le] at hresidual
  rw [← hA.applyTransposed, ← Vec.norm_eq (hA.length_applyTransposed _).le] at htransposed
  rw [hx, ← Vec.norm_eq hlength.le] at hsolution
  have hroot : Scalar.sqrt (sn * s.phiBar * (sn * s.phiBar)) =
      Vec.norm (Vec.minus b (A.apply x)) := by
    rw [hresidual]
    exact Real.sqrt_mul_self_eq_abs _
  have hnorm : Scalar.sqrt (s.solutionSum + (c * s.phiBar - s.sine * rho * s.z) /
      (-s.cosine * rho) * ((c * s.phiBar - s.sine * rho * s.z) / (-s.cosine * rho))) =
        Vec.norm x := by
    rw [← hsolution]
    exact Real.sqrt_sq (Vec.norm_nonneg x)
  have habs : (s.extend A).alpha * Scalar.abs (sn * (c * s.phiBar)) =
      Vec.norm (A.applyTransposed (Vec.minus b (A.apply x))) := htransposed.symm
  simp only [Recurrence.measure, hroot, hnorm, habs]

end LeastSquares

end InfeasibilityControl
