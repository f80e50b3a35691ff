import Mathlib
import InfeasibilityControl.Proofs.Completion
import InfeasibilityControl.Proofs.Exact.ModelDecrease

set_option autoImplicit false
set_option relaxedAutoImplicit false

/-!
The least-squares recurrence on a single equation, in exact arithmetic.

There is one dimension on the left, so nothing is left of the first product, and the first step is
the last one. It ends at the shortest solution, whatever the tolerances.
-/

namespace InfeasibilityControl

open scoped InnerProductSpace

namespace LeastSquares

section

variable {A : Operator ℝ} {s : Recurrence ℝ}

theorem rotation_zero {a : ℝ} (ha : 0 < a) : rotation a 0 = (1, 0, a) := by
  have hsign : Scalar.sign a = 1 := by
    simp [Scalar.sign, ha]
  have habs : Scalar.abs a = a := abs_of_pos ha
  simp [rotation, hsign, habs]

/-- A step whose left vector vanishes leaves no residual. It ends the recurrence, having gone the
rest of the way along its direction. -/
theorem step_of_breakdown (tolerances : Tolerances ℝ) (limit : Int) (rightSideNorm : ℝ)
    (h : Vec.norm (Vec.minus (A.apply s.right) (Vec.scale s.alpha s.left)) = 0)
    (hrho : 0 < s.rhoBar) :
    (step A tolerances limit rightSideNorm s).2.isSome = true ∧
      (step A tolerances limit rightSideNorm s).1.solution =
        Vec.plus s.solution (Vec.scale (s.phiBar / s.rhoBar) s.direction) := by
  have hroot : Scalar.sqrt (0 : ℝ) = 0 := Real.sqrt_zero
  constructor
  · simp only [step, h, rotation_zero hrho, one_mul, zero_mul, hroot, zero_div, add_zero, le_refl,
      if_true]
    split_ifs <;> rfl
  · simp only [step, h, rotation_zero hrho, one_mul]

theorem iterate_of_ends {tolerances : Tolerances ℝ} {limit : Int} {rightSideNorm : ℝ}
    (h : (step A tolerances limit rightSideNorm s).2.isSome = true) (allowance : Nat) :
    (iterate A tolerances limit rightSideNorm (allowance + 1) s).1 =
      (step A tolerances limit rightSideNorm s).1 := by
  obtain ⟨ending, hending⟩ := Option.isSome_iff_exists.1 h
  rw [iterate, ← Prod.mk.eta (p := step A tolerances limit rightSideNorm s), hending]

theorem run_of_flat {b : Vec ℝ} (tolerances : Tolerances ℝ) (limit : Int)
    (hflat : (start A b).alpha * (start A b).phiBar = 0) :
    (run A b tolerances limit).1 = start A b := by
  simp only [run, hflat, Scalar.real_beq, decide_true, if_true]

theorem run_of_ends {b : Vec ℝ} {tolerances : Tolerances ℝ} {limit : Int} (hlimit : 0 < limit)
    (hgoes : (start A b).alpha * (start A b).phiBar ≠ 0)
    (hends : (step A tolerances limit (start A b).phiBar (start A b)).2.isSome = true) :
    (run A b tolerances limit).1 =
      (step A tolerances limit (start A b).phiBar (start A b)).1 := by
  obtain ⟨allowance, hallowance⟩ := Nat.exists_eq_succ_of_ne_zero (n := limit.toNat) (by omega)
  unfold run
  rw [if_neg (by simpa [Scalar.real_beq] using hgoes), hallowance, Nat.succ_eq_add_one,
    iterate_of_ends hends]

theorem start_of_pos {b left image : Vec ℝ} {alpha : ℝ} (hpos : 0 < Vec.norm b)
    (hleft : Vec.scale (1 / Vec.norm b) b = left) (himage : A.applyTransposed left = image)
    (halpha : Vec.norm image = alpha) : start A b =
      { solution := Vec.zeros A.columnCount, left, right := normalize image alpha
        direction := normalize image alpha, alpha, rhoBar := alpha, phiBar := Vec.norm b
        operatorNorm := 0, directionSum := 0, solutionSum := 0, z := 0, cosine := -1, sine := 0
        steps := 0, products := 0, transposedProducts := 1 } := by
  simp only [start, normalize, hpos, decide_true, if_true, hleft, himage, halpha]

theorem euclid_normalize {w : Vec ℝ} {k : Nat} (hw : w.length = k) :
    (normalize w (Vec.norm w)).length = k ∧
      Vec.norm w • (normalize w (Vec.norm w)).euclid k = w.euclid k ∧
      (0 < Vec.norm w → ‖(normalize w (Vec.norm w)).euclid k‖ = 1) := by
  unfold normalize
  split
  · rename_i hpos
    refine ⟨(Vec.length_scale _ _).trans hw, ?_, fun _ => Vec.norm_euclid_unit hw hpos⟩
    rw [Vec.euclid_scale, smul_smul, mul_one_div_cancel hpos.ne', one_smul]
  · rename_i hnot
    have hzero : Vec.norm w = 0 := le_antisymm (not_lt.1 hnot) (Vec.norm_nonneg w)
    have hpoint : w.euclid k = 0 := by rwa [← norm_eq_zero, ← Vec.norm_eq hw.le]
    exact ⟨hw, by rw [hpoint, smul_zero], fun hpos => absurd hpos hnot⟩

theorem standardLimit_pos (columns : Nat) : 0 < standardLimit columns := by
  have hcolumns : 1 ≤ Nat.max columns 1 := Nat.le_max_right _ _
  unfold standardLimit
  omega

end

theorem component_eq {e : EuclideanSpace ℝ (Fin 1)} (he : e ≠ 0)
    (y : EuclideanSpace ℝ (Fin 1)) : (⟪e, y⟫_ℝ / ‖e‖ ^ 2) • e = y := by
  have hcoord : e 0 ≠ 0 := by
    intro hzero
    apply he
    ext i
    rw [Subsingleton.elim i 0, hzero]
    rfl
  have hsquare : ‖e‖ ^ 2 = e 0 * e 0 := by
    rw [← real_inner_self_eq_norm_sq, PiLp.inner_apply, Fin.sum_univ_one]
    rfl
  have hinner : ⟪e, y⟫_ℝ = y 0 * e 0 := by
    rw [PiLp.inner_apply, Fin.sum_univ_one]
    rfl
  ext i
  rw [Subsingleton.elim i 0, hinner, hsquare]
  show y 0 * e 0 / (e 0 * e 0) * e 0 = y 0
  field_simp

variable {A : SparseMatrix ℝ} {n : Nat} {b c : Vec ℝ} {tolerances : Tolerances ℝ}

/-- Of the product with the right vector that belongs to a left vector nothing is left besides it:
there is one dimension only. -/
theorem norm_next_single (hA : A.HasShape 1 n) {w : Vec ℝ} {alpha : ℝ} (hw : w.length = 1)
    (hunit : ‖w.euclid 1‖ = 1) (halpha : alpha = ‖(A.applyTransposed w).euclid n‖)
    (hpos : alpha ≠ 0) :
    Vec.norm (Vec.minus (A.apply (Vec.scale (1 / alpha) (A.applyTransposed w)))
      (Vec.scale alpha w)) = 0 := by
  have hproduct : A.linear 1 n ((A.applyTransposed w).euclid n) = alpha ^ 2 • w.euclid 1 := by
    have hne : w.euclid 1 ≠ 0 := norm_ne_zero_iff.1 (hunit ▸ one_ne_zero)
    rw [← component_eq hne (A.linear 1 n ((A.applyTransposed w).euclid n)),
      ← hA.inner_applyTransposed, real_inner_self_eq_norm_sq, hunit, one_pow, div_one, halpha]
  have hleft := hA.length_apply (Vec.scale (1 / alpha) (A.applyTransposed w))
  have hscaled : (Vec.scale alpha w).length = 1 := (Vec.length_scale alpha w).trans hw
  rw [Vec.norm_eq (Vec.length_minus_of_length hleft hscaled).le,
    Vec.euclid_minus (hleft.trans hscaled.symm), hA.euclid_apply, Vec.euclid_scale,
    Vec.euclid_scale, map_smul, hproduct, smul_smul, norm_eq_zero, sub_eq_zero]
  congr 1
  field_simp

theorem euclid_run_single (hA : A.HasShape 1 n) (hb : b.length = 1) (hpos : 0 < Vec.norm b)
    {limit : Int} (hlimit : 0 < limit) :
    (run A.operator b tolerances limit).1.solution.euclid n =
      (‖b.euclid 1‖ ^ 2 / ‖(A.applyTransposed b).euclid n‖ ^ 2) •
        (A.applyTransposed b).euclid n := by
  have hbeta : Vec.norm b = ‖b.euclid 1‖ := Vec.norm_eq hb.le
  have hbpos : 0 < ‖b.euclid 1‖ := hbeta ▸ hpos
  let w := Vec.scale (1 / Vec.norm b) b
  let image := A.applyTransposed w
  let alpha := Vec.norm image
  have hw : w.euclid 1 = ‖b.euclid 1‖⁻¹ • b.euclid 1 := by
    rw [Vec.euclid_scale, hbeta, one_div]
  have hunit : ‖w.euclid 1‖ = 1 := Vec.norm_euclid_unit hb hpos
  have himage : image.euclid n = ‖b.euclid 1‖⁻¹ • (A.applyTransposed b).euclid n := by
    refine ext_inner_right ℝ fun v => ?_
    rw [hA.inner_applyTransposed, hw, real_inner_smul_left, real_inner_smul_left,
      hA.inner_applyTransposed]
  have halpha : alpha = ‖image.euclid n‖ := Vec.norm_eq (hA.length_applyTransposed w).le
  have hfirst := start_of_pos (A := A.operator) hpos (rfl : _ = w) (rfl : _ = image)
    (rfl : _ = alpha)
  obtain hzero | halphaPos := (Vec.norm_nonneg image).eq_or_lt
  · have hgzero : (A.applyTransposed b).euclid n = 0 := by
      have hnorm : ‖image.euclid n‖ = 0 := halpha.symm.trans hzero.symm
      rw [norm_eq_zero, himage, smul_eq_zero] at hnorm
      exact hnorm.resolve_left (inv_ne_zero hbpos.ne')
    rw [run_of_flat tolerances limit (by rw [hfirst]; simp [alpha, ← hzero]), hfirst, hgzero,
      smul_zero, Vec.euclid_zeros]
  · have hright : normalize image alpha = Vec.scale (1 / alpha) image := if_pos halphaPos
    have hbreakdown : Vec.norm (Vec.minus (A.apply (normalize image alpha)) (Vec.scale alpha w)) =
        0 := by
      rw [hright]
      exact norm_next_single hA (by simp [w, hb]) hunit halpha halphaPos.ne'
    have hquotient : alpha = ‖b.euclid 1‖⁻¹ * ‖(A.applyTransposed b).euclid n‖ := by
      rw [halpha, himage, norm_smul, norm_inv, norm_norm]
    have hgpos : ‖(A.applyTransposed b).euclid n‖ ≠ 0 := by
      intro hgzero
      rw [hgzero, mul_zero] at hquotient
      exact halphaPos.ne' hquotient
    have hcolumns : A.operator.columnCount = n := hA.columnCount
    obtain ⟨hends, hsolution⟩ := step_of_breakdown (A := A.operator) (s := start A.operator b)
      tolerances limit (start A.operator b).phiBar (by rw [hfirst]; exact hbreakdown)
      (by rw [hfirst]; exact halphaPos)
    have hgoes : (start A.operator b).alpha * (start A.operator b).phiBar ≠ 0 := by
      rw [hfirst]
      exact mul_ne_zero halphaPos.ne' hpos.ne'
    rw [run_of_ends hlimit hgoes hends, hsolution, hfirst,
      Vec.euclid_plus (by simp [hright, hcolumns, hA.length_applyTransposed, image]),
      Vec.euclid_zeros, zero_add, Vec.euclid_scale, hright, Vec.euclid_scale, himage, smul_smul,
      smul_smul, hbeta]
    congr 1
    show ‖b.euclid 1‖ / alpha * (1 / alpha) * ‖b.euclid 1‖⁻¹ = _
    rw [hquotient]
    field_simp

theorem euclid_solve_single (hA : A.HasShape 1 n) (hb : b.length = 1) {s : Solution ℝ}
    (hs : solve A.operator b tolerances none = .ok s) :
    s.vector.euclid n = (‖b.euclid 1‖ ^ 2 / ‖(A.applyTransposed b).euclid n‖ ^ 2) •
      (A.applyTransposed b).euclid n := by
  have hrows : A.operator.rowCount = b.length := hA.rowCount.trans hb.symm
  rw [solve, if_pos hrows] at hs
  by_cases hnonzero : Vec.isNonzero b = true
  · simp only [hnonzero, if_true, Option.getD_none] at hs
    rw [← Except.ok.inj hs]
    exact euclid_run_single hA hb (Vec.norm_pos_of_isNonzero hnonzero) (standardLimit_pos _)
  · have hbzero : b.euclid 1 = 0 :=
      (Vec.isNonzero_eq_false_iff hb).1 (Bool.eq_false_iff.2 hnonzero)
    simp only [hnonzero] at hs
    rw [← Except.ok.inj hs, hbzero, norm_zero]
    simp

theorem minimizesShortest_zero (hA : A.HasShape 1 n) (hc : c.length = 1) {d : Vec ℝ}
    (hlength : d.length = n) (hzero : d.euclid n = 0)
    (hleast : ∀ v, ‖c.euclid 1‖ ≤ ‖c.euclid 1 + A.linear 1 n v‖) : A.MinimizesShortest c d := by
  refine hA.minimizesShortest_of_orthogonal hc hlength (fun v => ?_) ?_
  · rw [hzero, map_zero, add_zero]
    exact hleast v
  · rw [hzero]
    exact Submodule.zero_mem _

theorem minimizesShortest_of_meets (hA : A.HasShape 1 n) (hc : c.length = 1) {d : Vec ℝ}
    (hlength : d.length = n) {g : EuclideanSpace ℝ (Fin n)}
    (hgradient : LinearModel.IsGradient (A.linear 1 n) (-c.euclid 1) g) {a : ℝ}
    (hd : d.euclid n = a • g) (hmeets : c.euclid 1 + A.linear 1 n (d.euclid n) = 0) :
    A.MinimizesShortest c d := by
  refine hA.minimizesShortest_of_orthogonal hc hlength (fun v => ?_) ?_
  · rw [hmeets, norm_zero]
    exact norm_nonneg _
  · refine (Submodule.mem_orthogonal' _ _).2 fun v hv => ?_
    rw [hd, real_inner_smul_left, hgradient, LinearMap.mem_ker.1 hv, inner_zero_right, mul_zero]

theorem minimizesShortest_of_solve (hA : A.HasShape 1 n) (hc : c.length = 1) {s : Solution ℝ}
    (hs : solve A.operator (Vec.negate c) tolerances none = .ok s) :
    A.MinimizesShortest c s.vector := by
  have hb : (Vec.negate c).length = 1 := (Vec.length_negate c).trans hc
  have hlength : s.vector.length = n := hA.length_solve hs
  have hsolution := euclid_solve_single hA hb hs
  have hgradient := hA.isGradient (Vec.negate c)
  rw [Vec.euclid_negate] at hsolution hgradient
  rw [norm_neg] at hsolution
  generalize (A.applyTransposed (Vec.negate c)).euclid n = g at hsolution hgradient
  obtain hmet | hoff := eq_or_ne (c.euclid 1) 0
  · refine minimizesShortest_zero hA hc hlength ?_ fun v => ?_
    · rw [hsolution, hmet, norm_zero]
      simp
    · rw [hmet, norm_zero]
      exact norm_nonneg _
  have himage : ∀ v, A.linear 1 n v = -((⟪g, v⟫_ℝ / ‖c.euclid 1‖ ^ 2) • c.euclid 1) := by
    intro v
    rw [← component_eq (neg_ne_zero.2 hoff) (A.linear 1 n v), ← hgradient v, norm_neg, smul_neg]
  obtain hflat | hsteep := eq_or_ne g 0
  · refine minimizesShortest_zero hA hc hlength ?_ fun v => ?_
    · rw [hsolution, hflat, smul_zero]
    · rw [himage v, hflat, inner_zero_left, zero_div, zero_smul, neg_zero, add_zero]
  refine minimizesShortest_of_meets hA hc hlength hgradient hsolution ?_
  have hcpos : 0 < ‖c.euclid 1‖ ^ 2 := pow_pos (norm_pos_iff.2 hoff) 2
  have hgpos : 0 < ‖g‖ := norm_pos_iff.2 hsteep
  have hone : ‖c.euclid 1‖ ^ 2 / ‖g‖ ^ 2 * ‖g‖ ^ 2 / ‖c.euclid 1‖ ^ 2 = 1 := by
    field_simp
  rw [himage, hsolution, real_inner_smul_right, real_inner_self_eq_norm_sq, hone, one_smul,
    add_neg_cancel]

end LeastSquares

end InfeasibilityControl
