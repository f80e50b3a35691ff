import Mathlib
import InfeasibilityControl.Proofs.Exact.ShortestSolution

set_option autoImplicit false
set_option relaxedAutoImplicit false

/-!
When a least-squares solve comes to a solution.

What the recurrence adds up to estimate the condition number is bounded by the number of steps and
by the extremes of the map: a step adds the square of the image of a unit vector to the one sum, and
the square of a vector whose image is a unit vector to the other. There are not more steps than
dimensions. If the extremes are not too far apart the recurrence is therefore not ended for the
condition number, nor for the limit, and the test that ends it reports convergence.
-/

namespace InfeasibilityControl.LeastSquares

open scoped InnerProductSpace

variable {A : Operator ℝ} {m n : Nat}
  {L : EuclideanSpace ℝ (Fin n) →ₗ[ℝ] EuclideanSpace ℝ (Fin m)} {b : Vec ℝ} {s : Recurrence ℝ}
  {tolerances : Tolerances ℝ} {limit : Int} {lower upper c sn rho : ℝ}

/-- The map takes a vector to at most `upper` times its length, and a vector that is orthogonal to
its null space to at least `lower` times its length. The quotient is one that the recurrence puts up
with in so many dimensions. -/
structure IsConditioned (L : EuclideanSpace ℝ (Fin n) →ₗ[ℝ] EuclideanSpace ℝ (Fin m))
    (lower upper : ℝ) : Prop where
  pos : 0 < lower
  moderate : n * (upper / lower) + precision < 1 / conditionTolerance
  le_image : ∀ y, lower * ‖LinearMap.adjoint L y‖ ≤ ‖L (LinearMap.adjoint L y)‖
  image_le : ∀ x, ‖L x‖ ≤ upper * ‖x‖

theorem Recurrence.IsExact.steps_lt (hs : s.IsExact L b) : s.steps < n := by
  obtain ⟨S, R, p, hbases, -, -, hrank⟩ := hs.known
  have hle := Submodule.finrank_le (R ⊔ ℝ ∙ s.right.euclid n)
  rw [hbases.finrank_next, hrank, finrank_euclideanSpace_fin] at hle
  exact hle

/-- What has been added up is bounded by the steps, and the direction is a combination of the
rows. -/
structure Recurrence.IsBounded (L : EuclideanSpace ℝ (Fin n) →ₗ[ℝ] EuclideanSpace ℝ (Fin m))
    (lower upper : ℝ) (s : Recurrence ℝ) : Prop where
  rows : s.IsIn (InRows L)
  operatorNorm : s.operatorNorm ^ 2 ≤ s.steps * upper ^ 2
  directionSum : s.directionSum * lower ^ 2 ≤ s.steps

theorem operatorNorm_extend_sq_le (A : Operator ℝ) (s : Recurrence ℝ) :
    (s.extend A).operatorNorm ^ 2 ≤
      s.operatorNorm ^ 2 + s.alpha ^ 2 + (s.extend A).beta ^ 2 := by
  simp only [Recurrence.extend]
  split
  · refine (Real.sq_sqrt (add_nonneg (add_nonneg (mul_self_nonneg _) (mul_self_nonneg _))
      (mul_self_nonneg _))).le.trans (le_of_eq ?_)
    ring
  · linarith [sq_nonneg s.alpha,
      sq_nonneg (Vec.norm (Vec.minus (A.apply s.right) (Vec.scale s.alpha s.left)))]

/-- A step adds the square of the image of a unit vector to the estimate of the operator. -/
theorem Recurrence.IsExact.operatorNorm_le (hA : A.Represents L) (hs : s.IsExact L b)
    (hupper : ∀ x, ‖L x‖ ≤ upper * ‖x‖) :
    (s.extend A).operatorNorm ^ 2 ≤ s.operatorNorm ^ 2 + upper ^ 2 := by
  obtain ⟨S, R, p, hbases, -, -, -⟩ := hs.known
  have himage := hbases.norm_image_sq fun y x => LinearMap.adjoint_inner_left L x y
  have hunit := hupper (s.right.euclid n)
  rw [hbases.right_unit, mul_one] at hunit
  have hsquare := pow_le_pow_left₀ (norm_nonneg _) hunit 2
  rw [himage, ← beta_extend hA hs.left] at hsquare
  linarith [operatorNorm_extend_sq_le A s]

/-- A step adds the square of a vector whose image is a unit vector to the sum of the
directions. -/
theorem Recurrence.IsExact.directionSum_le (hA : A.Represents L) (hs : s.IsExact L b)
    (hr : IsRotation s.rhoBar (s.extend A).beta c sn rho)
    (hlower : lower * ‖s.direction.euclid n‖ ≤ ‖L (s.direction.euclid n)‖) (hpos : 0 ≤ lower) :
    (s.rotated (s.extend A) c sn rho).directionSum * lower ^ 2 ≤
      s.directionSum * lower ^ 2 + 1 := by
  obtain ⟨S, R, p, hbases, hfollows, -, -⟩ := hs.known
  rw [beta_extend hA hs.left] at hr
  have himage := hfollows.norm_image_direction_sq
    (hbases.left_next fun y x => LinearMap.adjoint_inner_left L x y) hr
  have hsquare := pow_le_pow_left₀ (mul_nonneg hpos (norm_nonneg _)) hlower 2
  rw [himage, mul_pow] at hsquare
  have hadded : (s.rotated (s.extend A) c sn rho).directionSum =
      s.directionSum + ‖s.direction.euclid n‖ ^ 2 / rho ^ 2 := by
    have hlength : (Vec.scale (1 / rho) s.direction).length = n :=
      (Vec.length_scale _ _).trans hs.direction
    have hscaled : Vec.norm (Vec.scale (1 / rho) s.direction) =
        |1 / rho| * ‖s.direction.euclid n‖ := by
      rw [Vec.norm_eq hlength.le, Vec.euclid_scale, norm_smul, Real.norm_eq_abs]
    show s.directionSum + Vec.norm (Vec.scale (1 / rho) s.direction) *
      Vec.norm (Vec.scale (1 / rho) s.direction) = _
    rw [hscaled, ← sq, mul_pow, sq_abs, one_div, inv_pow, inv_mul_eq_div]
  have hrho : 0 < rho ^ 2 := pow_pos (abs_pos.2 hr.length) 2 |>.trans_eq (sq_abs rho)
  rw [hadded, add_mul, div_mul_eq_mul_div, mul_comm (‖_‖ ^ 2)]
  exact add_le_add_right ((div_le_one hrho).2 hsquare) _

theorem isBounded_start (hA : A.Represents L) : (start A b).IsBounded L lower upper := by
  refine ⟨start_isIn (isClosed_inRows hA) (inRows_applyTransposed hA), ?_, ?_⟩
  · show (0 : ℝ) ^ 2 ≤ (0 : Nat) * upper ^ 2
    simp
  · show (0 : ℝ) * lower ^ 2 ≤ (0 : Nat)
    simp

theorem Recurrence.IsBounded.sums (hbounded : s.IsBounded L lower upper) (hA : A.Represents L)
    (hs : s.IsExact L b) (hL : IsConditioned L lower upper)
    (hr : IsRotation s.rhoBar (s.extend A).beta c sn rho) :
    (s.extend A).operatorNorm ^ 2 ≤ (s.steps + 1) * upper ^ 2 ∧
      (s.rotated (s.extend A) c sn rho).directionSum * lower ^ 2 ≤ s.steps + 1 := by
  obtain ⟨-, y, hy⟩ := hbounded.rows.direction
  have hlower := hL.le_image y
  rw [hy] at hlower
  have hoperator := hs.operatorNorm_le hA hL.image_le
  have hdirection := hs.directionSum_le hA hr hlower hL.pos.le
  constructor
  · linarith [hbounded.operatorNorm]
  · linarith [hbounded.directionSum]

theorem Recurrence.IsBounded.step (hbounded : s.IsBounded L lower upper) (hA : A.Represents L)
    (hs : s.IsExact L b) (hd : s.IsDefined) (hL : IsConditioned L lower upper) {norm : ℝ} :
    (LeastSquares.step A tolerances limit norm s).1.IsBounded L lower upper := by
  have hsums := hbounded.sums hA hs hL (isRotation_rotation (b := (s.extend A).beta) hd.rhoBar)
  refine ⟨step_isIn (isClosed_inRows hA) (inRows_applyTransposed hA) hbounded.rows, ?_, ?_⟩
  all_goals rw [step_eq]
  · simpa [Recurrence.rotated] using hsums.1
  · simpa [Recurrence.rotated] using hsums.2

private theorem product_le {a d k : ℝ} (ha : 0 ≤ a) (hd : 0 ≤ d) (hk : 0 ≤ k) (hlower : 0 < lower)
    (hupper : 0 ≤ upper) (hoperator : a ^ 2 ≤ k * upper ^ 2) (hdirection : d * lower ^ 2 ≤ k) :
    a * Real.sqrt d ≤ k * (upper / lower) := by
  rw [← mul_div_assoc, le_div_iff₀ hlower]
  refine (sq_le_sq₀ (by positivity) (by positivity)).1 ?_
  calc (a * Real.sqrt d * lower) ^ 2 = a ^ 2 * (d * lower ^ 2) := by
        rw [mul_pow, mul_pow, Real.sq_sqrt hd, mul_assoc]
    _ ≤ k * upper ^ 2 * k := mul_le_mul hoperator hdirection (by positivity) (by positivity)
    _ = (k * upper) ^ 2 := by ring

theorem Recurrence.IsBounded.conditionTolerance_lt (hbounded : s.IsBounded L lower upper)
    (hA : A.Represents L) (hs : s.IsExact L b) (hd : s.IsDefined) (hL : IsConditioned L lower upper)
    (hr : IsRotation s.rhoBar (s.extend A).beta c sn rho) (norm : ℝ) :
    conditionTolerance < (s.measure tolerances norm (s.extend A) c sn rho).test3 := by
  obtain ⟨hoperator, hdirection⟩ := hbounded.sums hA hs hL hr
  have hsize := operatorNorm_extend_nonneg A hd.operatorNorm
  have hsum : 0 ≤ (s.rotated (s.extend A) c sn rho).directionSum :=
    add_nonneg hd.directionSum (mul_self_nonneg _)
  have hupper : 0 ≤ upper := by
    obtain ⟨S, R, p, hbases, -⟩ := hs.known
    have hunit := hL.image_le (s.right.euclid n)
    rw [hbases.right_unit, mul_one] at hunit
    exact (norm_nonneg _).trans hunit
  have hsteps : (s.steps + 1 : ℝ) ≤ n := by exact_mod_cast hs.steps_lt
  have hcondition : (s.extend A).operatorNorm *
      Real.sqrt (s.rotated (s.extend A) c sn rho).directionSum ≤ n * (upper / lower) :=
    (product_le hsize hsum (by positivity) hL.pos hupper hoperator hdirection).trans
      (mul_le_mul_of_nonneg_right hsteps (div_nonneg hupper hL.pos.le))
  have hpositive : 0 < (s.extend A).operatorNorm *
      Real.sqrt (s.rotated (s.extend A) c sn rho).directionSum + precision :=
    add_pos_of_nonneg_of_pos (mul_nonneg hsize (Real.sqrt_nonneg _)) precision_pos
  refine (lt_one_div hpositive conditionTolerance_pos).1 ?_
  linarith [hL.moderate]

theorem Measures.isConverged_of_ending {measures : Measures ℝ} {tolerance : ℝ} {steps : Int}
    {ending : Ending} (h : measures.ending tolerance limit steps = some ending)
    (hcondition : conditionTolerance < measures.test3) (hsteps : steps < limit) :
    ending.isConverged = true := by
  have hpositive := conditionTolerance_pos
  unfold Measures.ending at h
  split at h
  · cases h
    rfl
  split at h
  · cases h
    rfl
  rw [if_neg (not_le.2 hcondition)] at h
  split at h
  · cases h
    rfl
  split at h
  · cases h
    rfl
  rw [if_neg (by linarith), if_neg (by omega)] at h
  cases h

/-- A recurrence that is allowed more steps than there are dimensions converges within as many. -/
theorem run_converges (hA : A.Represents L) (hb : b.length = m) (hL : IsConditioned L lower upper)
    (tolerances : Tolerances ℝ) (hlimit : (n : Int) < limit) :
    (run A b tolerances limit).2.isConverged = true ∧ (run A b tolerances limit).1.steps ≤ n := by
  by_cases hdone : (start A b).alpha * (start A b).phiBar = 0
  · rw [run, if_pos (by simpa [Scalar.real_beq] using hdone)]
    exact ⟨rfl, Nat.zero_le n⟩
  obtain ⟨j, ending, hrun, -, hends, hexact, hdefined, hbounded⟩ :=
    run_ends (P := fun s => s.IsBounded L lower upper) hA hb
      ((Int.natCast_nonneg n).trans_lt hlimit) hdone
      (fun s hs hd hbounded _ => hbounded.step hA hs hd hL) (isBounded_start hA)
  have hsteps := hexact.steps_lt
  rw [steps_after] at hsteps
  rw [hrun]
  refine ⟨?_, (steps_after (j + 1)).trans_le hsteps⟩
  have hr := isRotation_rotation (b := ((after A b j).extend A).beta) hdefined.rhoBar
  rw [step_eq] at hends
  refine Measures.isConverged_of_ending hends
    (hbounded.conditionTolerance_lt hA hexact hdefined hL hr _) ?_
  rw [steps_after]
  omega

variable {t : Solution ℝ}

theorem solve_converges (hA : A.Represents L) (hL : IsConditioned L lower upper)
    (ht : solve A b tolerances none = .ok t) : t.converged = true ∧ t.steps ≤ n := by
  have hrows := rows_of_solve ht
  have hlimit : (n : Int) < standardLimit A.columnCount := by
    rw [hA.columnCount, standardLimit]
    have hone : 1 ≤ Nat.max n 1 := Nat.le_max_right n 1
    have hcolumns : n ≤ Nat.max n 1 := Nat.le_max_left n 1
    omega
  have hrun := run_converges hA (hrows.trans hA.rowCount) hL tolerances hlimit
  rw [solve, if_pos hrows.symm] at ht
  dsimp only at ht
  split at ht
  · cases ht
    exact hrun
  · cases ht
    exact ⟨rfl, Nat.zero_le n⟩

variable {J : SparseMatrix ℝ} {v : Vec ℝ}

/-- At zero tolerances the shortest minimizer is found. -/
theorem minimizesShortest_exact (hJ : J.HasShape m n)
    (hL : IsConditioned (J.linear m n) lower upper)
    (ht : solve J.operator (Vec.negate v) .exact none = .ok t) :
    J.MinimizesShortest v t.vector := by
  have hv : v.length = m :=
    (Vec.length_negate v).symm.trans ((rows_of_solve ht).trans hJ.rowCount)
  exact minimizesShortest_of_converged hJ hv ht (solve_converges hJ.represents hL ht).1
    (standardLimit_pos n)

theorem solvesTransposed_exact (hJ : J.HasShape m n)
    (hL : IsConditioned (LinearMap.adjoint (J.linear m n)) lower upper) :
    J.SolvesTransposed .exact v := by
  intro t ht
  have hv : v.length = n := (rows_of_solve ht).trans hJ.columnCount
  exact approximates_of_converged hJ hv ht (solve_converges hJ.represents.transpose hL ht).1
    (standardLimit_pos m)

end InfeasibilityControl.LeastSquares
