import Mathlib
import InfeasibilityControl.Proofs.Combination
import InfeasibilityControl.Proofs.Exact.Convergence

set_option autoImplicit false
set_option relaxedAutoImplicit false

/-!
What a least-squares solve has found when it reports convergence at zero tolerances.

The tests then leave no room: the transpose takes the residual to zero. As the solution is made of
products with the transpose, it is orthogonal to the null space, and so it is the shortest of the
minimizers.
-/

namespace InfeasibilityControl

open scoped InnerProductSpace

namespace LeastSquares

variable {A : Operator ℝ} {m n : Nat}
  {L : EuclideanSpace ℝ (Fin n) →ₗ[ℝ] EuclideanSpace ℝ (Fin m)} {b : Vec ℝ} {s : Solution ℝ}
  {limit : Int} {limit? : Option Int}

/-- The vector is a combination of the rows of the map. -/
def InRows (L : EuclideanSpace ℝ (Fin n) →ₗ[ℝ] EuclideanSpace ℝ (Fin m)) (v : Vec ℝ) : Prop :=
  v.length = n ∧ v.euclid n ∈ LinearMap.range (LinearMap.adjoint L)

theorem isClosed_inRows (hA : A.Represents L) : Vec.IsClosed A.columnCount (InRows L) := by
  rw [hA.columnCount]
  exact Vec.isClosed_submodule _

theorem inRows_applyTransposed (hA : A.Represents L) (w : Vec ℝ) :
    InRows L (A.applyTransposed w) :=
  ⟨hA.length_applyTransposed w, w.euclid m, (hA.applyTransposed w).symm⟩

/-- Nothing is tolerated. -/
def Tolerances.exact : Tolerances ℝ := ⟨0, 0⟩

theorem Ending.SpeaksFor.stationary (hA : A.Represents L) (hb : b.length = m) {size : ℝ}
    {x : Vec ℝ} {ending : Ending} (h : ending.SpeaksFor A b .exact size x) :
    LinearMap.adjoint L (b.euclid m - L (x.euclid n)) = 0 := by
  have himage := hA.length_apply x
  have hresidual : (Vec.minus b (A.apply x)).euclid m = b.euclid m - L (x.euclid n) := by
    rw [Vec.euclid_minus (hb.trans himage.symm), hA.apply]
  rw [← hresidual]
  have hmet : Vec.norm (Vec.minus b (A.apply x)) ≤ 0 →
      LinearMap.adjoint L ((Vec.minus b (A.apply x)).euclid m) = 0 := by
    intro hle
    rw [Vec.norm_eq (Vec.length_minus_of_length hb himage).le] at hle
    rw [norm_le_zero_iff.1 hle, map_zero]
  have hnormal : Vec.norm (A.applyTransposed (Vec.minus b (A.apply x))) ≤ 0 →
      LinearMap.adjoint L ((Vec.minus b (A.apply x)).euclid m) = 0 := by
    intro hle
    rw [Vec.norm_eq (hA.length_applyTransposed _).le] at hle
    rw [← hA.applyTransposed, norm_le_zero_iff.1 hle]
  cases ending with
  | residual => exact hmet (by simpa [SpeaksFor, Tolerances.exact] using h)
  | normalEquations => exact hnormal (by simpa [SpeaksFor, Tolerances.exact] using h)
  | residualPrecision => exact hmet h.le
  | normalEquationsPrecision => exact hnormal h.le
  | atStart => exact h.elim
  | condition => exact h.elim
  | conditionPrecision => exact h.elim
  | stepLimit => exact h.elim

theorem Warrants.normalEquations (hA : A.Represents L) (hb : b.length = m) {x : Vec ℝ}
    {steps : Nat} (h : Warrants A b .exact limit x steps) :
    LinearMap.adjoint L (b.euclid m - L (x.euclid n)) = 0 := by
  cases h with
  | atStart stationary _ =>
    rw [Vec.euclid_zeros, map_zero, sub_zero, ← hA.applyTransposed, stationary, Vec.euclid_zeros]
  | tested k ending within ends converged holds => exact holds.stationary hA hb

theorem solve_exact (hA : A.Represents L) (hb : b.length = m)
    (hs : solve A b .exact limit? = .ok s) (hconverged : s.converged = true)
    (hlimit : 0 < limit?.getD (standardLimit n)) :
    InRows L s.vector ∧ LinearMap.adjoint L (b.euclid m - L (s.vector.euclid n)) = 0 := by
  obtain ⟨t, ht, hwarranted⟩ := solve_isWarranted_iff hA hb .exact limit?
  rw [hs] at ht
  obtain rfl := Except.ok.inj ht
  rw [hA.columnCount] at hwarranted
  exact ⟨solve_mem (isClosed_inRows hA) (inRows_applyTransposed hA) hs,
    (hwarranted.2 (.inl hlimit) hconverged).normalEquations hA hb⟩

variable {J : SparseMatrix ℝ} {c v : Vec ℝ}

/-- A solve of `J d = -c` at zero tolerances that reports convergence has found the shortest
minimizer of `‖c + J d‖`, unless it was allowed no step. -/
theorem minimizesShortest_of_converged (hJ : J.HasShape m n) (hc : c.length = m)
    (hs : solve J.operator (Vec.negate c) .exact limit? = .ok s) (hconverged : s.converged = true)
    (hlimit : 0 < limit?.getD (standardLimit n)) : J.MinimizesShortest c s.vector := by
  have hb : (Vec.negate c).length = m := (Vec.length_negate c).trans hc
  obtain ⟨⟨hlength, w, hw⟩, hnormal⟩ := solve_exact hJ.represents hb hs hconverged hlimit
  refine hJ.minimizesShortest_of_orthogonal hc hlength ?_ ?_
  · refine (LinearModel.isMinimizer_iff_of_adjoint fun x u =>
      (LinearMap.adjoint_inner_right (J.linear m n) x u).symm).2 ?_
    rw [Vec.euclid_negate, ← neg_add', map_neg, neg_eq_zero] at hnormal
    exact hnormal
  · refine (Submodule.mem_orthogonal' _ _).2 fun x hx => ?_
    rw [← hw, LinearMap.adjoint_inner_left, LinearMap.mem_ker.1 hx, inner_zero_right]

theorem approximates_of_converged (hJ : J.HasShape m n) (hv : v.length = n)
    (hs : solve J.operator.transpose v .exact limit? = .ok s) (hconverged : s.converged = true)
    (hlimit : 0 < limit?.getD (standardLimit m)) :
    J.Approximates v s.vector := by
  obtain ⟨⟨hlength, -⟩, hnormal⟩ := solve_exact hJ.represents.transpose hv hs hconverged hlimit
  rw [LinearMap.adjoint_adjoint, ← hJ.euclid_applyTransposed] at hnormal
  exact (hJ.approximates_iff hv hlength).2 hnormal

end LeastSquares

end InfeasibilityControl
