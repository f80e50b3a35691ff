import Mathlib
import InfeasibilityControl.Proofs.Exact.Matrix
import InfeasibilityControl.Proofs.Exact.Partial

set_option autoImplicit false
set_option relaxedAutoImplicit false

/-!
Vectors as points of Euclidean space, and matrices as linear maps between such spaces.

The inner product and the norm of a vector are those of its point, and the product with a
transposed matrix is the adjoint of the product with the matrix. What is known of Euclidean space
can be said of vectors in this way.
-/

namespace InfeasibilityControl

open Finset (range sum_range)
open scoped InnerProductSpace

namespace Vec

variable {u v : Vec ℝ} {m n : Nat}

/-- The point of a vector, its coordinates past the dimension being dropped. -/
noncomputable def euclid (n : Nat) (v : Vec ℝ) : EuclideanSpace ℝ (Fin n) :=
  WithLp.toLp _ fun i => v.coord i

theorem euclid_apply (v : Vec ℝ) (i : Fin n) : v.euclid n i = v.coord i := rfl

@[simp] theorem euclid_zeros : (zeros m : Vec ℝ).euclid n = 0 := by
  ext i
  rw [euclid_apply, coord_zeros]
  rfl

@[simp] theorem euclid_scale (a : ℝ) (v : Vec ℝ) : (scale a v).euclid n = a • v.euclid n := by
  ext i
  rw [euclid_apply, coord_scale]
  rfl

theorem negate_eq_scale (v : Vec ℝ) : negate v = scale (-1) v := by
  simp [negate, scale]

@[simp] theorem euclid_negate (v : Vec ℝ) : (negate v).euclid n = -v.euclid n := by
  rw [negate_eq_scale, euclid_scale, neg_one_smul]

theorem euclid_plus (h : u.length = v.length) :
    (plus u v).euclid n = u.euclid n + v.euclid n := by
  ext i
  rw [euclid_apply, coord_plus h]
  rfl

theorem euclid_minus (h : u.length = v.length) :
    (minus u v).euclid n = u.euclid n - v.euclid n := by
  ext i
  rw [euclid_apply, coord_minus h]
  rfl

theorem dot_eq_inner (h : u.length ≤ n) : dot u v = ⟪u.euclid n, v.euclid n⟫_ℝ := by
  rw [dot_eq_sum h, sum_range, PiLp.inner_apply]
  refine Finset.sum_congr rfl fun i _ => ?_
  show u.coord i * v.coord i = v.coord i * u.coord i
  exact mul_comm _ _

theorem norm_eq (h : v.length ≤ n) : norm v = ‖v.euclid n‖ := by
  rw [norm, dot_eq_inner h, norm_eq_sqrt_real_inner]
  rfl

theorem norm_zeros (k : Nat) : norm (zeros k : Vec ℝ) = 0 := by
  rw [norm_eq (length_zeros k).le, euclid_zeros, norm_zero]

theorem euclid_inj (hu : u.length = n) (hv : v.length = n) :
    u.euclid n = v.euclid n ↔ u = v := by
  constructor
  · intro h
    refine ext_coord (hu.trans hv.symm) fun i hi => ?_
    have hcoord := congrArg (fun x : EuclideanSpace ℝ (Fin n) => x ⟨i, hu ▸ hi⟩) h
    exact hcoord
  · rintro rfl
    rfl

theorem exists_euclid (x : EuclideanSpace ℝ (Fin n)) :
    ∃ v : Vec ℝ, v.length = n ∧ v.euclid n = x := by
  refine ⟨List.ofFn fun i => x i, List.length_ofFn, ?_⟩
  ext i
  simp [euclid_apply, coord]

theorem isNonzero_iff (h : v.length = n) : isNonzero v = true ↔ v.euclid n ≠ 0 := by
  rw [← euclid_zeros (m := n), Ne, euclid_inj h (length_zeros n), isNonzero, List.any_eq_true]
  subst h
  constructor
  · rintro ⟨a, hmem, ha⟩ hzero
    rw [hzero] at hmem
    have hvalue : a = 0 := List.eq_of_mem_replicate hmem
    simp [hvalue] at ha
  · intro hne
    by_contra hnone
    apply hne
    refine List.eq_replicate_iff.2 ⟨rfl, fun a ha => ?_⟩
    by_contra hvalue
    exact hnone ⟨a, ha, by simpa [Scalar.real_beq] using hvalue⟩

theorem isNonzero_eq_false_iff (h : v.length = n) : isNonzero v = false ↔ v.euclid n = 0 := by
  rw [← Bool.not_eq_true, isNonzero_iff h, not_not]

theorem norm_pos_of_isNonzero (hnonzero : isNonzero v = true) : 0 < norm v := by
  rw [norm_eq le_rfl]
  exact norm_pos_iff.2 ((isNonzero_iff rfl).1 hnonzero)

theorem norm_euclid_unit (h : v.length = n) (hpos : 0 < norm v) :
    ‖(scale (1 / norm v) v).euclid n‖ = 1 := by
  rw [euclid_scale, norm_smul, ← norm_eq h.le, one_div, Real.norm_of_nonneg (inv_nonneg.2 hpos.le),
    inv_mul_cancel₀ hpos.ne']

end Vec

namespace SparseMatrix

variable {A : SparseMatrix ℝ} {m n : Nat} {v w : Vec ℝ}

/-- The linear map of the products with a matrix. -/
noncomputable def linear (A : SparseMatrix ℝ) (m n : Nat) :
    EuclideanSpace ℝ (Fin n) →ₗ[ℝ] EuclideanSpace ℝ (Fin m) :=
  Matrix.toEuclideanLin (Matrix.of fun (i : Fin m) (j : Fin n) => A.coeff i j)

theorem linear_apply (x : EuclideanSpace ℝ (Fin n)) (i : Fin m) :
    A.linear m n x i = ∑ j : Fin n, A.coeff i j * x j := rfl

theorem HasShape.euclid_apply (h : A.HasShape m n) (v : Vec ℝ) :
    (A.apply v).euclid m = A.linear m n (v.euclid n) := by
  ext i
  rw [Vec.euclid_apply, h.coord_apply, sum_range, linear_apply]
  rfl

theorem HasShape.residual_plus {b x d : Vec ℝ} (h : A.HasShape m n) (hb : b.length = m)
    (hx : x.length = n) (hd : d.length = n) :
    Vec.minus (A.apply (Vec.plus x d)) b = Vec.plus (Vec.minus (A.apply x) b) (A.apply d) := by
  have hresidual : ∀ v : Vec ℝ, (Vec.minus (A.apply v) b).length = m :=
    fun v => Vec.length_minus_of_length (h.length_apply v) hb
  have himage := h.length_apply d
  rw [← Vec.euclid_inj (hresidual _) (Vec.length_plus_of_length (hresidual x) himage),
    Vec.euclid_minus ((h.length_apply _).trans hb.symm), Vec.euclid_plus
      ((hresidual x).trans himage.symm), Vec.euclid_minus ((h.length_apply x).trans hb.symm),
    h.euclid_apply, h.euclid_apply, h.euclid_apply, Vec.euclid_plus (hx.trans hd.symm), map_add]
  abel

theorem HasShape.inner_applyTransposed (h : A.HasShape m n) (w : Vec ℝ)
    (x : EuclideanSpace ℝ (Fin n)) :
    ⟪(A.applyTransposed w).euclid n, x⟫_ℝ = ⟪w.euclid m, A.linear m n x⟫_ℝ := by
  have hleft : ∀ j : Fin n, (A.applyTransposed w).coord j =
      ∑ i : Fin m, A.coeff i j * w.coord i := by
    intro j
    rw [h.coord_applyTransposed, sum_range]
  rw [PiLp.inner_apply, PiLp.inner_apply]
  show ∑ j : Fin n, x j * (A.applyTransposed w).coord j =
    ∑ i : Fin m, A.linear m n x i * w.coord i
  simp only [hleft, linear_apply, Finset.mul_sum, Finset.sum_mul]
  rw [Finset.sum_comm]
  refine Finset.sum_congr rfl fun i _ => Finset.sum_congr rfl fun j _ => ?_
  ring

theorem HasShape.dot_applyTransposed (h : A.HasShape m n) (hw : w.length ≤ m) :
    Vec.dot (A.applyTransposed w) v = Vec.dot w (A.apply v) := by
  rw [Vec.dot_eq_inner (h.length_applyTransposed w).le, h.inner_applyTransposed, ← h.euclid_apply,
    ← Vec.dot_eq_inner hw]

end SparseMatrix

end InfeasibilityControl
