import Mathlib
import InfeasibilityControl.Proofs.Exact.AffineProblem
import InfeasibilityControl.Proofs.Iterate
import InfeasibilityControl.Proofs.Kkt.Solve

set_option autoImplicit false
set_option relaxedAutoImplicit false

/-!
Quadratic problems: a quadratic objective under affine constraints.

The second-order expansion of a quadratic function is exact, so along a direction the Lagrangian
changes by the slope and half the curvature. Without curvature downward, a point is least where its
gradient is orthogonal to every way out of it.
-/

namespace InfeasibilityControl

open scoped InnerProductSpace

namespace QuadraticModel

variable {E : Type*} [NormedAddCommGroup E] [InnerProductSpace ℝ E] {H : E →ₗ[ℝ] E} {q x y d : E}
  {r : ℝ}

/-- The value `½ ⟪x, H x⟫ + ⟪q, x⟫ + r` of a quadratic function. -/
noncomputable def value (H : E →ₗ[ℝ] E) (q : E) (r : ℝ) (x : E) : ℝ :=
  0.5 * ⟪x, H x⟫_ℝ + ⟪q, x⟫_ℝ + r

theorem value_add (hH : H.IsSymmetric) :
    value H q r (x + d) = value H q r x + ⟪H x + q, d⟫_ℝ + 1 / 2 * ⟪d, H d⟫_ℝ := by
  have hcross : ⟪x, H d⟫_ℝ = ⟪H x, d⟫_ℝ := (hH x d).symm
  have hswapped : ⟪d, H x⟫_ℝ = ⟪H x, d⟫_ℝ := real_inner_comm _ _
  simp only [value, map_add, inner_add_left, inner_add_right]
  norm_num
  linarith

/-- Without curvature downward a point is not above those to which its gradient is orthogonal. -/
theorem value_le_of_orthogonal (hH : H.IsSymmetric) (hcurved : ∀ v, 0 ≤ ⟪v, H v⟫_ℝ)
    (horthogonal : ⟪H x + q, y - x⟫_ℝ = 0) : value H q r x ≤ value H q r y := by
  have hexpansion := value_add (q := q) (r := r) (x := x) (d := y - x) hH
  rw [add_sub_cancel, horthogonal, add_zero] at hexpansion
  linarith [hcurved (y - x)]

end QuadraticModel

namespace Problem

/-- The objective is `½ xᵀ Q x + qᵀ x + r` with a symmetric matrix `Q`, the constraints are
`A x - b`, and the problem reports their derivatives. -/
structure IsQuadratic (p : Problem ℝ) (Q A : SparseMatrix ℝ) (q b : Vec ℝ) (r : ℝ) : Prop where
  triangular : p.IsTriangular b.length
  square : Q.HasShape p.variableCount p.variableCount
  symmetric : ∀ i j, Q.coeff i j = Q.coeff j i
  linear : q.length = p.variableCount
  hasShape : A.HasShape b.length p.variableCount
  objective : ∀ x : Vec ℝ, x.length = p.variableCount →
    p.objective x = .ok (1 / 2 * Vec.dot x (Q.apply x) + Vec.dot q x + r)
  gradient : ∀ x : Vec ℝ, x.length = p.variableCount →
    p.gradient x = .ok (Vec.plus (Q.apply x) q)
  constraints : ∀ x : Vec ℝ, x.length = p.variableCount →
    p.constraints x = .ok (Vec.minus (A.apply x) b)
  jacobian : ∀ x : Vec ℝ, x.length = p.variableCount → p.jacobian x = .ok A
  hessian : ∀ x y : Vec ℝ, x.length = p.variableCount → y.length = b.length →
    ∃ values, p.hessianValues x y 1 = .ok values ∧ values.length = p.hessianPattern.length ∧
      ∀ i < p.variableCount, ∀ j < p.variableCount,
        mirrored p.hessianPattern values i j = Q.coeff i j

namespace IsQuadratic

variable {p : Problem ℝ} {Q A : SparseMatrix ℝ} {q b d x : Vec ℝ} {r : ℝ}

theorem isSymmetric (hp : p.IsQuadratic Q A q b r) :
    (Q.linear p.variableCount p.variableCount).IsSymmetric := by
  refine Matrix.isSymmetric_toEuclideanLin_iff.2 (Matrix.IsHermitian.ext fun i j => ?_)
  exact hp.symmetric j i

theorem objective_eq (hp : p.IsQuadratic Q A q b r) (hx : x.length = p.variableCount) :
    p.objective x = .ok (QuadraticModel.value (Q.linear p.variableCount p.variableCount)
      (q.euclid p.variableCount) r (x.euclid p.variableCount)) := by
  have hhalf : (0.5 : ℝ) = 1 / 2 := by norm_num
  rw [hp.objective x hx, QuadraticModel.value, hhalf, Vec.dot_eq_inner hx.le,
    Vec.dot_eq_inner hp.linear.le, hp.square.euclid_apply]

theorem euclid_gradient (hp : p.IsQuadratic Q A q b r) (x : Vec ℝ) :
    (Vec.plus (Q.apply x) q).euclid p.variableCount =
      Q.linear p.variableCount p.variableCount (x.euclid p.variableCount) +
        q.euclid p.variableCount := by
  rw [Vec.euclid_plus ((hp.square.length_apply x).trans hp.linear.symm), hp.square.euclid_apply]

theorem objective_plus (hp : p.IsQuadratic Q A q b r) (hx : x.length = p.variableCount)
    (hd : d.length = p.variableCount) {f : ℝ} {g : Vec ℝ} (hf : p.objective x = .ok f)
    (hg : p.gradient x = .ok g) :
    p.objective (Vec.plus x d) =
      .ok (f + Vec.dot g d + 1 / 2 * Vec.dot d (Q.apply d)) := by
  obtain rfl := Except.ok.inj ((hp.objective_eq hx).symm.trans hf)
  obtain rfl := Except.ok.inj ((hp.gradient x hx).symm.trans hg)
  have hglength : (Vec.plus (Q.apply x) q).length = p.variableCount :=
    Vec.length_plus_of_length (hp.square.length_apply x) hp.linear
  rw [hp.objective_eq (Vec.length_plus_of_length hx hd), Vec.euclid_plus (hx.trans hd.symm),
    QuadraticModel.value_add hp.isSymmetric, Vec.dot_eq_inner hglength.le, hp.euclid_gradient,
    Vec.dot_eq_inner hd.le, hp.square.euclid_apply]

theorem length_constraints (hp : p.IsQuadratic Q A q b r) (hx : x.length = p.variableCount)
    {c : Vec ℝ} (hc : p.constraints x = .ok c) : c.length = b.length := by
  rw [← Except.ok.inj ((hp.constraints x hx).symm.trans hc)]
  exact Vec.length_minus_of_length (hp.hasShape.length_apply x) rfl

theorem constraints_step (hp : p.IsQuadratic Q A q b r) (hx : x.length = p.variableCount)
    (hd : d.length = p.variableCount) {c : Vec ℝ} (hc : p.constraints x = .ok c) :
    p.constraints (Vec.plus x d) = .ok (Vec.plus c (A.apply d)) := by
  obtain rfl := Except.ok.inj ((hp.constraints x hx).symm.trans hc)
  rw [hp.constraints _ (Vec.length_plus_of_length hx hd), hp.hasShape.residual_plus rfl hx hd]

theorem apply_minus_of_constraints (hp : p.IsQuadratic Q A q b r) {y c : Vec ℝ}
    (hx : x.length = p.variableCount) (hy : y.length = p.variableCount)
    (hcx : p.constraints x = .ok c) (hcy : p.constraints y = .ok c) :
    A.linear b.length p.variableCount
      (y.euclid p.variableCount - x.euclid p.variableCount) = 0 := by
  have hsame : Vec.minus (A.apply x) b = Vec.minus (A.apply y) b :=
    Except.ok.inj ((hp.constraints x hx).symm.trans
      (hcx.trans (hcy.symm.trans (hp.constraints y hy))))
  have hpoints := congrArg (Vec.euclid b.length) hsame
  rw [Vec.euclid_minus (hp.hasShape.length_apply x), Vec.euclid_minus (hp.hasShape.length_apply y),
    sub_left_inj, hp.hasShape.euclid_apply, hp.hasShape.euclid_apply] at hpoints
  rw [map_sub, hpoints, sub_self]

theorem exists_jacobianValues (hp : p.IsQuadratic Q A q b r) (hx : x.length = p.variableCount) :
    ∃ values, p.jacobianValues x = .ok values ∧ values.length = p.jacobianPattern.length ∧
      SparseMatrix.ofCoordinates b.length p.variableCount p.jacobianPattern values = .ok A := by
  have hA := hp.jacobian x hx
  obtain ⟨values, hvalues, -⟩ := Counted.except_bind_eq_ok.1 hA
  rw [hp.triangular.jacobian_eq hvalues] at hA
  refine ⟨values, hvalues, ?_, hA⟩
  by_contra hlength
  rw [SparseMatrix.ofCoordinates, if_neg fun hinside => hlength hinside.1.symm] at hA
  cases hA

end IsQuadratic

end Problem

end InfeasibilityControl
