import Mathlib
import InfeasibilityControl.Proofs.Completion
import InfeasibilityControl.Proofs.Exact.ModelDecrease

set_option autoImplicit false
set_option relaxedAutoImplicit false

/-!
The projection onto the null space of a Jacobian, in exact arithmetic.

The combinations of the rows that come closest to a vector are those whose residual the Jacobian
takes to zero. There may be several, but they leave the same residual, which is the orthogonal
projection of the vector onto the null space.
-/

namespace InfeasibilityControl

open Counted (Always)
open scoped InnerProductSpace

namespace LinearModel

variable {E F : Type*} [NormedAddCommGroup E] [InnerProductSpace ℝ E] [NormedAddCommGroup F]
  [InnerProductSpace ℝ F] {T : F →ₗ[ℝ] E} {J : E →ₗ[ℝ] F} {c : E} {w : F}

theorem isMinimizer_iff_of_adjoint (hadjoint : ∀ u x, ⟪T u, x⟫_ℝ = ⟪u, J x⟫_ℝ) :
    IsMinimizer T c w ↔ J (c + T w) = 0 := by
  have hgradient : IsGradient T (c + T w) (J (c + T w)) := by
    intro u
    rw [real_inner_comm, ← hadjoint, real_inner_comm]
  constructor
  · intro hleast
    by_contra hsteep
    have hpos := hgradient.image_norm_sq_pos hsteep
    let s := ‖J (c + T w)‖ ^ 2 / ‖T (J (c + T w))‖ ^ 2
    have hs : 0 < s := div_pos (pow_pos (norm_pos_iff.2 hsteep) 2) hpos
    have hless : ‖c + T w - s • T (J (c + T w))‖ < ‖c + T w‖ :=
      hgradient.model_lt hsteep hs (div_mul_cancel₀ _ hpos.ne').le
    have hstep : c + T w - s • T (J (c + T w)) = c + T (w - s • J (c + T w)) := by
      rw [map_sub, map_smul, add_sub_assoc]
    rw [hstep] at hless
    exact absurd (hleast _) (not_le.2 hless)
  · intro hzero u
    have hright : ⟪c + T w, T (u - w)⟫_ℝ = 0 := by
      rw [← hgradient, hzero, inner_zero_left]
    have hsplit : c + T u = c + T w + T (u - w) := by
      rw [map_sub]
      abel
    have hsquare : ‖c + T w‖ ^ 2 ≤ ‖c + T u‖ ^ 2 := by
      rw [hsplit, norm_add_sq_real (c + T w), hright]
      linarith [sq_nonneg ‖T (u - w)‖]
    exact (sq_le_sq₀ (norm_nonneg _) (norm_nonneg _)).1 hsquare

end LinearModel

namespace SparseMatrix

/-- No combination of the rows of `J` comes closer to `v`: the weights `w` minimize `‖Jᵀ w - v‖`. -/
structure Approximates (J : SparseMatrix ℝ) (v w : Vec ℝ) : Prop where
  length : w.length = J.rowCount
  least : ∀ u : Vec ℝ, u.length = J.rowCount →
    Vec.norm (Vec.minus (J.applyTransposed w) v) ≤ Vec.norm (Vec.minus (J.applyTransposed u) v)

/-- The least-squares solver finds a minimizer of `‖Jᵀ w - v‖`, some or other. -/
def SolvesTransposed (J : SparseMatrix ℝ) (tolerances : LeastSquares.Tolerances ℝ) (v : Vec ℝ) :
    Prop :=
  ∀ s, LeastSquares.solve J.operator.transpose v tolerances none = .ok s →
    J.Approximates v s.vector

/-- The vector is a combination of the rows of `J`. -/
def InRowSpace (J : SparseMatrix ℝ) (v : Vec ℝ) : Prop :=
  ∃ w : Vec ℝ, w.length = J.rowCount ∧ J.applyTransposed w = v

variable {J : SparseMatrix ℝ} {m n : Nat} {t v w : Vec ℝ}
  {tolerances : LeastSquares.Tolerances ℝ}

theorem HasShape.euclid_applyTransposed (h : J.HasShape m n) (w : Vec ℝ) :
    (J.applyTransposed w).euclid n = LinearMap.adjoint (J.linear m n) (w.euclid m) := by
  refine ext_inner_right ℝ fun x => ?_
  rw [h.inner_applyTransposed, LinearMap.adjoint_inner_left]

theorem HasShape.approximates_iff (h : J.HasShape m n) (hv : v.length = n) (hw : w.length = m) :
    J.Approximates v w ↔ J.linear m n (v.euclid n - (J.applyTransposed w).euclid n) = 0 := by
  have hnorm : ∀ u : Vec ℝ, Vec.norm (Vec.minus (J.applyTransposed u) v) =
      ‖-v.euclid n + LinearMap.adjoint (J.linear m n) (u.euclid m)‖ := by
    intro u
    have hlength := h.length_applyTransposed u
    rw [Vec.norm_eq (Vec.length_minus_of_length hlength hv).le,
      Vec.euclid_minus (hlength.trans hv.symm), h.euclid_applyTransposed, sub_eq_neg_add]
  have hzero : J.linear m n (v.euclid n - (J.applyTransposed w).euclid n) = 0 ↔
      J.linear m n (-v.euclid n + LinearMap.adjoint (J.linear m n) (w.euclid m)) = 0 := by
    rw [h.euclid_applyTransposed, ← neg_eq_zero, ← map_neg, neg_sub, sub_eq_neg_add]
  rw [hzero, ← LinearModel.isMinimizer_iff_of_adjoint fun u x =>
    LinearMap.adjoint_inner_left (J.linear m n) x u]
  constructor
  · intro hnearest x
    obtain ⟨u, hu, rfl⟩ := Vec.exists_euclid x
    rw [← hnorm, ← hnorm]
    exact hnearest.least u (hu.trans h.rowCount.symm)
  · intro hleast
    refine ⟨hw.trans h.rowCount.symm, fun u _ => ?_⟩
    rw [hnorm, hnorm]
    exact hleast (u.euclid m)

theorem Approximates.euclid_residual (ha : J.Approximates v w) (h : J.HasShape m n)
    (hv : v.length = n) : (Vec.minus v (J.applyTransposed w)).euclid n =
      (LinearMap.ker (J.linear m n)).starProjection (v.euclid n) := by
  have hw : w.length = m := ha.length.trans h.rowCount
  rw [Vec.euclid_minus (hv.trans (h.length_applyTransposed w).symm)]
  refine (Submodule.eq_starProjection_of_mem_of_inner_eq_zero ?_ ?_).symm
  · exact LinearMap.mem_ker.2 ((h.approximates_iff hv hw).1 ha)
  · intro x hx
    rw [sub_sub_cancel, h.inner_applyTransposed, LinearMap.mem_ker.1 hx, inner_zero_right]

theorem Approximates.inRowSpace (ha : J.Approximates v w) (h : J.HasShape m n)
    (hv : v.length = n) (hzero : (Vec.minus v (J.applyTransposed w)).euclid n = 0) :
    J.InRowSpace v := by
  have himage := h.length_applyTransposed w
  rw [Vec.euclid_minus (hv.trans himage.symm), sub_eq_zero, Vec.euclid_inj hv himage] at hzero
  exact ⟨w, ha.length, hzero.symm⟩

theorem HasShape.always_projectOntoNullSpace (h : J.HasShape m n)
    (hsolves : J.SolvesTransposed tolerances v) (hv : v.length = n) :
    ∃ w, J.Approximates v w ∧ Always (J.projectOntoNullSpace v tolerances none)
      (Vec.minus v (J.applyTransposed w)) := by
  obtain ⟨t, ht, -⟩ := (h.projectOntoNullSpace hv).exists_always projectOntoNullSpace_isBlind
  obtain ⟨l', hreturns⟩ := ht Ledger.empty
  simp only [SparseMatrix.projectOntoNullSpace, Counted.returns_bind,
    Counted.returns_except] at hreturns
  obtain ⟨s, _, hs, image, _, himage, hresidual, -⟩ := hreturns
  obtain ⟨⟨-, rfl⟩, -⟩ := transposedProduct_returns himage
  have hlength := h.length_applyTransposed s.vector
  rw [Vec.subtract_of_length (hv.trans hlength.symm)] at hresidual
  cases hresidual
  exact ⟨s.vector, hsolves s (transposedLeastSquares_returns hs).1, ht⟩

theorem HasShape.always_projectOntoNullSpace_self (h : J.HasShape m n)
    (hsolves : J.SolvesTransposed tolerances v) (hv : v.length = n)
    (hnull : J.linear m n (v.euclid n) = 0) :
    Always (J.projectOntoNullSpace v tolerances none) v := by
  obtain ⟨w, ha, hreturns⟩ := h.always_projectOntoNullSpace hsolves hv
  have hresidual := ha.euclid_residual h hv
  rw [Submodule.starProjection_eq_self_iff.2 (LinearMap.mem_ker.2 hnull),
    Vec.euclid_inj (Vec.length_minus_of_length hv (h.length_applyTransposed w)) hv] at hresidual
  rwa [hresidual] at hreturns

end SparseMatrix

end InfeasibilityControl
