import Mathlib

set_option autoImplicit false
set_option relaxedAutoImplicit false

/-!
The linear model `c + J d` of the constraints near a point.

With `g = Jᵀ c` the model comes down along `-g` until `t ‖J g‖² = ‖g‖²`, where it is least on that
line. It comes down along every segment that ends at a minimizer of `‖c + J d‖`. If the minimizer
is a zero of the model, the way along `-g` does not lead away from it either. Of the minimizers the
one that is orthogonal to the null space is the shortest.
-/

namespace InfeasibilityControl.LinearModel

open scoped InnerProductSpace

variable {E F : Type*} [NormedAddCommGroup E] [InnerProductSpace ℝ E] [NormedAddCommGroup F]
  [InnerProductSpace ℝ F] {J : E →ₗ[ℝ] F} {c : F} {g p q v : E} {s t : ℝ}

/-- The vector is the gradient of `½ ‖c + J d‖²` at zero. -/
def IsGradient (J : E →ₗ[ℝ] F) (c : F) (g : E) : Prop := ∀ v, ⟪g, v⟫_ℝ = ⟪c, J v⟫_ℝ

/-- Nothing makes the model smaller. -/
def IsMinimizer (J : E →ₗ[ℝ] F) (c : F) (q : E) : Prop := ∀ v, ‖c + J q‖ ≤ ‖c + J v‖

namespace IsGradient

theorem norm_sq (h : IsGradient J c g) : ‖g‖ ^ 2 = ⟪c, J g⟫_ℝ := by
  rw [← h g, real_inner_self_eq_norm_sq]

theorem norm_sq_le (h : IsGradient J c g) : ‖g‖ ^ 2 ≤ ‖c‖ * ‖J g‖ := by
  rw [h.norm_sq]
  exact real_inner_le_norm c (J g)

theorem image_ne_zero (h : IsGradient J c g) (hg : g ≠ 0) : J g ≠ 0 := by
  intro himage
  have hzero : ‖g‖ ^ 2 = 0 := by
    rw [h.norm_sq, himage, inner_zero_right]
  exact hg (norm_eq_zero.1 (pow_eq_zero_iff two_ne_zero |>.1 hzero))

theorem image_norm_sq_pos (h : IsGradient J c g) (hg : g ≠ 0) : 0 < ‖J g‖ ^ 2 :=
  pow_pos (norm_pos_iff.2 (h.image_ne_zero hg)) 2

theorem model_sq (h : IsGradient J c g) (t : ℝ) :
    ‖c - t • J g‖ ^ 2 = ‖c‖ ^ 2 - 2 * t * ‖g‖ ^ 2 + t ^ 2 * ‖J g‖ ^ 2 := by
  rw [norm_sub_sq_real, real_inner_smul_right, ← h.norm_sq, norm_smul, mul_pow, Real.norm_eq_abs,
    sq_abs]
  ring

theorem model_antitone (h : IsGradient J c g) (hts : t ≤ s) (hs : s * ‖J g‖ ^ 2 ≤ ‖g‖ ^ 2) :
    ‖c - s • J g‖ ≤ ‖c - t • J g‖ := by
  have htg : t * ‖J g‖ ^ 2 ≤ ‖g‖ ^ 2 :=
    (mul_le_mul_of_nonneg_right hts (sq_nonneg ‖J g‖)).trans hs
  have hproduct : 0 ≤ (s - t) * (2 * ‖g‖ ^ 2 - (s + t) * ‖J g‖ ^ 2) :=
    mul_nonneg (sub_nonneg.2 hts) (by linarith)
  have hsquare : ‖c - s • J g‖ ^ 2 ≤ ‖c - t • J g‖ ^ 2 := by
    rw [h.model_sq, h.model_sq]
    linarith
  exact (sq_le_sq₀ (norm_nonneg _) (norm_nonneg _)).1 hsquare

theorem model_lt (h : IsGradient J c g) (hg : g ≠ 0) (hpos : 0 < s)
    (hs : s * ‖J g‖ ^ 2 ≤ ‖g‖ ^ 2) : ‖c - s • J g‖ < ‖c‖ := by
  have hgradient : 0 < ‖g‖ ^ 2 := pow_pos (norm_pos_iff.2 hg) 2
  have hproduct : 0 < s * (2 * ‖g‖ ^ 2 - s * ‖J g‖ ^ 2) := mul_pos hpos (by linarith)
  have hsquare : ‖c - s • J g‖ ^ 2 < ‖c‖ ^ 2 := by
    rw [h.model_sq]
    linarith
  exact (sq_lt_sq₀ (norm_nonneg _) (norm_nonneg _)).1 hsquare

theorem model_least (h : IsGradient J c g) (hs : s * ‖J g‖ ^ 2 = ‖g‖ ^ 2) (t : ℝ) :
    ‖c - s • J g‖ ≤ ‖c - t • J g‖ := by
  have hsquare : ‖c - s • J g‖ ^ 2 ≤ ‖c - t • J g‖ ^ 2 := by
    rw [h.model_sq, h.model_sq, ← hs]
    linarith [mul_nonneg (sq_nonneg (s - t)) (sq_nonneg ‖J g‖)]
  exact (sq_le_sq₀ (norm_nonneg _) (norm_nonneg _)).1 hsquare

theorem inner_zero (h : IsGradient J c g) (hq : c + J q = 0) : ⟪g, q⟫_ℝ = -‖c‖ ^ 2 := by
  rw [h q, eq_neg_of_add_eq_zero_right hq, inner_neg_right, real_inner_self_eq_norm_sq]

theorem ne_zero (h : IsGradient J c g) (hq : c + J q = 0) (hc : c ≠ 0) : g ≠ 0 := by
  intro hg
  have hsquare := h.inner_zero hq
  rw [hg, inner_zero_left] at hsquare
  have hpos : 0 < ‖c‖ ^ 2 := pow_pos (norm_pos_iff.2 hc) 2
  linarith

/-- As long as the model comes down along the negative gradient, a zero of the model comes no
farther away. -/
theorem distance_le (h : IsGradient J c g) (hq : c + J q = 0) (ht : 0 ≤ t)
    (htg : t * ‖J g‖ ^ 2 ≤ ‖g‖ ^ 2) : ‖q + t • g‖ ≤ ‖q‖ := by
  have hbound : t * ‖g‖ ^ 2 ≤ ‖c‖ ^ 2 := by
    have hroot := h.norm_sq_le
    have hscaled : (t * ‖J g‖) * ‖J g‖ ≤ ‖c‖ * ‖J g‖ := by
      calc (t * ‖J g‖) * ‖J g‖ = t * ‖J g‖ ^ 2 := by ring
        _ ≤ ‖g‖ ^ 2 := htg
        _ ≤ ‖c‖ * ‖J g‖ := hroot
    obtain hzero | hpos := (norm_nonneg (J g)).eq_or_lt
    · rw [← hzero, mul_zero] at hroot
      have hg : ‖g‖ ^ 2 = 0 := le_antisymm hroot (sq_nonneg _)
      rw [hg, mul_zero]
      exact sq_nonneg _
    · have hlength : t * ‖J g‖ ≤ ‖c‖ := le_of_mul_le_mul_right hscaled hpos
      calc t * ‖g‖ ^ 2 ≤ t * (‖c‖ * ‖J g‖) := mul_le_mul_of_nonneg_left hroot ht
        _ = (t * ‖J g‖) * ‖c‖ := by ring
        _ ≤ ‖c‖ * ‖c‖ := mul_le_mul_of_nonneg_right hlength (norm_nonneg c)
        _ = ‖c‖ ^ 2 := by ring
  have hsquare : ‖q + t • g‖ ^ 2 ≤ ‖q‖ ^ 2 := by
    rw [norm_add_sq_real, real_inner_smul_right, real_inner_comm, h.inner_zero hq, norm_smul,
      mul_pow, Real.norm_eq_abs, sq_abs]
    have hproduct : t * (t * ‖g‖ ^ 2) ≤ t * ‖c‖ ^ 2 := mul_le_mul_of_nonneg_left hbound ht
    linarith [mul_nonneg ht (sq_nonneg ‖c‖)]
  exact (sq_le_sq₀ (norm_nonneg _) (norm_nonneg _)).1 hsquare

end IsGradient

theorem IsMinimizer.segment_le (h : IsMinimizer J c q) (ht : 0 ≤ t) (hone : t ≤ 1) :
    ‖c + J (p + t • (q - p))‖ ≤ ‖c + J p‖ := by
  have hpoint : c + J (p + t • (q - p)) = (1 - t) • (c + J p) + t • (c + J q) := by
    simp only [map_add, map_smul, map_sub, smul_add, smul_sub, sub_smul, one_smul]
    abel
  calc ‖c + J (p + t • (q - p))‖ = ‖(1 - t) • (c + J p) + t • (c + J q)‖ := by rw [hpoint]
    _ ≤ ‖(1 - t) • (c + J p)‖ + ‖t • (c + J q)‖ := norm_add_le _ _
    _ = (1 - t) * ‖c + J p‖ + t * ‖c + J q‖ := by
      rw [norm_smul, norm_smul, Real.norm_of_nonneg (sub_nonneg.2 hone), Real.norm_of_nonneg ht]
    _ ≤ (1 - t) * ‖c + J p‖ + t * ‖c + J p‖ :=
      add_le_add_right (mul_le_mul_of_nonneg_left (h p) ht) _
    _ = ‖c + J p‖ := by ring

theorem IsMinimizer.sub_mem_ker (hq : IsMinimizer J c q) (hv : IsMinimizer J c v) :
    v - q ∈ LinearMap.ker J := by
  have hsame : ‖c + J v‖ = ‖c + J q‖ := le_antisymm (hv q) (hq v)
  have hmiddle : (2 : ℝ)⁻¹ • ((c + J v) + (c + J q)) = c + J ((2 : ℝ)⁻¹ • (v + q)) := by
    rw [map_smul, map_add]
    module
  have hsum : 2 * ‖c + J q‖ ≤ ‖(c + J v) + (c + J q)‖ := by
    have hleast := hq ((2 : ℝ)⁻¹ • (v + q))
    rw [← hmiddle, norm_smul, norm_inv, Real.norm_ofNat] at hleast
    linarith
  have hlaw := parallelogram_law_with_norm ℝ (c + J v) (c + J q)
  rw [hsame, add_sub_add_left_eq_sub, ← map_sub] at hlaw
  have hsquare := mul_self_le_mul_self (mul_nonneg two_pos.le (norm_nonneg (c + J q))) hsum
  have hzero : ‖J (v - q)‖ * ‖J (v - q)‖ ≤ 0 := by linarith
  exact LinearMap.mem_ker.2 (norm_eq_zero.1 (mul_self_eq_zero.1
    (le_antisymm hzero (mul_self_nonneg _))))

theorem IsMinimizer.norm_le (hq : IsMinimizer J c q) (horthogonal : q ∈ (LinearMap.ker J)ᗮ)
    (hv : IsMinimizer J c v) : ‖q‖ ≤ ‖v‖ := by
  have hinner : ⟪q, v - q⟫_ℝ = 0 :=
    (Submodule.mem_orthogonal' _ q).1 horthogonal _ (hq.sub_mem_ker hv)
  have hsquare : ‖v‖ ^ 2 = ‖q‖ ^ 2 + ‖v - q‖ ^ 2 := by
    conv_lhs => rw [← add_sub_cancel q v, norm_add_sq_real, hinner]
    ring
  refine (sq_le_sq₀ (norm_nonneg q) (norm_nonneg v)).1 ?_
  linarith [sq_nonneg ‖v - q‖]

theorem exists_minimizer [FiniteDimensional ℝ E] [FiniteDimensional ℝ F] (J : E →ₗ[ℝ] F) (c : F) :
    ∃ q, IsMinimizer J c q ∧ q ∈ (LinearMap.ker J)ᗮ := by
  obtain ⟨x, hx⟩ := (LinearMap.range J).starProjection_apply_mem (-c)
  let q := (LinearMap.ker J)ᗮ.starProjection x
  have himage : J q = J x := by
    have hrest := Submodule.sub_starProjection_mem_orthogonal (K := (LinearMap.ker J)ᗮ) x
    rw [Submodule.orthogonal_orthogonal, LinearMap.mem_ker, map_sub, sub_eq_zero] at hrest
    exact hrest.symm
  refine ⟨q, fun v => ?_, Submodule.starProjection_apply_mem _ _⟩
  have hresidual : c + J q ∈ (LinearMap.range J)ᗮ := by
    have hrest := Submodule.sub_starProjection_mem_orthogonal (K := LinearMap.range J) (-c)
    rw [← hx, ← himage, ← neg_add', Submodule.neg_mem_iff] at hrest
    exact hrest
  have hinner : ⟪c + J q, J (v - q)⟫_ℝ = 0 :=
    (Submodule.mem_orthogonal' _ _).1 hresidual _ (LinearMap.mem_range_self J _)
  have hsplit : c + J v = c + J q + J (v - q) := by
    rw [map_sub]
    abel
  refine (sq_le_sq₀ (norm_nonneg _) (norm_nonneg _)).1 ?_
  rw [hsplit, norm_add_sq_real (c + J q), hinner]
  linarith [sq_nonneg ‖J (v - q)‖]

end InfeasibilityControl.LinearModel
