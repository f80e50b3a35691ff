import Mathlib
import InfeasibilityControl.Proofs.Exact.LeastSquares
import InfeasibilityControl.Proofs.Exact.NullSpace

set_option autoImplicit false
set_option relaxedAutoImplicit false

/-!
What the least-squares recurrence knows of its residual, in exact arithmetic.

The two families of vectors that it makes are orthonormal, so that the numbers which it carries
along are what they stand for: after every step the residual, what the transpose makes of it and the
solution have just the norms that the tests take them to have.
-/

namespace InfeasibilityControl.LeastSquares

open scoped InnerProductSpace

/-- A rotation takes the pair `(a, b)` to `(rho, 0)`. -/
structure IsRotation (a b c sn rho : ℝ) : Prop where
  first : c * rho = a
  second : sn * rho = b
  unit : c * c + sn * sn = 1
  length : rho ≠ 0

theorem sign_mul_self {a : ℝ} (h : a ≠ 0) : Scalar.sign a * Scalar.sign a = 1 := by
  obtain hneg | hpos := lt_or_gt_of_ne h
  · simp [Scalar.sign, hneg, hneg.not_gt]
  · simp [Scalar.sign, hpos]

theorem sign_mul_abs (a : ℝ) : Scalar.sign a * Scalar.abs a = a := by
  have habs : Scalar.abs a = |a| := rfl
  rw [habs]
  obtain hneg | rfl | hpos := lt_trichotomy a 0
  · simp [Scalar.sign, hneg, hneg.not_gt, abs_of_neg hneg]
  · simp
  · simp [Scalar.sign, hpos, abs_of_pos hpos]

theorem isRotation_rotation {a b : ℝ} (ha : a ≠ 0) :
    IsRotation a b (rotation a b).1 (rotation a b).2.1 (rotation a b).2.2 := by
  have hroot : ∀ t : ℝ, Scalar.sqrt (1 + t * t) * Scalar.sqrt (1 + t * t) = 1 + t * t := fun t =>
    Real.mul_self_sqrt (by linarith [mul_self_nonneg t])
  have hunit : ∀ {d : ℝ}, d ≠ 0 → ∀ t : ℝ,
      (Scalar.sign d / Scalar.sqrt (1 + t * t)) * (Scalar.sign d / Scalar.sqrt (1 + t * t)) *
        (1 + t * t) = 1 := by
    intro d hd t
    rw [div_mul_div_comm, sign_mul_self hd, hroot, one_div,
      inv_mul_cancel₀ (by linarith [mul_self_nonneg t])]
  have hquotient : ∀ {d : ℝ}, d ≠ 0 → ∀ t : ℝ, Scalar.sign d / Scalar.sqrt (1 + t * t) ≠ 0 :=
    fun hd t => div_ne_zero (sign_ne_zero hd) (sqrt_one_add_pos t).ne'
  have hlength := rotation_ne_zero (b := b) ha
  unfold rotation at hlength ⊢
  by_cases hb : b = 0
  · simp only [Scalar.real_beq, hb, decide_true, if_true] at hlength ⊢
    exact ⟨sign_mul_abs a, zero_mul _, by rw [sign_mul_self ha, mul_zero, add_zero], hlength⟩
  simp only [Scalar.real_beq, ha, hb, decide_false, Bool.false_eq_true, if_false] at hlength ⊢
  split_ifs with hless
  · rw [if_pos hless] at hlength
    have hs := hquotient hb (a / b)
    have hone := hunit hb (a / b)
    dsimp only at hlength ⊢
    generalize Scalar.sign b / Scalar.sqrt (1 + a / b * (a / b)) = s at hs hone hlength
    refine ⟨?_, mul_div_cancel₀ b hs, ?_, hlength⟩
    · field_simp
    · linear_combination hone
  · rw [if_neg hless] at hlength
    have hc := hquotient ha (b / a)
    have hone := hunit ha (b / a)
    dsimp only at hlength ⊢
    generalize Scalar.sign a / Scalar.sqrt (1 + b / a * (b / a)) = c at hc hone hlength
    refine ⟨mul_div_cancel₀ a hc, ?_, ?_, hlength⟩
    · field_simp
    · linear_combination hone

section

variable {E F : Type*} [NormedAddCommGroup E] [InnerProductSpace ℝ E] [NormedAddCommGroup F]
  [InnerProductSpace ℝ F] {L : E →ₗ[ℝ] F} {T : F →ₗ[ℝ] E} {u : F} {v : E} {alpha : ℝ}
  {S : Submodule ℝ F} {R : Submodule ℝ E}

/-- The present vectors of the two bases, and the spaces that the earlier ones span. Each operator
takes what is spanned on its side to what is spanned on the other. -/
structure Bases (L : E →ₗ[ℝ] F) (T : F →ₗ[ℝ] E) (u : F) (v : E) (alpha : ℝ) (S : Submodule ℝ F)
    (R : Submodule ℝ E) : Prop where
  left_unit : ‖u‖ = 1
  right_unit : ‖v‖ = 1
  left_orthogonal : u ∈ Sᗮ
  right_orthogonal : v ∈ Rᗮ
  image : ∀ x ∈ R, L x ∈ S ⊔ ℝ ∙ u
  back : ∀ y ∈ S, T y ∈ R
  back_left : T u - alpha • v ∈ R

theorem Bases.first (hu : ‖u‖ = 1) (hv : ‖v‖ = 1) (hback : T u = alpha • v) :
    Bases L T u v alpha ⊥ ⊥ := by
  refine ⟨hu, hv, ?_, ?_, fun x hx => ?_, fun y hy => ?_, ?_⟩
  · rw [Submodule.bot_orthogonal_eq_top]
    exact Submodule.mem_top
  · rw [Submodule.bot_orthogonal_eq_top]
    exact Submodule.mem_top
  · rw [(Submodule.mem_bot ℝ).1 hx, map_zero]
    exact Submodule.zero_mem _
  · rw [(Submodule.mem_bot ℝ).1 hy, map_zero]
    exact Submodule.zero_mem _
  · rw [hback, sub_self]
    exact Submodule.zero_mem _

theorem Bases.finrank_next [FiniteDimensional ℝ E] (h : Bases L T u v alpha S R) :
    Module.finrank ℝ ↥(R ⊔ ℝ ∙ v) = Module.finrank ℝ R + 1 := by
  refine Submodule.finrank_sup_span_singleton fun hmem => ?_
  have hzero := (Submodule.mem_orthogonal' R v).1 h.right_orthogonal v hmem
  rw [real_inner_self_eq_norm_sq, h.right_unit] at hzero
  norm_num at hzero

theorem mem_orthogonal_sup_singleton {K : Submodule ℝ E} {x y : E} (hx : x ∈ Kᗮ)
    (hy : ⟪x, y⟫_ℝ = 0) : x ∈ (K ⊔ ℝ ∙ y)ᗮ := by
  rw [← Submodule.inf_orthogonal]
  exact ⟨hx, Submodule.mem_orthogonal_singleton_iff_inner_left.2 hy⟩

variable (hadjoint : ∀ y x, ⟪T y, x⟫_ℝ = ⟪y, L x⟫_ℝ)

include hadjoint

/-- What is left of the image besides the present left vector is orthogonal to all left vectors. -/
theorem Bases.left_next (h : Bases L T u v alpha S R) :
    L v - alpha • u ∈ (S ⊔ ℝ ∙ u)ᗮ := by
  have hvR := (Submodule.mem_orthogonal' R v).1 h.right_orthogonal
  have huS := (Submodule.mem_orthogonal' S u).1 h.left_orthogonal
  have hback : ⟪v, T u⟫_ℝ = alpha := by
    have hrest := hvR _ h.back_left
    rw [inner_sub_right, real_inner_smul_right, real_inner_self_eq_norm_sq, h.right_unit] at hrest
    linarith
  refine mem_orthogonal_sup_singleton ((Submodule.mem_orthogonal' S _).2 fun y hy => ?_) ?_
  · rw [inner_sub_left, real_inner_comm, ← hadjoint, real_inner_comm, hvR _ (h.back y hy),
      real_inner_smul_left, huS y hy, mul_zero, sub_zero]
  · rw [inner_sub_left, real_inner_comm, ← hadjoint, real_inner_comm, hback,
      real_inner_smul_left, real_inner_self_eq_norm_sq, h.left_unit]
    ring

theorem Bases.norm_image_sq (h : Bases L T u v alpha S R) :
    ‖L v‖ ^ 2 = alpha ^ 2 + ‖L v - alpha • u‖ ^ 2 := by
  have hu : ⟪alpha • u, L v - alpha • u⟫_ℝ = 0 :=
    (Submodule.mem_orthogonal _ _).1 (h.left_next hadjoint) _ (Submodule.smul_mem _ alpha
      (Submodule.mem_sup_right (Submodule.mem_span_singleton_self u)))
  conv_lhs => rw [← add_sub_cancel (alpha • u) (L v), norm_add_sq_real, hu]
  rw [norm_smul, mul_pow, Real.norm_eq_abs, sq_abs, h.left_unit]
  ring

/-- What is left of the image of the next left vector besides the present right vector is orthogonal
to all right vectors. -/
theorem Bases.right_next (h : Bases L T u v alpha S R) {u' : F} {beta : ℝ}
    (hu' : u' ∈ (S ⊔ ℝ ∙ u)ᗮ) (hunit : ‖u'‖ = 1) (himage : L v = alpha • u + beta • u') :
    T u' - beta • v ∈ (R ⊔ ℝ ∙ v)ᗮ := by
  have hvR := (Submodule.mem_orthogonal' R v).1 h.right_orthogonal
  have huS := (Submodule.mem_orthogonal' _ u').1 hu'
  have hu : ⟪u', u⟫_ℝ = 0 :=
    huS u (Submodule.mem_sup_right (Submodule.mem_span_singleton_self u))
  refine mem_orthogonal_sup_singleton ((Submodule.mem_orthogonal' R _).2 fun x hx => ?_) ?_
  · rw [inner_sub_left, hadjoint, huS _ (h.image x hx), real_inner_smul_left, hvR x hx, mul_zero,
      sub_zero]
  · rw [inner_sub_left, hadjoint, himage, inner_add_right, real_inner_smul_right,
      real_inner_smul_right, hu, real_inner_self_eq_norm_sq, hunit, real_inner_smul_left,
      real_inner_self_eq_norm_sq, h.right_unit]
    ring

omit hadjoint in
theorem Bases.next (h : Bases L T u v alpha S R) {u' : F} {v' : E} {alpha' beta : ℝ}
    (hleft : u' ∈ (S ⊔ ℝ ∙ u)ᗮ) (hright : v' ∈ (R ⊔ ℝ ∙ v)ᗮ) (hleftUnit : ‖u'‖ = 1)
    (hrightUnit : ‖v'‖ = 1) (himage : L v = alpha • u + beta • u')
    (hback : T u' = alpha' • v' + beta • v) :
    Bases L T u' v' alpha' (S ⊔ ℝ ∙ u) (R ⊔ ℝ ∙ v) := by
  have hmemS : S ⊔ ℝ ∙ u ≤ S ⊔ ℝ ∙ u ⊔ ℝ ∙ u' := le_sup_left
  have hmemR : R ≤ R ⊔ ℝ ∙ v := le_sup_left
  have hu : u ∈ S ⊔ ℝ ∙ u := Submodule.mem_sup_right (Submodule.mem_span_singleton_self u)
  have hv : v ∈ R ⊔ ℝ ∙ v := Submodule.mem_sup_right (Submodule.mem_span_singleton_self v)
  have hu' : u' ∈ S ⊔ ℝ ∙ u ⊔ ℝ ∙ u' :=
    Submodule.mem_sup_right (Submodule.mem_span_singleton_self u')
  refine ⟨hleftUnit, hrightUnit, hleft, hright, fun x hx => ?_, fun y hy => ?_, ?_⟩
  · obtain ⟨y, hy, z, hz, rfl⟩ := Submodule.mem_sup.1 hx
    obtain ⟨a, rfl⟩ := Submodule.mem_span_singleton.1 hz
    rw [map_add, map_smul, himage]
    exact Submodule.add_mem _ (hmemS (h.image y hy)) (Submodule.smul_mem _ a
      (Submodule.add_mem _ (Submodule.smul_mem _ _ (hmemS hu)) (Submodule.smul_mem _ _ hu')))
  · obtain ⟨x, hx, z, hz, rfl⟩ := Submodule.mem_sup.1 hy
    obtain ⟨a, rfl⟩ := Submodule.mem_span_singleton.1 hz
    have hTu : T u ∈ R ⊔ ℝ ∙ v := by
      rw [← sub_add_cancel (T u) (alpha • v)]
      exact Submodule.add_mem _ (hmemR h.back_left) (Submodule.smul_mem _ _ hv)
    rw [map_add, map_smul]
    exact Submodule.add_mem _ (hmemR (h.back x hx)) (Submodule.smul_mem _ a hTu)
  · rw [hback, add_sub_cancel_left]
    exact Submodule.smul_mem _ _ hv

omit hadjoint

variable {b p u' : F} {w x v' : E} {rhoBar phiBar beta c sn rho alpha' : ℝ}

/-- What is known of the residual of `x`: it is `phiBar` times a unit vector `p` that is spanned by
the left vectors and that the transpose takes to a multiple of the present right vector. -/
structure Follows (L : E →ₗ[ℝ] F) (T : F →ₗ[ℝ] E) (b u p : F) (v w x : E)
    (alpha rhoBar phiBar : ℝ) (S : Submodule ℝ F) : Prop where
  residual : b - L x = phiBar • p
  unit : ‖p‖ = 1
  spanned : p ∈ S ⊔ ℝ ∙ u
  back : T p = rhoBar • v
  direction : L w = L v - alpha • u + rhoBar • p

theorem Follows.first (hu : ‖u‖ = 1) (hb : phiBar • u = b) (hback : T u = alpha • v) :
    Follows L T b u u v v 0 alpha alpha phiBar ⊥ where
  residual := by rw [map_zero, sub_zero, hb]
  unit := hu
  spanned := Submodule.mem_sup_right (Submodule.mem_span_singleton_self u)
  back := hback
  direction := by rw [sub_add_cancel]

theorem Follows.image_direction (h : Follows L T b u p v w x alpha rhoBar phiBar S)
    (himage : L v = alpha • u + beta • u') : L w = beta • u' + rhoBar • p := by
  rw [h.direction, himage, add_sub_cancel_left]

theorem Follows.residual_next (h : Follows L T b u p v w x alpha rhoBar phiBar S)
    (hr : IsRotation rhoBar beta c sn rho) (himage : L v = alpha • u + beta • u') :
    b - L (x + (c * phiBar / rho) • w) = (sn * phiBar) • (sn • p - c • u') := by
  have hrho := hr.length
  have hone := hr.unit
  obtain ⟨rfl, rfl⟩ : c * rho = rhoBar ∧ sn * rho = beta := ⟨hr.first, hr.second⟩
  rw [map_add, map_smul, h.image_direction himage, ← sub_sub, h.residual]
  match_scalars
  · field_simp
    linear_combination -phiBar * hone
  · field_simp

/-- What the transpose makes of the unit vector of the next residual. -/
theorem Follows.back_next (h : Follows L T b u p v w x alpha rhoBar phiBar S)
    (hr : IsRotation rhoBar beta c sn rho) {x' : E} (hback : T u' = x' + beta • v) :
    T (sn • p - c • u') = -c • x' := by
  obtain ⟨rfl, rfl⟩ : c * rho = rhoBar ∧ sn * rho = beta := ⟨hr.first, hr.second⟩
  rw [map_sub, map_smul, map_smul, h.back, hback]
  module

theorem Follows.unit_next (h : Follows L T b u p v w x alpha rhoBar phiBar S)
    (hr : IsRotation rhoBar beta c sn rho) (hleft : u' ∈ (S ⊔ ℝ ∙ u)ᗮ) (hunit : ‖u'‖ = 1) :
    ‖sn • p - c • u'‖ = 1 := by
  have horthogonal : ⟪p, u'⟫_ℝ = 0 := (Submodule.mem_orthogonal _ u').1 hleft p h.spanned
  have hsquare : ‖sn • p - c • u'‖ ^ 2 = 1 := by
    rw [norm_sub_sq_real, real_inner_smul_left, real_inner_smul_right, horthogonal, norm_smul,
      norm_smul, h.unit, hunit, Real.norm_eq_abs, Real.norm_eq_abs, mul_one, mul_one, sq_abs,
      sq_abs]
    linear_combination hr.unit
  exact (pow_eq_one_iff_of_nonneg (norm_nonneg _) two_ne_zero).1 hsquare

theorem Follows.norm_image_direction_sq (h : Follows L T b u p v w x alpha rhoBar phiBar S)
    (horthogonal : L v - alpha • u ∈ (S ⊔ ℝ ∙ u)ᗮ)
    (hr : IsRotation rhoBar ‖L v - alpha • u‖ c sn rho) : ‖L w‖ ^ 2 = rho ^ 2 := by
  have hinner : ⟪L v - alpha • u, rhoBar • p⟫_ℝ = 0 :=
    (Submodule.mem_orthogonal' _ _).1 horthogonal _ (Submodule.smul_mem _ rhoBar h.spanned)
  rw [h.direction, norm_add_sq_real, hinner, norm_smul, h.unit, Real.norm_eq_abs, mul_one, sq_abs,
    ← hr.first, ← hr.second]
  linear_combination rho ^ 2 * hr.unit

theorem Follows.next (h : Follows L T b u p v w x alpha rhoBar phiBar S)
    (hr : IsRotation rhoBar beta c sn rho) (hleft : u' ∈ (S ⊔ ℝ ∙ u)ᗮ) (hunit : ‖u'‖ = 1)
    (himage : L v = alpha • u + beta • u') (hback : T u' = alpha' • v' + beta • v) :
    Follows L T b u' (sn • p - c • u') v' (v' + (-(sn * alpha') / rho) • w)
      (x + (c * phiBar / rho) • w) alpha' (-c * alpha') (sn * phiBar) (S ⊔ ℝ ∙ u) := by
  refine ⟨h.residual_next hr himage, h.unit_next hr hleft hunit, ?_, ?_, ?_⟩
  · exact Submodule.sub_mem _ (Submodule.smul_mem _ _ (Submodule.mem_sup_left h.spanned))
      (Submodule.smul_mem _ _ (Submodule.mem_sup_right (Submodule.mem_span_singleton_self u')))
  · rw [h.back_next hr hback, smul_smul]
  · have hrho := hr.length
    have hone := hr.unit
    rw [map_add, map_smul, h.image_direction himage, ← hr.first, ← hr.second]
    match_scalars
    · field_simp
    · field_simp
      linear_combination -alpha' * hone
    · field_simp

section

variable {X : E} {a d e : ℝ} (hXw : ⟪X, w⟫_ℝ = 0) (hXv : ⟪X, v⟫_ℝ = 0) (hwv : ⟪w, v⟫_ℝ = 0)
  (hv : ‖v‖ = 1)

include hXw hXv hwv hv

private theorem norm_sq_combination :
    ‖X + a • w + d • v‖ ^ 2 = ‖X‖ ^ 2 + a ^ 2 * ‖w‖ ^ 2 + d ^ 2 := by
  rw [norm_add_sq_real, norm_add_sq_real, inner_add_left, real_inner_smul_left,
    real_inner_smul_right, real_inner_smul_right, real_inner_smul_right, hXw, hXv, hwv, norm_smul,
    norm_smul, hv, mul_pow, Real.norm_eq_abs, Real.norm_eq_abs, sq_abs, mul_one, sq_abs]
  ring

private theorem inner_combination :
    ⟪X + a • w + d • v, v + e • w⟫_ℝ = d + a * e * ‖w‖ ^ 2 := by
  simp only [inner_add_left, inner_add_right, real_inner_smul_left, real_inner_smul_right, hXw,
    hXv, hwv, real_inner_comm w v, real_inner_self_eq_norm_sq, hv]
  ring

end

/-- What is known of the solution `x`: with the right multiple of the direction `w` it is orthogonal
to it, and of the norm that the recurrence has added up. -/
structure Measured (v w x : E) (cosine sine z solutionSum : ℝ) (R : Submodule ℝ E) : Prop where
  direction : w ∈ R ⊔ ℝ ∙ v
  direction_norm : cosine ^ 2 * ‖w‖ ^ 2 = 1
  solution : x + (sine * z) • w ∈ R ⊔ ℝ ∙ v
  orthogonal : ⟪x + (sine * z) • w, w⟫_ℝ = 0
  solution_norm : ‖x + (sine * z) • w‖ ^ 2 = solutionSum

theorem Measured.first (hv : ‖v‖ = 1) : Measured v v 0 (-1) 0 0 0 R := by
  refine ⟨Submodule.mem_sup_right (Submodule.mem_span_singleton_self v), ?_, ?_, ?_, ?_⟩
  · rw [hv]
    norm_num
  all_goals rw [zero_mul, zero_smul, add_zero]
  · exact Submodule.zero_mem _
  · exact inner_zero_left _
  · rw [norm_zero]
    norm_num

variable {cosine sine z solutionSum phi theta gamma : ℝ}

theorem Measured.cosine_ne_zero (h : Measured v w x cosine sine z solutionSum R) :
    cosine ≠ 0 := by
  intro hzero
  have hone := h.direction_norm
  rw [hzero] at hone
  norm_num at hone

theorem Measured.direction_norm_sq (h : Measured v w x cosine sine z solutionSum R) :
    ‖w‖ ^ 2 = 1 / cosine ^ 2 := by
  rw [eq_div_iff (pow_ne_zero 2 h.cosine_ne_zero), mul_comm, h.direction_norm]

theorem Measured.norm_next (h : Measured v w x cosine sine z solutionSum R) (hrho : rho ≠ 0)
    (phi : ℝ) :
    ‖x + (phi / rho) • w‖ ^ 2 =
      solutionSum + (phi - sine * rho * z) / (-cosine * rho) *
        ((phi - sine * rho * z) / (-cosine * rho)) := by
  have hsplit : x + (phi / rho) • w =
      (x + (sine * z) • w) + (phi / rho - sine * z) • w := by
    module
  have hcosine := h.cosine_ne_zero
  rw [hsplit, norm_add_sq_real, real_inner_smul_right, h.orthogonal, h.solution_norm, norm_smul,
    mul_pow, Real.norm_eq_abs, sq_abs, h.direction_norm_sq]
  field_simp
  ring

theorem Measured.length_ne_zero (h : Measured v w x cosine sine z solutionSum R) (hrho : rho ≠ 0)
    (hgamma : gamma ^ 2 = (-cosine * rho) * (-cosine * rho) + theta * theta) : gamma ≠ 0 := by
  intro hzero
  have hpos : 0 < (-cosine * rho) * (-cosine * rho) + theta * theta :=
    add_pos_of_pos_of_nonneg (mul_self_pos.2 (mul_ne_zero (neg_ne_zero.2 h.cosine_ne_zero) hrho))
      (mul_self_nonneg _)
  rw [← hgamma, hzero] at hpos
  norm_num at hpos

section

variable (hrho : rho ≠ 0) (hgamma : gamma ≠ 0)
  (hsquare : gamma ^ 2 = cosine ^ 2 * rho ^ 2 + theta ^ 2)

include hrho hgamma hsquare

private theorem combination_next (phi sine z : ℝ) (v' w x : E) :
    x + (phi / rho) • w +
      (theta / gamma * ((phi - sine * rho * z) / gamma)) • (v' + (-theta / rho) • w) =
      (x + (sine * z) • w) + ((phi - sine * rho * z) * cosine ^ 2 * rho / gamma ^ 2) • w +
        (theta * (phi - sine * rho * z) / gamma ^ 2) • v' := by
  match_scalars
  · ring
  · field_simp
    rw [hsquare]
    ring
  · field_simp

omit hrho in
private theorem sum_sq_next (q : ℝ) :
    (q * cosine ^ 2 * rho / gamma ^ 2) ^ 2 * (1 / cosine ^ 2) + (theta * q / gamma ^ 2) ^ 2 =
      q / gamma * (q / gamma) := by
  have hfactor : (q * cosine ^ 2 * rho / gamma ^ 2) ^ 2 * (1 / cosine ^ 2) +
      (theta * q / gamma ^ 2) ^ 2 =
        q ^ 2 * (cosine ^ 2 * rho ^ 2 + theta ^ 2) / gamma ^ 4 := by
    field_simp
  rw [hfactor, ← hsquare]
  field_simp

end

theorem Measured.next (h : Measured v w x cosine sine z solutionSum R) (hrho : rho ≠ 0)
    (hright : v' ∈ (R ⊔ ℝ ∙ v)ᗮ) (hunit : ‖v'‖ = 1)
    (hgamma : gamma ^ 2 = (-cosine * rho) * (-cosine * rho) + theta * theta) :
    Measured v' (v' + (-theta / rho) • w) (x + (phi / rho) • w) (-cosine * rho / gamma)
      (theta / gamma) ((phi - sine * rho * z) / gamma)
      (solutionSum + (phi - sine * rho * z) / gamma * ((phi - sine * rho * z) / gamma))
      (R ⊔ ℝ ∙ v) := by
  have hcosine := h.cosine_ne_zero
  have hgammaNe := h.length_ne_zero hrho hgamma
  have hsquare : gamma ^ 2 = cosine ^ 2 * rho ^ 2 + theta ^ 2 := by
    rw [hgamma]
    ring
  have hw : ⟪w, v'⟫_ℝ = 0 := (Submodule.mem_orthogonal _ v').1 hright w h.direction
  have hX : ⟪x + (sine * z) • w, v'⟫_ℝ = 0 :=
    (Submodule.mem_orthogonal _ v').1 hright _ h.solution
  have hwNorm := h.direction_norm_sq
  have hv' : v' ∈ R ⊔ ℝ ∙ v ⊔ ℝ ∙ v' :=
    Submodule.mem_sup_right (Submodule.mem_span_singleton_self v')
  have hle : R ⊔ ℝ ∙ v ≤ R ⊔ ℝ ∙ v ⊔ ℝ ∙ v' := le_sup_left
  have hsplit := combination_next hrho hgammaNe hsquare phi sine z v' w x
  refine ⟨?_, ?_, ?_, ?_, ?_⟩
  · exact Submodule.add_mem _ hv' (Submodule.smul_mem _ _ (hle h.direction))
  · rw [norm_add_sq_real, real_inner_smul_right, real_inner_comm, hw, hunit, norm_smul, mul_pow,
      Real.norm_eq_abs, sq_abs, hwNorm]
    field_simp
    rw [hsquare]
    ring
  · rw [hsplit]
    exact Submodule.add_mem _ (Submodule.add_mem _ (hle h.solution)
      (Submodule.smul_mem _ _ (hle h.direction))) (Submodule.smul_mem _ _ hv')
  · rw [hsplit, inner_combination h.orthogonal hX hw hunit, hwNorm]
    field_simp
    ring
  · rw [hsplit, norm_sq_combination h.orthogonal hX hw hunit, hwNorm, h.solution_norm, add_assoc,
      sum_sq_next hgammaNe hsquare]

end

end InfeasibilityControl.LeastSquares
