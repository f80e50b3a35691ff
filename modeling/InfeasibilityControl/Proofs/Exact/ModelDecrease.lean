import Mathlib
import InfeasibilityControl.Proofs.Exact.DoglegPath
import InfeasibilityControl.Proofs.Exact.LinearModel
import InfeasibilityControl.Proofs.Trial

set_option autoImplicit false
set_option relaxedAutoImplicit false

/-!
The dogleg step and the linear model `c + J d` of the constraints.

Inside its region the step makes the model at least as small as any step along `-g`, where
`g = Jᵀ c`, and smaller than it is at zero. A normal step whose least-squares problems are solved
therefore predicts a reduction at every trial.
-/

namespace InfeasibilityControl

open Counted (Returns)

namespace LinearModel

variable {E F : Type*} [NormedAddCommGroup E] [InnerProductSpace ℝ E] [NormedAddCommGroup F]
  [InnerProductSpace ℝ F] {J : E →ₗ[ℝ] F} {c : F} {g q d : E} {radius t : ℝ}

/-- Where the path from zero along `-g` to the least value of the model there, and on to `q`, may
end in a region. -/
inductive PathEnd (J : E →ₗ[ℝ] F) (g q : E) (radius : ℝ) : E → Prop
  | whole (inside : ‖q‖ ≤ radius) : PathEnd J g q radius q
  | descent {s : ℝ} (outside : radius < ‖q‖) (length : s * ‖g‖ = radius)
      (short : s * ‖J g‖ ^ 2 ≤ ‖g‖ ^ 2) : PathEnd J g q radius (-(s • g))
  | leg {s r : ℝ} (outside : radius < ‖q‖) (least : s * ‖J g‖ ^ 2 = ‖g‖ ^ 2) (pos : 0 < r)
      (lt_one : r < 1) (boundary : ‖-(s • g) + r • (q - -(s • g))‖ = radius) :
      PathEnd J g q radius (-(s • g) + r • (q - -(s • g)))

namespace PathEnd

theorem eq_of_inside (hend : PathEnd J g q radius d) (inside : ‖q‖ ≤ radius) : d = q := by
  cases hend with
  | whole inside => rfl
  | descent outside length short => exact absurd inside (not_le.2 outside)
  | leg outside least pos lt_one boundary => exact absurd inside (not_le.2 outside)

theorem norm_eq (hend : PathEnd J g q radius d) (hg : g ≠ 0) (hradius : 0 ≤ radius)
    (outside : radius < ‖q‖) : ‖d‖ = radius := by
  cases hend with
  | whole inside => exact absurd outside (not_lt.2 inside)
  | @descent s outside length short =>
    have hs : 0 ≤ s := nonneg_of_mul_nonneg_left (length ▸ hradius) (norm_pos_iff.2 hg)
    rw [norm_neg, norm_smul, Real.norm_of_nonneg hs, length]
  | leg outside least pos lt_one boundary => exact boundary

/-- The model at the end is at most what it is at the steps along `-g` inside the region. -/
theorem model_le (hend : PathEnd J g q radius d) (h : IsGradient J c g) (hg : g ≠ 0)
    (hq : IsMinimizer J c q) (ht : t ≤ radius / ‖g‖) : ‖c + J d‖ ≤ ‖c - t • J g‖ := by
  have hstep : ∀ s : ℝ, c + J (-(s • g)) = c - s • J g := by
    intro s
    rw [map_neg, map_smul, sub_eq_add_neg]
  cases hend with
  | whole inside =>
    have hleast := hq (-(t • g))
    rw [hstep] at hleast
    exact hleast
  | descent outside length short =>
    rw [← length, mul_div_cancel_right₀ _ (norm_ne_zero_iff.2 hg)] at ht
    rw [hstep]
    exact h.model_antitone ht short
  | @leg s r outside least pos lt_one boundary =>
    -- The model does not grow on the second leg, which begins at its least value along `-g`.
    have hsecond := hq.segment_le (p := -(s • g)) pos.le lt_one.le
    rw [hstep] at hsecond
    exact hsecond.trans (h.model_least least t)

theorem model_lt (hend : PathEnd J g q radius d) (h : IsGradient J c g) (hg : g ≠ 0)
    (hq : IsMinimizer J c q) (hradius : 0 < radius) : ‖c + J d‖ < ‖c‖ := by
  have himage := h.image_norm_sq_pos hg
  have hnorm : 0 < ‖g‖ := norm_pos_iff.2 hg
  let t := min (radius / ‖g‖) (‖g‖ ^ 2 / ‖J g‖ ^ 2)
  have hpos : 0 < t := lt_min (div_pos hradius hnorm) (div_pos (pow_pos hnorm 2) himage)
  have hshort : t * ‖J g‖ ^ 2 ≤ ‖g‖ ^ 2 := (le_div_iff₀ himage).1 (min_le_right _ _)
  exact (hend.model_le h hg hq (min_le_left _ _)).trans_lt (h.model_lt hg hpos hshort)

theorem distance_le (hend : PathEnd J g q radius d) (h : IsGradient J c g) (hg : g ≠ 0)
    (hradius : 0 ≤ radius) (hq : c + J q = 0) : ‖q - d‖ ≤ ‖q‖ := by
  cases hend with
  | whole inside =>
    rw [sub_self, norm_zero]
    exact norm_nonneg q
  | @descent s outside length short =>
    have hs : 0 ≤ s := nonneg_of_mul_nonneg_left (length ▸ hradius) (norm_pos_iff.2 hg)
    rw [sub_neg_eq_add]
    exact h.distance_le hq hs short
  | @leg s r outside least pos lt_one boundary =>
    have hs : 0 ≤ s := nonneg_of_mul_nonneg_left (least ▸ sq_nonneg ‖g‖) (h.image_norm_sq_pos hg)
    have hrest : q - (-(s • g) + r • (q - -(s • g))) = (1 - r) • (q + s • g) := by
      module
    calc ‖q - (-(s • g) + r • (q - -(s • g)))‖ = (1 - r) * ‖q + s • g‖ := by
          rw [hrest, norm_smul, Real.norm_of_nonneg (sub_nonneg.2 lt_one.le)]
      _ ≤ ‖q + s • g‖ := mul_le_of_le_one_left (norm_nonneg _) (by linarith)
      _ ≤ ‖q‖ := h.distance_le hq hs least.le

end PathEnd

end LinearModel

variable {m n : Nat} {J : SparseMatrix ℝ} {c g gaussNewton d v : Vec ℝ} {radius s t : ℝ}

namespace SparseMatrix

/-- No vector makes `‖c + J d‖` smaller. -/
structure Minimizes (J : SparseMatrix ℝ) (c d : Vec ℝ) : Prop where
  length : d.length = J.columnCount
  least : ∀ v : Vec ℝ, v.length = J.columnCount →
    Vec.norm (Vec.plus c (J.apply d)) ≤ Vec.norm (Vec.plus c (J.apply v))

/-- Of the vectors that make `‖c + J d‖` least none is shorter. -/
structure MinimizesShortest (J : SparseMatrix ℝ) (c d : Vec ℝ) : Prop extends J.Minimizes c d where
  shortest : ∀ v, J.Minimizes c v → Vec.norm d ≤ Vec.norm v

theorem HasShape.isGradient (h : J.HasShape m n) (c : Vec ℝ) :
    LinearModel.IsGradient (J.linear m n) (c.euclid m) ((J.applyTransposed c).euclid n) :=
  h.inner_applyTransposed c

theorem HasShape.norm_model (h : J.HasShape m n) (hc : c.length = m) (v : Vec ℝ) :
    Vec.norm (Vec.plus c (J.apply v)) = ‖c.euclid m + J.linear m n (v.euclid n)‖ := by
  have hlength : c.length = (J.apply v).length := hc.trans (h.length_apply v).symm
  rw [Vec.norm_eq (Vec.length_plus_of_length hc (h.length_apply v)).le, Vec.euclid_plus hlength,
    h.euclid_apply]

theorem HasShape.norm_model_along (h : J.HasShape m n) (hc : c.length = m) (t : ℝ) (v : Vec ℝ) :
    Vec.norm (Vec.minus c (Vec.scale t (J.apply v))) =
      ‖c.euclid m - t • J.linear m n (v.euclid n)‖ := by
  have hlength : (Vec.scale t (J.apply v)).length = m :=
    (Vec.length_scale _ _).trans (h.length_apply v)
  rw [Vec.norm_eq (n := m) (by simp [hc, hlength]), Vec.euclid_minus (hc.trans hlength.symm),
    Vec.euclid_scale, h.euclid_apply]

theorem Minimizes.isMinimizer (hmin : J.Minimizes c d) (h : J.HasShape m n) (hc : c.length = m) :
    LinearModel.IsMinimizer (J.linear m n) (c.euclid m) (d.euclid n) := by
  intro x
  obtain ⟨v, hv, rfl⟩ := Vec.exists_euclid x
  have hleast := hmin.least v (hv.trans h.columnCount.symm)
  rw [h.norm_model hc, h.norm_model hc] at hleast
  exact hleast

theorem HasShape.minimizes_of_isMinimizer (h : J.HasShape m n) (hc : c.length = m)
    (hd : d.length = n)
    (hmin : LinearModel.IsMinimizer (J.linear m n) (c.euclid m) (d.euclid n)) :
    J.Minimizes c d := by
  refine ⟨hd.trans h.columnCount.symm, fun v _ => ?_⟩
  rw [h.norm_model hc, h.norm_model hc]
  exact hmin (v.euclid n)

theorem minimizes_of_meets (k : Nat) (hd : d.length = J.columnCount)
    (hmet : Vec.plus c (J.apply d) = Vec.zeros k) : J.Minimizes c d := by
  refine ⟨hd, fun v _ => ?_⟩
  rw [hmet, Vec.norm_zeros]
  exact Vec.norm_nonneg _

theorem HasShape.minimizesShortest_of_orthogonal (h : J.HasShape m n) (hc : c.length = m)
    (hd : d.length = n) (hmin : LinearModel.IsMinimizer (J.linear m n) (c.euclid m) (d.euclid n))
    (horthogonal : d.euclid n ∈ (LinearMap.ker (J.linear m n))ᗮ) : J.MinimizesShortest c d := by
  refine ⟨h.minimizes_of_isMinimizer hc hd hmin, fun v hv => ?_⟩
  rw [Vec.norm_eq hd.le, Vec.norm_eq (hv.length.trans h.columnCount).le]
  exact hmin.norm_le horthogonal (hv.isMinimizer h hc)

theorem HasShape.exists_minimizesShortest (h : J.HasShape m n) (hc : c.length = m) :
    ∃ q, J.MinimizesShortest c q := by
  obtain ⟨x, hmin, horthogonal⟩ := LinearModel.exists_minimizer (J.linear m n) (c.euclid m)
  obtain ⟨q, hq, rfl⟩ := Vec.exists_euclid x
  exact ⟨q, h.minimizesShortest_of_orthogonal hc hq hmin horthogonal⟩

theorem HasShape.exists_cauchyStep (h : J.HasShape m n)
    (hg : Vec.isNonzero (J.applyTransposed c) = true) :
    ∃ s, cauchyStep (J.applyTransposed c) (J.apply (J.applyTransposed c)) =
        some (Vec.scale (-s) (J.applyTransposed c)) ∧
      s * ‖J.linear m n ((J.applyTransposed c).euclid n)‖ ^ 2 =
        ‖(J.applyTransposed c).euclid n‖ ^ 2 := by
  have hlength := h.length_applyTransposed c
  have hcurvature : Vec.dot (J.apply (J.applyTransposed c)) (J.apply (J.applyTransposed c)) =
      ‖J.linear m n ((J.applyTransposed c).euclid n)‖ ^ 2 := by
    rw [Vec.dot_eq_inner (h.length_apply _).le, h.euclid_apply, real_inner_self_eq_norm_sq]
  have hsquare : Vec.dot (J.applyTransposed c) (J.applyTransposed c) =
      ‖(J.applyTransposed c).euclid n‖ ^ 2 := by
    rw [Vec.dot_eq_inner hlength.le, real_inner_self_eq_norm_sq]
  have hpos := (h.isGradient c).image_norm_sq_pos ((Vec.isNonzero_iff hlength).1 hg)
  refine ⟨_, ?_, div_mul_cancel₀ _ hpos.ne'⟩
  simp only [cauchyStep, hcurvature, hsquare]
  rw [if_neg (not_le.2 hpos)]

end SparseMatrix

theorem DoglegEnds.pathEnd (hend : DoglegEnds gaussNewton (some (Vec.scale (-s) g)) g radius d)
    (hgaussNewton : gaussNewton.length = n) (hlength : g.length = n) (hg : g.euclid n ≠ 0)
    (hs : s * ‖J.linear m n (g.euclid n)‖ ^ 2 = ‖g.euclid n‖ ^ 2)
    (himage : 0 < ‖J.linear m n (g.euclid n)‖ ^ 2) :
    LinearModel.PathEnd (J.linear m n) (g.euclid n) (gaussNewton.euclid n) radius
      (d.euclid n) := by
  have hnorm : Vec.norm g = ‖g.euclid n‖ := Vec.norm_eq hlength.le
  have hnormPos : 0 < ‖g.euclid n‖ := norm_pos_iff.2 hg
  have hwhole : Vec.norm gaussNewton = ‖gaussNewton.euclid n‖ := Vec.norm_eq hgaussNewton.le
  cases hend with
  | whole inside => exact .whole (hwhole ▸ inside)
  | descent outside far =>
    have hsNonneg : 0 ≤ s := nonneg_of_mul_nonneg_left (hs ▸ sq_nonneg _) himage
    have hfar : radius / ‖g.euclid n‖ ≤ s := by
      have hcauchy := far _ rfl
      rw [Vec.norm_eq (n := n) (by simp [hlength]), Vec.euclid_scale, norm_smul, norm_neg,
        Real.norm_of_nonneg hsNonneg] at hcauchy
      exact (div_le_iff₀ hnormPos).2 hcauchy
    rw [boundaryStep_eq (hnorm ▸ hnormPos.ne'), Vec.euclid_scale, neg_smul, hnorm]
    refine .descent (hwhole ▸ outside) (div_mul_cancel₀ _ hnormPos.ne') ?_
    calc radius / ‖g.euclid n‖ * ‖J.linear m n (g.euclid n)‖ ^ 2
        ≤ s * ‖J.linear m n (g.euclid n)‖ ^ 2 := mul_le_mul_of_nonneg_right hfar himage.le
      _ = ‖g.euclid n‖ ^ 2 := hs
  | leg outside cauchy_eq near pos lt_one boundary =>
    obtain rfl := Option.some.inj cauchy_eq
    have hstep : (Vec.scale (-s) g).length = n := (Vec.length_scale _ _).trans hlength
    rw [Vec.norm_eq (n := n) (by simp [hlength, hgaussNewton])] at boundary
    rw [Vec.euclid_plus (by simp [hlength, hgaussNewton]), Vec.euclid_scale, Vec.euclid_scale,
      Vec.euclid_minus (hgaussNewton.trans hstep.symm), Vec.euclid_scale, neg_smul] at boundary ⊢
    exact .leg (hwhole ▸ outside) hs pos lt_one boundary

theorem exists_pathEnd (h : J.HasShape m n) (hgaussNewton : gaussNewton.length = n)
    (hg : Vec.isNonzero (J.applyTransposed c) = true) (hradius : 0 < radius) :
    ∃ step d, cauchyStep (J.applyTransposed c) (J.apply (J.applyTransposed c)) = some step ∧
      dogleg gaussNewton (some step) (J.applyTransposed c) radius = .ok d ∧ d.length = n ∧
      LinearModel.PathEnd (J.linear m n) ((J.applyTransposed c).euclid n)
        (gaussNewton.euclid n) radius (d.euclid n) := by
  have hlength := h.length_applyTransposed c
  have hnonzero := (Vec.isNonzero_iff hlength).1 hg
  obtain ⟨s, hcauchy, hs⟩ := h.exists_cauchyStep hg
  have hsame : ∀ step ∈ some (Vec.scale (-s) (J.applyTransposed c)),
      gaussNewton.length = step.length := by
    rintro _ ⟨⟩
    rw [Vec.length_scale, hlength, hgaussNewton]
  obtain ⟨d, hd, hend⟩ := dogleg_ends (g := J.applyTransposed c) hradius hsame
  obtain ⟨d', hd', hlength'⟩ := exists_dogleg hradius hsame (hgaussNewton.trans hlength.symm)
  obtain rfl : d' = d := Except.ok.inj (hd'.symm.trans hd)
  exact ⟨_, d', hcauchy, hd, hlength'.trans hgaussNewton,
    hend.pathEnd hgaussNewton hlength hnonzero hs ((h.isGradient c).image_norm_sq_pos hnonzero)⟩

/-- Inside a region a step makes the model at least as small as the steps along `-g`, and smaller
than it is at zero. -/
structure ReducesModel (J : SparseMatrix ℝ) (c g d : Vec ℝ) (radius : ℝ) : Prop where
  le : ∀ t ∈ Set.Icc 0 (radius / Vec.norm g),
    Vec.norm (Vec.plus c (J.apply d)) ≤ Vec.norm (Vec.minus c (Vec.scale t (J.apply g)))
  lt : Vec.norm (Vec.plus c (J.apply d)) < Vec.norm c

theorem exists_reducesModel (h : J.HasShape m n) (hc : c.length = m)
    (hg : Vec.isNonzero (J.applyTransposed c) = true) (hradius : 0 < radius)
    (hmin : J.Minimizes c gaussNewton) :
    ∃ step d, cauchyStep (J.applyTransposed c) (J.apply (J.applyTransposed c)) = some step ∧
      dogleg gaussNewton (some step) (J.applyTransposed c) radius = .ok d ∧
      ReducesModel J c (J.applyTransposed c) d radius := by
  have hlength := h.length_applyTransposed c
  have hnonzero := (Vec.isNonzero_iff hlength).1 hg
  have hgradient := h.isGradient c
  have hleast := hmin.isMinimizer h hc
  obtain ⟨step, d, hcauchy, hd, -, hend⟩ :=
    exists_pathEnd h (hmin.length.trans h.columnCount) hg hradius
  refine ⟨step, d, hcauchy, hd, ?_, ?_⟩
  · rintro t ⟨-, ht⟩
    rw [Vec.norm_eq hlength.le] at ht
    rw [h.norm_model hc, h.norm_model_along hc]
    exact hend.model_le hgradient hnonzero hleast ht
  · rw [h.norm_model hc, Vec.norm_eq hc.le]
    exact hend.model_lt hgradient hnonzero hleast hradius

end InfeasibilityControl
