import Mathlib
import InfeasibilityControl.Proofs.Exact.Partial
import InfeasibilityControl.Solver.Stages

set_option autoImplicit false
set_option relaxedAutoImplicit false

/-!
The quotients and roots of the method in exact arithmetic.

The steps inside a trust region, the ratio of reductions and the relative dual residual are computed
without an operation that has no result: each of them comes out of partial numbers as it comes out
of real ones. The dogleg path needs a region of positive radius for this, since only then does a
second leg that is begun have a length and a point on the boundary.
-/

namespace InfeasibilityControl

open PartialReal (of of_div of_sqrt)

variable {gaussNewton cauchy g Jg : Vec ℝ} {radius : ℝ}

theorem cauchyStep_asPartial (g Jg : Vec ℝ) :
    cauchyStep g.asPartial Jg.asPartial = (cauchyStep g Jg).map Vec.asPartial := by
  unfold cauchyStep
  simp only [Vec.dot_asPartial, PartialReal.of_zero, PartialReal.of_le]
  split
  · rfl
  · rename_i hcurved
    rw [of_div (ne_of_gt (not_le.1 hcurved)), PartialReal.of_neg, Vec.scale_asPartial]
    rfl

theorem boundaryStep_asPartial (g : Vec ℝ) (radius : ℝ) :
    boundaryStep g.asPartial (of radius) = (boundaryStep g radius).asPartial := by
  unfold boundaryStep
  simp only [Vec.norm_asPartial, PartialReal.of_zero, PartialReal.of_beq, Vec.length_asPartial]
  split
  · exact Vec.zeros_asPartial _
  · rename_i hnorm
    rw [Scalar.real_beq, decide_eq_true_eq] at hnorm
    rw [of_div hnorm, PartialReal.of_neg, Vec.scale_asPartial]

theorem cauchyInside_asPartial (cauchy : Option (Vec ℝ)) (radius : ℝ) :
    cauchyInside (cauchy.map Vec.asPartial) (of radius) =
      (cauchyInside cauchy radius).map Vec.asPartial := by
  cases cauchy with
  | none => rfl
  | some step =>
    by_cases h : radius ≤ Vec.norm step
    · simp [cauchyInside, Option.filter, Vec.norm_asPartial, h]
    · simp [cauchyInside, Option.filter, Vec.norm_asPartial, h]

theorem secondLeg_length_pos (hlength : gaussNewton.length = cauchy.length)
    (hinside : Vec.norm cauchy < radius) (houtside : radius < Vec.norm gaussNewton) :
    0 < Vec.dot (Vec.minus gaussNewton cauchy) (Vec.minus gaussNewton cauchy) := by
  refine lt_of_le_of_ne Vec.dot_self_nonneg fun hzero => ?_
  have hsame : gaussNewton = cauchy := by
    refine Vec.ext_coord hlength fun i _ => ?_
    have hcoord := Vec.dot_self_eq_zero.1 hzero.symm i
    rw [Vec.coord_minus hlength] at hcoord
    exact sub_eq_zero.1 hcoord
  rw [hsame] at houtside
  exact lt_asymm hinside houtside

/-- The quadratic equation for the point where the second leg leaves the region has roots. -/
theorem secondLeg_discriminant_nonneg {a b : ℝ} (ha : 0 ≤ a)
    (hinside : Vec.norm cauchy < radius) :
    0 ≤ b * b - 4.0 * a * (Vec.dot cauchy cauchy - radius * radius) := by
  have hsquare : Vec.dot cauchy cauchy ≤ radius * radius := by
    rw [← Vec.norm_sq]
    exact mul_self_le_mul_self (Vec.norm_nonneg cauchy) hinside.le
  have hproduct : 4.0 * a * (Vec.dot cauchy cauchy - radius * radius) ≤ 0 :=
    mul_nonpos_of_nonneg_of_nonpos (by positivity) (sub_nonpos.2 hsquare)
  linarith [mul_self_nonneg b]

theorem secondLeg_eq {K : Type} [Scalar K] {gaussNewton cauchy : Vec K}
    {radius radiusSquare : K} (hlength : gaussNewton.length = cauchy.length)
    (hsquare : Scalar.square? radius = some radiusSquare) :
    secondLeg gaussNewton cauchy radius =
      let leg := Vec.minus gaussNewton cauchy
      let a := Vec.dot leg leg
      let b := 2.0 * Vec.dot cauchy leg
      let root := (-b + Scalar.sqrt (b * b - 4.0 * a * (Vec.dot cauchy cauchy - radiusSquare))) /
        (2.0 * a)
      .ok (Vec.plus cauchy (Vec.scale (Scalar.min (Scalar.max root 0) 1) leg)) := by
  have hleg : cauchy.length = (Vec.minus gaussNewton cauchy).length := by simp [hlength]
  simp only [secondLeg, Vec.subtract_of_length hlength, bind, Except.bind,
    Vec.inner_of_length hleg, hsquare]
  exact Vec.add_of_length (by simp [hlength])

theorem secondLeg_asPartial (hlength : gaussNewton.length = cauchy.length)
    (hinside : Vec.norm cauchy < radius) (houtside : radius < Vec.norm gaussNewton) :
    secondLeg gaussNewton.asPartial cauchy.asPartial (of radius) =
      (secondLeg gaussNewton cauchy radius).map Vec.asPartial := by
  have ha := secondLeg_length_pos hlength hinside houtside
  have hroot := secondLeg_discriminant_nonneg
    (b := 2.0 * Vec.dot cauchy (Vec.minus gaussNewton cauchy)) ha.le hinside
  rw [secondLeg_eq (by simpa using hlength) PartialReal.square?_of,
    secondLeg_eq hlength (rfl : Scalar.square? radius = some (radius * radius))]
  simp only [Vec.minus_asPartial, Vec.dot_asPartial, PartialReal.of_scientific, PartialReal.of_mul,
    PartialReal.of_sub, PartialReal.of_neg, PartialReal.of_zero, PartialReal.of_one]
  rw [of_sqrt hroot, PartialReal.of_add, of_div (by positivity), PartialReal.max_of,
    PartialReal.min_of, Vec.scale_asPartial, Vec.plus_asPartial]
  rfl

theorem dogleg_asPartial {cauchy : Option (Vec ℝ)} (radius : ℝ)
    (hlength : ∀ step ∈ cauchy, gaussNewton.length = step.length) :
    dogleg gaussNewton.asPartial (cauchy.map Vec.asPartial) g.asPartial (of radius) =
      (dogleg gaussNewton cauchy g radius).map Vec.asPartial := by
  unfold dogleg
  simp only [PartialReal.of_zero, PartialReal.of_le, Vec.norm_asPartial, cauchyInside_asPartial]
  split
  · rfl
  split
  · rfl
  rename_i houtside
  cases hstep : cauchyInside cauchy radius with
  | none => exact congrArg Except.ok (boundaryStep_asPartial g radius)
  | some step =>
    obtain ⟨hmem, hinside⟩ := Option.filter_eq_some_iff.1 hstep
    refine secondLeg_asPartial (hlength step hmem) ?_ (not_le.1 houtside)
    simpa using hinside

theorem exists_dogleg {gaussNewton g : Vec ℝ} {cauchy : Option (Vec ℝ)} {radius : ℝ}
    (hradius : 0 < radius) (hstep : ∀ step ∈ cauchy, gaussNewton.length = step.length)
    (hg : gaussNewton.length = g.length) :
    ∃ d, dogleg gaussNewton cauchy g radius = .ok d ∧ d.length = gaussNewton.length := by
  unfold dogleg
  rw [if_neg (not_le.2 hradius)]
  split
  · exact ⟨_, rfl, rfl⟩
  cases hinside : cauchyInside cauchy radius with
  | none =>
    refine ⟨_, rfl, ?_⟩
    unfold boundaryStep
    simp only
    split
    · rw [Vec.length_zeros, hg]
    · rw [Vec.length_scale, hg]
  | some step =>
    have hlength := hstep step (Option.filter_eq_some_iff.1 hinside).1
    have hsquare : Scalar.square? radius = some (radius * radius) := rfl
    refine ⟨_, secondLeg_eq hlength hsquare, ?_⟩
    simp [hlength]

theorem length_of_cauchyStep {g Jg step : Vec ℝ} (h : step ∈ cauchyStep g Jg) :
    step.length = g.length := by
  unfold cauchyStep at h
  simp only at h
  split at h
  · cases h
  · cases h
    exact Vec.length_scale _ _

theorem reductionRatio_asPartial (normSquare trialNorm predicted : ℝ) :
    NormalState.reductionRatio (of normSquare) (of trialNorm) (of predicted) =
      (NormalState.reductionRatio normSquare trialNorm predicted).map (Option.map of) := by
  unfold NormalState.reductionRatio
  simp only [PartialReal.of_zero, PartialReal.of_lt, PartialReal.isFinite_of, and_true]
  have hfinite : Scalar.isFinite trialNorm = true := rfl
  simp only [hfinite, and_true]
  split
  · rename_i hpredicted
    change Except.ok (some (of _ * (of normSquare - of (trialNorm * trialNorm)) / of predicted)) = _
    rw [PartialReal.of_sub, PartialReal.of_mul, of_div hpredicted.ne']
    rfl
  · rfl

theorem relativeDual_asPartial (dualNorm dualTolerance : ℝ) (g : Vec ℝ) :
    relativeDual (of dualNorm) (Vec.norm g.asPartial) (of dualTolerance) =
      of (relativeDual dualNorm (Vec.norm g) dualTolerance) := by
  have hpositive : Vec.norm g + 1 ≠ 0 := (add_pos_of_nonneg_of_pos (Vec.norm_nonneg g) one_pos).ne'
  unfold relativeDual
  simp only [Vec.norm_asPartial, PartialReal.of_lt, PartialReal.of_one, PartialReal.of_add,
    of_div hpositive]
  split <;> rfl

end InfeasibilityControl
