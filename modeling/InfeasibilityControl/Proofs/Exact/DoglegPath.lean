import Mathlib
import InfeasibilityControl.Proofs.Exact.Dogleg
import InfeasibilityControl.Proofs.Exact.Euclidean

set_option autoImplicit false
set_option relaxedAutoImplicit false

/-!
Where the dogleg path ends, in exact arithmetic.

A step is the whole Gauss–Newton step, or a steepest descent step to the boundary, or it ends on the
second leg, strictly between the two steps that the leg joins. In the last two cases the length of
the step is the radius of the region, in the first of them only where there is descent. None of this
depends on how the vectors were found: the equation for the second leg is right for any two of them,
one inside the region and one outside.
-/

namespace InfeasibilityControl

open scoped InnerProductSpace

theorem larger_root_between {a b c : ℝ} (ha : 0 < a) (hzero : c < 0) (hone : 0 < a + b + c) :
    let root := (-b + Real.sqrt (b * b - 4 * a * c)) / (2 * a)
    0 < root ∧ root < 1 ∧ a * (root * root) + b * root + c = 0 := by
  intro root
  have hnegative : 4 * a * c < 0 := mul_neg_of_pos_of_neg (by linarith) hzero
  have hdiscriminant : 0 ≤ b * b - 4 * a * c := by linarith [mul_self_nonneg b]
  have hsquare := Real.mul_self_sqrt hdiscriminant
  have habove : b < Real.sqrt (b * b - 4 * a * c) := by
    refine lt_of_le_of_lt (le_abs_self b) ?_
    rw [← Real.sqrt_mul_self_eq_abs]
    exact Real.sqrt_lt_sqrt (mul_self_nonneg b) (by linarith)
  have hbelow : Real.sqrt (b * b - 4 * a * c) < 2 * a + b := by
    rw [Real.sqrt_lt' (by linarith)]
    have hproduct : 0 < 4 * a * (a + b + c) := mul_pos (by linarith) hone
    linarith [hproduct]
  have hdouble : 0 < 2 * a := by linarith
  refine ⟨div_pos (by linarith) hdouble, (div_lt_one hdouble).2 (by linarith), ?_⟩
  have hroot : root * (2 * a) = -b + Real.sqrt (b * b - 4 * a * c) :=
    div_mul_cancel₀ _ hdouble.ne'
  have hcompleted : 4 * a * (a * (root * root) + b * root + c) = 0 := by
    calc 4 * a * (a * (root * root) + b * root + c)
        = (root * (2 * a)) * (root * (2 * a)) + 2 * b * (root * (2 * a)) + 4 * a * c := by ring
      _ = Real.sqrt (b * b - 4 * a * c) * Real.sqrt (b * b - 4 * a * c) -
          (b * b - 4 * a * c) := by
        rw [hroot]
        ring
      _ = 0 := by rw [hsquare, sub_self]
  exact (mul_eq_zero.1 hcompleted).resolve_left (by linarith)

variable {gaussNewton cauchy g d : Vec ℝ} {radius : ℝ}

namespace SecondLeg

/-- The point of the second leg at a fraction of its length. -/
noncomputable def pointAt (gaussNewton cauchy : Vec ℝ) (t : ℝ) : Vec ℝ :=
  Vec.plus cauchy (Vec.scale t (Vec.minus gaussNewton cauchy))

/-- The leading coefficient of the equation for the point on the boundary. -/
noncomputable def leading (gaussNewton cauchy : Vec ℝ) : ℝ :=
  Vec.dot (Vec.minus gaussNewton cauchy) (Vec.minus gaussNewton cauchy)

/-- The linear coefficient of that equation. -/
noncomputable def linear (gaussNewton cauchy : Vec ℝ) : ℝ :=
  2.0 * Vec.dot cauchy (Vec.minus gaussNewton cauchy)

/-- The constant term of that equation. -/
noncomputable def constant (cauchy : Vec ℝ) (radius : ℝ) : ℝ :=
  Vec.dot cauchy cauchy - radius * radius

/-- The discriminant of that equation. -/
noncomputable def discriminant (gaussNewton cauchy : Vec ℝ) (radius : ℝ) : ℝ :=
  linear gaussNewton cauchy * linear gaussNewton cauchy -
    4.0 * leading gaussNewton cauchy * constant cauchy radius

/-- The larger root of that equation. -/
noncomputable def root (gaussNewton cauchy : Vec ℝ) (radius : ℝ) : ℝ :=
  (-linear gaussNewton cauchy + Real.sqrt (discriminant gaussNewton cauchy radius)) /
    (2.0 * leading gaussNewton cauchy)

theorem eq_pointAt (hlength : gaussNewton.length = cauchy.length) (radius : ℝ) :
    secondLeg gaussNewton cauchy radius =
      .ok (pointAt gaussNewton cauchy (min (max (root gaussNewton cauchy radius) 0) 1)) := by
  rw [secondLeg_eq hlength (rfl : Scalar.square? radius = some (radius * radius)),
    ← Scalar.real_max, ← Scalar.real_min]
  rfl

theorem norm_pointAt_sq (hlength : gaussNewton.length = cauchy.length) (radius t : ℝ) :
    Vec.norm (pointAt gaussNewton cauchy t) ^ 2 - radius ^ 2 =
      leading gaussNewton cauchy * (t * t) + linear gaussNewton cauchy * t +
        constant cauchy radius := by
  have hleg : (Vec.minus gaussNewton cauchy).length = cauchy.length := by simp [hlength]
  -- The two steps as points of Euclidean space.
  let p := cauchy.euclid cauchy.length
  let q := gaussNewton.euclid cauchy.length
  have hdiff : (Vec.minus gaussNewton cauchy).euclid cauchy.length = q - p :=
    Vec.euclid_minus hlength
  have ha : leading gaussNewton cauchy = ‖q - p‖ ^ 2 := by
    rw [leading, Vec.dot_eq_inner hleg.le, hdiff, real_inner_self_eq_norm_sq]
  have hb : linear gaussNewton cauchy = 2 * ⟪p, q - p⟫_ℝ := by
    rw [linear, Vec.dot_eq_inner le_rfl, hdiff]
    norm_num
    rfl
  have hc : constant cauchy radius = ‖p‖ ^ 2 - radius ^ 2 := by
    rw [constant, Vec.dot_eq_inner le_rfl, real_inner_self_eq_norm_sq, sq radius]
  have hpoint : Vec.norm (pointAt gaussNewton cauchy t) = ‖p + t • (q - p)‖ := by
    rw [pointAt, Vec.norm_eq (n := cauchy.length) (by simp [hlength]),
      Vec.euclid_plus (by simp [hlength]), Vec.euclid_scale, hdiff]
  rw [hpoint, ha, hb, hc, norm_add_sq_real, real_inner_smul_right, norm_smul, mul_pow,
    Real.norm_eq_abs, sq_abs]
  ring

/-- What the equation satisfies on a leg that begins inside the region and ends outside. -/
structure Crosses (gaussNewton cauchy : Vec ℝ) (radius : ℝ) : Prop where
  /-- The leg has a length. -/
  leading_pos : 0 < leading gaussNewton cauchy
  /-- The equation has two roots. -/
  discriminant_pos : 0 < discriminant gaussNewton cauchy radius
  /-- The boundary is beyond the beginning of the leg. -/
  root_pos : 0 < root gaussNewton cauchy radius
  /-- The boundary is before the end of the leg. -/
  root_lt_one : root gaussNewton cauchy radius < 1
  /-- The bounds on the root change nothing. -/
  unclamped : secondLeg gaussNewton cauchy radius =
    .ok (pointAt gaussNewton cauchy (root gaussNewton cauchy radius))
  /-- The step taken ends on the boundary. -/
  boundary : Vec.norm (pointAt gaussNewton cauchy (root gaussNewton cauchy radius)) = radius

theorem crosses (hlength : gaussNewton.length = cauchy.length)
    (hinside : Vec.norm cauchy < radius) (houtside : radius < Vec.norm gaussNewton) :
    Crosses gaussNewton cauchy radius := by
  have hpositive : 0 < radius := (Vec.norm_nonneg cauchy).trans_lt hinside
  have hleading : 0 < leading gaussNewton cauchy :=
    secondLeg_length_pos hlength hinside houtside
  have hconstant : constant cauchy radius < 0 := by
    rw [constant, ← Vec.norm_sq, sub_neg]
    exact mul_self_lt_mul_self (Vec.norm_nonneg cauchy) hinside
  have hend : pointAt gaussNewton cauchy 1 = gaussNewton := by
    rw [pointAt, Vec.scale_one]
    refine Vec.ext_coord (by simp [hlength]) fun i _ => ?_
    rw [Vec.coord_plus (by simp [hlength]), Vec.coord_minus hlength, add_sub_cancel]
  have hsum : 0 < leading gaussNewton cauchy + linear gaussNewton cauchy +
      constant cauchy radius := by
    have hone := norm_pointAt_sq hlength radius 1
    rw [hend, mul_one, mul_one, mul_one] at hone
    rw [← hone, sub_pos]
    exact pow_lt_pow_left₀ houtside hpositive.le two_ne_zero
  have hfour : (4.0 : ℝ) = 4 := by norm_num
  have htwo : (2.0 : ℝ) = 2 := by norm_num
  have hdiscriminant : 0 < discriminant gaussNewton cauchy radius := by
    rw [discriminant, hfour]
    have hproduct := mul_neg_of_pos_of_neg hleading hconstant
    linarith [mul_self_nonneg (linear gaussNewton cauchy)]
  have hroot : root gaussNewton cauchy radius =
      (-linear gaussNewton cauchy + Real.sqrt (linear gaussNewton cauchy *
        linear gaussNewton cauchy - 4 * leading gaussNewton cauchy * constant cauchy radius)) /
          (2 * leading gaussNewton cauchy) := by
    rw [root, discriminant, hfour, htwo]
  obtain ⟨hlow, hhigh, hzero⟩ := larger_root_between hleading hconstant hsum
  rw [← hroot] at hlow hhigh hzero
  refine ⟨hleading, hdiscriminant, hlow, hhigh, ?_, ?_⟩
  · rw [eq_pointAt hlength, max_eq_left hlow.le, min_eq_left hhigh.le]
  · have hnorm := (norm_pointAt_sq hlength radius _).trans hzero
    rw [sub_eq_zero] at hnorm
    exact (pow_left_inj₀ (Real.sqrt_nonneg _) hpositive.le two_ne_zero).1 hnorm

end SecondLeg

theorem boundaryStep_eq (hg : Vec.norm g ≠ 0) (radius : ℝ) :
    boundaryStep g radius = Vec.scale (-(radius / Vec.norm g)) g := by
  unfold boundaryStep
  simp only [Scalar.real_beq, hg, decide_false]
  rfl

/-- The ways in which the dogleg path ends in a region. -/
inductive DoglegEnds (gaussNewton : Vec ℝ) (cauchy : Option (Vec ℝ)) (g : Vec ℝ) (radius : ℝ) :
    Vec ℝ → Prop
  /-- The path ends inside the region. -/
  | whole (inside : Vec.norm gaussNewton ≤ radius) :
      DoglegEnds gaussNewton cauchy g radius gaussNewton
  /-- The path leaves the region on its first leg. -/
  | descent (outside : radius < Vec.norm gaussNewton)
      (far : ∀ step ∈ cauchy, radius ≤ Vec.norm step) :
      DoglegEnds gaussNewton cauchy g radius (boundaryStep g radius)
  /-- The path leaves the region on its second leg. -/
  | leg {step : Vec ℝ} {t : ℝ} (outside : radius < Vec.norm gaussNewton)
      (cauchy_eq : cauchy = some step) (near : Vec.norm step < radius) (pos : 0 < t)
      (lt_one : t < 1)
      (boundary :
        Vec.norm (Vec.plus step (Vec.scale t (Vec.minus gaussNewton step))) = radius) :
      DoglegEnds gaussNewton cauchy g radius
        (Vec.plus step (Vec.scale t (Vec.minus gaussNewton step)))

theorem dogleg_ends {cauchy : Option (Vec ℝ)} (hradius : 0 < radius)
    (hlength : ∀ step ∈ cauchy, gaussNewton.length = step.length) :
    ∃ d, dogleg gaussNewton cauchy g radius = .ok d ∧
      DoglegEnds gaussNewton cauchy g radius d := by
  unfold dogleg
  rw [if_neg (not_le.2 hradius)]
  by_cases hwhole : Vec.norm gaussNewton ≤ radius
  · rw [if_pos hwhole]
    exact ⟨_, rfl, .whole hwhole⟩
  have houtside := not_le.1 hwhole
  rw [if_neg hwhole]
  cases hinside : cauchyInside cauchy radius with
  | none =>
    refine ⟨_, rfl, .descent houtside fun step hstep => ?_⟩
    have hfar := Option.filter_eq_none_iff.1 hinside step hstep
    simpa using hfar
  | some step =>
    obtain ⟨hstep, hnear⟩ := Option.filter_eq_some_iff.1 hinside
    have hnear : Vec.norm step < radius := by simpa using hnear
    have hleg := SecondLeg.crosses (hlength step hstep) hnear houtside
    exact ⟨_, hleg.unclamped, .leg houtside hstep hnear hleg.root_pos hleg.root_lt_one
      hleg.boundary⟩

theorem norm_boundaryStep (hg : Vec.isNonzero g = true) (hradius : 0 < radius) :
    Vec.norm (boundaryStep g radius) = radius := by
  have hpos := Vec.norm_pos_of_isNonzero hg
  have hnorm : Vec.norm g = ‖g.euclid g.length‖ := Vec.norm_eq le_rfl
  rw [boundaryStep_eq hpos.ne', Vec.norm_eq (Vec.length_scale _ _).le, Vec.euclid_scale, norm_smul,
    ← hnorm, norm_neg, Real.norm_of_nonneg (div_pos hradius hpos).le, div_mul_cancel₀ _ hpos.ne']

theorem norm_boundaryStep_le (hradius : 0 < radius) :
    Vec.norm (boundaryStep g radius) ≤ radius := by
  cases hg : Vec.isNonzero g with
  | true => exact (norm_boundaryStep hg hradius).le
  | false =>
    have hzero : Vec.norm g = 0 := by
      rw [Vec.norm_eq le_rfl, (Vec.isNonzero_eq_false_iff rfl).1 hg, norm_zero]
    have hstep : boundaryStep g radius = Vec.zeros g.length := by
      unfold boundaryStep
      simp only [Scalar.real_beq, hzero, decide_true, if_true]
    rw [hstep, Vec.norm_zeros]
    exact hradius.le

namespace DoglegEnds

variable {cauchy : Option (Vec ℝ)}

theorem norm_le (h : DoglegEnds gaussNewton cauchy g radius d) (hradius : 0 < radius) :
    Vec.norm d ≤ radius := by
  cases h with
  | whole inside => exact inside
  | descent => exact norm_boundaryStep_le hradius
  | leg _ _ _ _ _ boundary => exact boundary.le

theorem eq_gaussNewton (h : DoglegEnds gaussNewton cauchy g radius d)
    (hinside : Vec.norm gaussNewton ≤ radius) : d = gaussNewton := by
  cases h with
  | whole => rfl
  | descent outside => exact absurd hinside (not_le.2 outside)
  | leg outside => exact absurd hinside (not_le.2 outside)

theorem norm_eq (h : DoglegEnds gaussNewton cauchy g radius d) (hradius : 0 < radius)
    (houtside : radius < Vec.norm gaussNewton)
    (hpath : (∃ step ∈ cauchy, Vec.norm step < radius) ∨ Vec.isNonzero g = true) :
    Vec.norm d = radius := by
  cases h with
  | whole inside => exact absurd inside (not_le.2 houtside)
  | descent _ far =>
    obtain ⟨step, hstep, hnear⟩ | hg := hpath
    · exact absurd (far step hstep) (not_le.2 hnear)
    · exact norm_boundaryStep hg hradius
  | leg _ _ _ _ _ boundary => exact boundary

end DoglegEnds

/-- What the step inside a trust region of positive radius satisfies. -/
structure DoglegStep (gaussNewton : Vec ℝ) (cauchy : Option (Vec ℝ)) (g : Vec ℝ) (radius : ℝ)
    (d : Vec ℝ) : Prop where
  /-- The step stays in the region. -/
  inside : Vec.norm d ≤ radius
  /-- It is the Gauss–Newton step exactly where that one stays in the region. -/
  whole : d = gaussNewton ↔ Vec.norm gaussNewton ≤ radius
  /-- It ends on the boundary where the Gauss–Newton step leaves the region, unless there is neither
  a Cauchy step inside the region nor descent. -/
  boundary : radius < Vec.norm gaussNewton →
    (∃ step ∈ cauchy, Vec.norm step < radius) ∨ Vec.isNonzero g = true → Vec.norm d = radius
  /-- On the second leg it is the point at the larger root, which needs no bounds. -/
  secondLeg : ∀ step ∈ cauchy, Vec.norm step < radius → radius < Vec.norm gaussNewton →
    SecondLeg.Crosses gaussNewton step radius ∧
      d = SecondLeg.pointAt gaussNewton step (SecondLeg.root gaussNewton step radius)

/-- The dogleg path has no end in a region whose radius is not positive, and in every other region
it has the right one, whatever the vectors it is made from. -/
theorem dogleg_exact (gaussNewton : Vec ℝ) (cauchy : Option (Vec ℝ)) (g : Vec ℝ) (radius : ℝ)
    (hlength : ∀ step ∈ cauchy, gaussNewton.length = step.length) :
    ((∃ fault, dogleg gaussNewton cauchy g radius = .error fault) ↔ radius ≤ 0) ∧
      (0 < radius →
        ∃ d, dogleg gaussNewton cauchy g radius = .ok d ∧
          DoglegStep gaussNewton cauchy g radius d) := by
  have hends : 0 < radius → ∃ d, dogleg gaussNewton cauchy g radius = .ok d ∧
      DoglegEnds gaussNewton cauchy g radius d := fun hradius => dogleg_ends hradius hlength
  refine ⟨⟨?_, fun hradius => ⟨_, if_pos hradius⟩⟩, fun hradius => ?_⟩
  · rintro ⟨fault, hfault⟩
    by_contra hradius
    obtain ⟨d, hd, -⟩ := hends (not_le.1 hradius)
    cases hd.symm.trans hfault
  obtain ⟨d, hd, hend⟩ := hends hradius
  have hinside := hend.norm_le hradius
  refine ⟨d, hd, hinside, ⟨fun hwhole => hwhole ▸ hinside, hend.eq_gaussNewton⟩,
    fun houtside => hend.norm_eq hradius houtside, fun step hstep hnear houtside => ?_⟩
  have hleg := SecondLeg.crosses (hlength step hstep) hnear houtside
  refine ⟨hleg, Except.ok.inj (hd.symm.trans ?_)⟩
  have hstep : cauchyInside cauchy radius = some step := by
    rw [Option.mem_def.1 hstep]
    simp [cauchyInside, Option.filter, hnear]
  unfold dogleg
  rw [if_neg (not_le.2 hradius), if_neg (not_le.2 houtside), hstep]
  exact hleg.unclamped

/-- A path that bends inside the region and leaves it on its second leg. -/
theorem bentPath_exact :
    (∀ step ∈ some ([1, 0] : Vec ℝ), ([4, 3] : Vec ℝ).length = step.length) ∧ (0 : ℝ) < 2 ∧
      ∃ d, dogleg [4, 3] (some [1, 0]) [-1, 0] (2 : ℝ) = .ok d ∧
        DoglegStep [4, 3] (some [1, 0]) [-1, 0] 2 d ∧ Vec.norm d = 2 := by
  have hlength : ∀ step ∈ some ([1, 0] : Vec ℝ), ([4, 3] : Vec ℝ).length = step.length := by
    rintro step ⟨⟩
    rfl
  have hsquare : Vec.dot ([4, 3] : Vec ℝ) [4, 3] = 25 := by
    norm_num [Vec.dot_cons]
  have houtside : (2 : ℝ) < Vec.norm [4, 3] := by
    change 2 < Real.sqrt (Vec.dot [4, 3] [4, 3])
    rw [hsquare]
    exact Real.lt_sqrt_of_sq_lt (by norm_num)
  have hdescent : Vec.isNonzero ([-1, 0] : Vec ℝ) = true := by
    simp [Vec.isNonzero, Scalar.real_beq]
  obtain ⟨d, hd, hstep⟩ :=
    (dogleg_exact [4, 3] (some [1, 0]) [-1, 0] 2 hlength).2 two_pos
  exact ⟨hlength, two_pos, d, hd, hstep, hstep.boundary houtside (.inr hdescent)⟩

end InfeasibilityControl
