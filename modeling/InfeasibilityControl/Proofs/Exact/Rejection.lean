import Mathlib
import InfeasibilityControl.Proofs.Exact.Standing

set_option autoImplicit false
set_option relaxedAutoImplicit false

/-!
Rejected trials of a normal step.

Each rejection leaves at most a quarter of the trust radius, and no trial is made inside a region
smaller than the least one, so that only logarithmically many rejections can follow each other.
What a trial has been rejected at is out of reach of the trials that follow from the same point, and
after an acceptance the norm of the constraints is smaller than at every point left behind: nothing
is tried twice.
-/

namespace InfeasibilityControl

open Counted (Completes Returns completes_pure)
open PartialReal (of)

variable {p : Problem PartialReal} {options : NormalOptions ℝ} {least : ℝ} {a a' last : Standing}
  {t u : Trial PartialReal} {trials before after : List (Trial PartialReal)}

/-- The trials that lead from one standing to another. -/
inductive Course (p : Problem PartialReal) (least : ℝ) :
    Standing → List (Trial PartialReal) → Standing → Prop
  | rest {a : Standing} (holds : a.Holds p) : Course p least a [] a
  | trial {a a' last : Standing} {t : Trial PartialReal} {trials : List (Trial PartialReal)}
      (holds : a.Holds p) (leads : a.Leads p least t a') (next : Course p least a' trials last) :
      Course p least a (t :: trials) last

namespace Course

theorem holds (h : Course p least a trials last) : a.Holds p := by
  cases h with
  | rest holds => exact holds
  | trial holds => exact holds

theorem split (h : Course p least a (before ++ after) last) :
    ∃ a', Course p least a before a' ∧ Course p least a' after last := by
  induction before generalizing a with
  | nil => exact ⟨a, .rest h.holds, h⟩
  | cons t before ih =>
    cases h with
    | trial holds leads next =>
      obtain ⟨a', hbefore, hafter⟩ := ih next
      exact ⟨a', .trial holds leads hbefore, hafter⟩

theorem part (h : Course p least a trials last) (hpart : before <:+: trials) :
    ∃ b b', Course p least b before b' := by
  obtain ⟨front, back, rfl⟩ := hpart
  obtain ⟨b', hfront, -⟩ := h.split
  obtain ⟨b, -, hpart⟩ := hfront.split
  exact ⟨b, b', hpart⟩

/-- Rejections divide the trust radius by four, and what they leave is not less than the least. -/
theorem least_le (h : Course p least a (t :: trials) last)
    (hrejected : ∀ u ∈ t :: trials, u.accepted = false) :
    least * 4 ^ trials.length ≤ a.trustRadius := by
  induction trials generalizing a t with
  | nil =>
    cases h with
    | trial holds leads next => simpa using leads.large
  | cons u trials ih =>
    cases h with
    | trial holds leads next =>
      have hlater := ih next fun v hv => hrejected v (List.mem_cons_of_mem t hv)
      obtain ⟨radius, hradius, rfl⟩ := leads.rejected (hrejected t List.mem_cons_self)
      rw [List.length_cons, pow_succ]
      linarith

/-- The rejections that can follow each other, beginning inside a region of some radius. -/
theorem length_le (hleast : 0 < least) (h : Course p least a (t :: trials) last)
    (hrejected : ∀ u ∈ t :: trials, u.accepted = false) :
    (t :: trials).length ≤ ⌊Real.logb 4 (a.trustRadius / least)⌋₊ + 1 := by
  have hpowers := h.least_le hrejected
  have hpositive : 0 < a.trustRadius :=
    (mul_pos hleast (pow_pos (by norm_num) trials.length)).trans_le hpowers
  have hratio : (4 : ℝ) ^ trials.length ≤ a.trustRadius / least := by
    rw [le_div_iff₀ hleast, mul_comm]
    exact hpowers
  rw [List.length_cons, Nat.add_le_add_iff_right]
  refine Nat.le_floor ?_
  rw [Real.le_logb_iff_rpow_le (by norm_num) (div_pos hpositive hleast), Real.rpow_natCast]
  exact hratio

theorem isFinite_of_accepted (h : Course p least a trials last) (ht : t ∈ trials)
    (haccepted : t.accepted = true) : Scalar.isFinite t.constraintNorm = true := by
  induction h with
  | rest => cases ht
  | trial holds leads next ih =>
    obtain rfl | ht := List.mem_cons.1 ht
    · rw [(leads.accepted haccepted).2.1, PartialReal.isFinite_of]
    · exact ih ht

end Course

/-- What keeps a trial from being made once more when the step stands elsewhere. -/
inductive Trial.IsPast (p : Problem PartialReal) (t : Trial PartialReal) (a : Standing) : Prop
  /-- The constraints have become smaller than at its origin. -/
  | behind {b : Standing} (holds : b.Holds p) (origin : t.origin = b.point.asPartial)
      (smaller : Vec.norm a.constraints < Vec.norm b.constraints)
  /-- It was made from the same point, and its displacement now lies outside the region. -/
  | outside {d : Vec ℝ} (origin : t.origin = a.point.asPartial) (length : d.length = a.point.length)
      (point : t.point = (Vec.plus a.point d).asPartial) (far : a.trustRadius ≤ Vec.norm d / 4)

theorem Vec.plus_left_cancel {x d e : Vec ℝ} (hd : d.length = x.length) (he : e.length = x.length)
    (h : Vec.plus x d = Vec.plus x e) : d = e := by
  refine Vec.ext_coord (hd.trans he.symm) fun i _ => ?_
  have hcoord := congrArg (fun v => Vec.coord v i) h
  simp only [Vec.coord_plus hd.symm, Vec.coord_plus he.symm] at hcoord
  exact add_left_cancel hcoord

namespace Standing.Leads

theorem isPast (h : a.Leads p least t a') (ha : a.Holds p) : t.IsPast p a' := by
  cases haccepted : t.accepted with
  | true => exact .behind ha h.origin (h.accepted haccepted).2.2
  | false =>
    obtain ⟨d, hlength, -, hpoint, -, hradius⟩ := h.moved
    have hradius := hradius haccepted
    obtain ⟨radius, -, rfl⟩ := h.rejected haccepted
    exact .outside h.origin hlength hpoint hradius.le

theorem keeps_past (hleast : 0 < least) (h : a.Leads p least u a') (ha : a.Holds p)
    (ht : t.IsPast p a) : t.IsPast p a' := by
  cases haccepted : u.accepted with
  | true =>
    obtain ⟨-, -, hless⟩ := h.accepted haccepted
    cases ht with
    | behind holds origin smaller => exact .behind holds origin (hless.trans smaller)
    | outside origin => exact .behind ha origin hless
  | false =>
    have hlarge := h.large
    obtain ⟨radius, hradius, rfl⟩ := h.rejected haccepted
    cases ht with
    | behind holds origin smaller => exact .behind holds origin smaller
    | outside origin length point far => exact .outside origin length point (by linarith)

theorem ne_of_isPast (hleast : 0 < least) (h : a.Leads p least u a') (ha : a.Holds p)
    (ht : t.IsPast p a) (horigin : t.origin = u.origin) : t.point ≠ u.point := by
  rw [h.origin] at horigin
  cases ht with
  | behind holds origin smaller =>
    rw [origin] at horigin
    have hvalue := holds.constraints
    rw [horigin, ha.constraints] at hvalue
    rw [Vec.asPartial_injective (Except.ok.inj hvalue)] at smaller
    exact absurd smaller (lt_irrefl _)
  | outside origin length point far =>
    obtain ⟨e, helength, -, hepoint, heinside, -⟩ := h.moved
    intro hpoint
    rw [point, hepoint] at hpoint
    rw [Vec.plus_left_cancel length helength (Vec.asPartial_injective hpoint)] at far
    linarith [h.large]

end Standing.Leads

namespace Course

theorem ne_of_isPast (hleast : 0 < least) (h : Course p least a trials last) (ht : t.IsPast p a)
    (hu : u ∈ trials) (horigin : t.origin = u.origin) : t.point ≠ u.point := by
  induction h with
  | rest => cases hu
  | trial holds leads next ih =>
    obtain rfl | hu := List.mem_cons.1 hu
    · exact leads.ne_of_isPast hleast holds ht horigin
    · exact ih (leads.keeps_past hleast holds ht) hu

theorem pairwise_ne (hleast : 0 < least) (h : Course p least a trials last) :
    trials.Pairwise fun t u => t.origin = u.origin → t.point ≠ u.point := by
  induction h with
  | rest => exact .nil
  | trial holds leads next ih =>
    exact .cons (fun u hu => next.ne_of_isPast hleast (leads.isPast holds) hu) ih

end Course

namespace NormalState

variable {s last : NormalState PartialReal} {b : Budget PartialReal} {radius : PartialReal}
  {l l' : Ledger PartialReal}

theorem StandsAt.iterate (hs : s.StandsAt p a) (hp : p.HasFiniteJacobian)
    (hacceptance : options.acceptance ≤ 1 / 4) (hleast : 0 < options.minTrustRadius)
    {passes made : Nat} {status : NormalStatus} {count : Int}
    (h : Returns (iterate options.asPartial.solver p options.asPartial b radius passes made s) l
      (last, status, count) l') :
    ∃ trials a', last.trials = s.trials ++ trials ∧
      Course p options.minTrustRadius a trials a' ∧ last.StandsAt p a' := by
  replace h := runs_of_iterate h
  induction h generalizing a with
  | concluded concluding => exact ⟨[], a, (List.append_nil _).symm, .rest hs.holds, hs⟩
  | ended ending => exact ⟨[], a, (List.append_nil _).symm, .rest hs.holds, hs⟩
  | tried aiming trying later ih =>
    obtain ⟨t, a₁, htrials, hleads, hstands⟩ :=
      hs.attempted hp hacceptance hleast (examine_aims aiming) trying
    obtain ⟨trials, a', hlater, hcourse, hlast⟩ := ih hstands
    refine ⟨t :: trials, a', ?_, .trial hs.holds hleads hcourse, hlast⟩
    rw [hlater, htrials, List.append_assoc, List.singleton_append]

end NormalState

/-- What a normal step makes of its rejected trials. -/
structure NormalOutcome.BoundsRejections (p : Problem PartialReal) (least : ℝ) (first : Standing)
    (o : NormalOutcome PartialReal) : Prop where
  /-- Each trial leads from one standing to the next, and the last one is returned. -/
  course : ∃ last : Standing, Course p least first o.trials last ∧
    o.point = last.point.asPartial ∧ o.constraints = last.constraints.asPartial ∧
    o.jacobian = last.jacobian.asPartial ∧ o.trustRadius = of last.trustRadius
  /-- Where the constraints are no numbers, a trial is rejected. -/
  finite : ∀ t ∈ o.trials, t.accepted = true → Scalar.isFinite t.constraintNorm = true
  /-- As many trials in a row can be rejected as divisions by four lead to the least radius, and
  one more. -/
  rejections : ∀ (t : Trial PartialReal) (trials : List (Trial PartialReal)) (radius : ℝ),
    t :: trials <:+: o.trials → (∀ u ∈ t :: trials, u.accepted = false) →
    t.trustRadius = of radius →
    (t :: trials).length ≤ ⌊Real.logb 4 (radius / least)⌋₊ + 1
  /-- No point is tried twice from the same one. -/
  distinct : o.trials.Pairwise fun t u => t.origin = u.origin → t.point ≠ u.point

/-- Every normal step from a point with numbers for constraints bounds its rejections, wherever the
constraints are no numbers. -/
theorem normalStep_boundsRejections {start c : Vec ℝ}
    {jacobian? : Option (SparseMatrix PartialReal)} {b : Budget PartialReal}
    {rho bound relativeDual floor : PartialReal} {o : NormalOutcome PartialReal}
    {l l' : Ledger PartialReal}
    (h : Returns (normalStep p options.asPartial b start.asPartial c.asPartial jacobian? rho bound
      relativeDual floor) l o l')
    (hstart : start.length = p.variableCount)
    (hc : p.constraints start.asPartial = .ok c.asPartial)
    (hJ : ∀ J ∈ jacobian?, p.jacobian start.asPartial = .ok J) (hp : p.HasFiniteJacobian)
    (hacceptance : options.acceptance ≤ 1 / 4) (hleast : 0 < options.minTrustRadius) :
    ∃ J, o.BoundsRejections p options.minTrustRadius ⟨start, c, J, options.trustRadius⟩ := by
  obtain ⟨J, l₁, last, hjacobian, -, hpasses, ho⟩ := normalStep_passes_from h hJ
  obtain ⟨J, rfl⟩ := hp _ _ _ hstart hc hjacobian
  have hfirst := NormalState.standsAt_first (a := ⟨start, c, J, options.trustRadius⟩)
    ⟨hstart, hc, hjacobian⟩
  obtain ⟨trials, a', htrials, hcourse, hlast⟩ := hfirst.iterate hp hacceptance hleast hpasses
  obtain rfl : last.trials = trials := htrials
  rw [ho]
  refine ⟨J, ⟨a', hcourse, hlast.point, hlast.constraints, hlast.jacobian, hlast.trustRadius⟩,
    fun t ht => hcourse.isFinite_of_accepted ht, fun t trials radius hpart hrejected hradius => ?_,
    hcourse.pairwise_ne hleast⟩
  obtain ⟨b, b', hblock⟩ := hcourse.part hpart
  have hsame : b.trustRadius = radius := by
    cases hblock with
    | trial holds leads next =>
      exact PartialReal.of_injective (leads.trustRadius.symm.trans hradius)
  rw [← hsame]
  exact hblock.length_le hleast hrejected

theorem completes_normalStep_asPartial {m : Nat} (hp : p.IsTotal m) (hfinite : p.HasFiniteJacobian)
    (hacceptance : options.acceptance ≤ 1 / 4) (hleast : 0 < options.minTrustRadius)
    {start c : Vec ℝ} {J : SparseMatrix ℝ} (hstart : start.length = p.variableCount)
    (hc : p.constraints start.asPartial = .ok c.asPartial)
    (hJ : p.jacobian start.asPartial = .ok J.asPartial) (b : Budget PartialReal)
    (rho bound relativeDual floor : PartialReal) :
    Completes (normalStep p options.asPartial b start.asPartial c.asPartial (some J.asPartial) rho
      bound relativeDual floor) fun _ => True := by
  refine Completes.bind (completes_pure (P := fun A => A = J.asPartial) rfl) ?_
  rintro _ rfl
  have hfirst := NormalState.standsAt_first (a := ⟨start, c, J, options.trustRadius⟩)
    ⟨hstart, hc, hJ⟩
  refine (NormalState.completes_iterate (P := fun s => ∃ a, s.StandsAt p a) ?_ ?_ ⟨_, hfirst⟩ _
    0).bind fun _ _ => completes_pure trivial
  · rintro s ⟨a, hs⟩
    obtain ⟨-, hconstraints, hjacobian⟩ := hs.shapes hp
    exact NormalState.completes_examine hjacobian hconstraints (fun _ => ⟨_, rfl⟩) _ b _
  · rintro s g Jg ⟨a, hs⟩ haims
    exact hs.attempt hp hfinite hacceptance hleast haims

/-- A curve with a pole, given by `1 / x - 2`. -/
noncomputable def pole : Problem PartialReal where
  name := "pole"
  start := [of 1]
  constraintCount := 1
  inequalityCount := 0
  bounded := false
  evaluationTime := 0
  objective := fun _ => .ok 0
  gradient := fun x => .ok (Vec.zeros x.length)
  constraints := fun x => .ok (x.map fun a => 1 / a - 2.0)
  jacobianPattern := [⟨0, 0⟩]
  jacobianValues := fun x => .ok (x.map fun a => -(1 / (a * a)))
  hessianPattern := []
  hessianValues := fun _ _ _ => .ok []

namespace pole

/-- The slope at the start. -/
noncomputable def slope : SparseMatrix ℝ := ⟨1, 1, [[some (-1)]]⟩

theorem isTotal : pole.IsTotal 1 where
  rowCount := rfl
  jacobian := by decide
  hessian := by simp [pole]
  objective_total _ _ := ⟨0, rfl⟩
  gradient_total x hx := ⟨_, rfl, (Vec.length_zeros _).trans hx⟩
  constraints_total x hx := ⟨_, rfl, (List.length_map _).trans hx⟩
  jacobian_total x hx := ⟨_, rfl, (List.length_map _).trans hx⟩
  hessian_total _ _ _ _ _ := ⟨[], rfl, rfl⟩

theorem jacobian_eq (a : PartialReal) :
    pole.jacobian [a] = .ok ⟨1, 1, [[some (-(1 / (a * a)))]]⟩ := rfl

theorem hasFiniteJacobian : pole.HasFiniteJacobian := by
  intro x c J hx hc hJ
  obtain ⟨a, rfl⟩ := List.length_eq_one_iff.1 hx
  have hvalue : [of 1 / of a - of 2.0] = c.asPartial := Except.ok.inj hc
  have ha : a ≠ 0 := by
    rintro rfl
    rw [PartialReal.div_zero, PartialReal.missing_sub] at hvalue
    cases c with
    | nil => cases hvalue
    | cons y c => cases (List.cons.inj hvalue).1
  refine ⟨⟨1, 1, [[some (-(1 / (a * a)))]]⟩, ?_⟩
  rw [Except.ok.inj (hJ.symm.trans (jacobian_eq (of a))), PartialReal.of_mul, PartialReal.of_one,
    PartialReal.of_div (mul_ne_zero ha ha), PartialReal.of_neg]
  rfl

theorem start_constraints : pole.constraints (Vec.asPartial [1]) = .ok (Vec.asPartial [-1]) := by
  have hvalue : of 1 / of 1 - of 2.0 = of (-1) := by
    rw [PartialReal.of_div one_ne_zero, PartialReal.of_sub]
    norm_num
  exact congrArg (fun a => Except.ok [a]) hvalue

theorem start_jacobian : pole.jacobian (Vec.asPartial [1]) = .ok slope.asPartial := by
  refine (jacobian_eq (of 1)).trans ?_
  rw [PartialReal.of_mul, PartialReal.of_one, PartialReal.of_div (by norm_num), PartialReal.of_neg]
  norm_num [slope, SparseMatrix.asPartial]

theorem slope_hasShape : slope.HasShape 1 1 := ⟨rfl, rfl, rfl, by simp [slope]⟩

theorem norm_singleton (a : ℝ) : Vec.norm [a] = |a| := by
  show Real.sqrt (0 + a * a) = |a|
  rw [zero_add, Real.sqrt_mul_self_eq_abs]

theorem vector_of_solve {tolerances : LeastSquares.Tolerances ℝ}
    {gaussNewton : LeastSquares.Solution ℝ}
    (h : LeastSquares.solve slope.operator (Vec.negate [-1]) tolerances none = .ok gaussNewton) :
    gaussNewton.vector = [-1] := by
  obtain ⟨hlength, hleast⟩ :=
    (LeastSquares.minimizesShortest_of_solve slope_hasShape rfl h).toMinimizes
  obtain ⟨x, hx⟩ := List.length_eq_one_iff.1 hlength
  have hmodel : ∀ y : ℝ, Vec.norm (Vec.plus [-1] (slope.apply [y])) = |-1 - y| := by
    intro y
    rw [← norm_singleton]
    simp [slope, SparseMatrix.apply, SparseMatrix.rowProduct, Vec.plus, sub_eq_add_neg]
  have hmet : |-1 - x| ≤ 0 := by
    have hbest := hleast [-1] rfl
    rw [hx, hmodel, hmodel] at hbest
    simpa using hbest
  have hx' : x = -1 := by linarith [abs_nonpos_iff.1 hmet]
  rw [hx, hx']

/-- Where the first trial is made. -/
noncomputable def outset : Standing := ⟨[1], [-1], slope, 1⟩

theorem outset_standsAt : outset.first.StandsAt pole outset :=
  NormalState.standsAt_first ⟨rfl, start_constraints, start_jacobian⟩

theorem outset_aims : outset.first.Aims NormalOptions.standard.asPartial (of 0)
    (outset.first.jacobian.applyTransposed outset.first.constraints)
    (outset.first.jacobian.apply
      (outset.first.jacobian.applyTransposed outset.first.constraints)) where
  outside := by
    rw [outset_standsAt.constraintNorm, PartialReal.of_le]
    simp [outset, norm_singleton]
  length := rfl
  gradient := rfl
  gradient_length := rfl
  gradient_nonzero := by
    rw [outset_standsAt.jacobian, outset_standsAt.constraints,
      SparseMatrix.applyTransposed_asPartial, Vec.isNonzero_asPartial]
    simp [outset, slope, SparseMatrix.applyTransposed, SparseMatrix.addRow, Vec.zeros,
      Vec.isNonzero, Scalar.real_beq]
  image := rfl
  region := by
    have hlarge : ¬ of 1 < of 1e-12 := by
      rw [PartialReal.of_lt]
      norm_num
    exact hlarge

theorem acceptance_le : (NormalOptions.standard : NormalOptions ℝ).acceptance ≤ 1 / 4 := by
  have hvalue : (1e-4 : ℝ) ≤ 1 / 4 := by norm_num
  exact hvalue

theorem first_trial {g Jg : Vec PartialReal} {s : NormalState PartialReal}
    (hmakes : outset.first.Makes NormalOptions.standard.asPartial.solver g Jg t)
    (hdecides : outset.first.Decides pole NormalOptions.standard.asPartial t s) :
    Scalar.isFinite t.constraintNorm = false := by
  obtain ⟨found, hfound, hpath⟩ := hmakes.displacement
  have hfound : LeastSquares.solve slope.asPartial.operator (Vec.negate [-1]).asPartial
      LeastSquares.Tolerances.standard.asPartial none = .ok found := hfound
  rw [LeastSquares.solve_asPartial slope.operator_extends] at hfound
  obtain ⟨gaussNewton, hsolve, rfl⟩ := Counted.except_map_eq_ok.1 hfound
  have hdisplacement : t.displacement = Vec.asPartial [-1] := by
    have hvector : gaussNewton.asPartial.vector = Vec.asPartial [-1] :=
      congrArg Vec.asPartial (vector_of_solve hsolve)
    have hpositive : ¬ of 1 ≤ (0 : PartialReal) := by
      rw [PartialReal.of_zero, PartialReal.of_le]
      norm_num
    have hinside : Vec.norm (Vec.asPartial [-1]) ≤ of 1 := by
      rw [Vec.norm_asPartial, PartialReal.of_le, norm_singleton]
      norm_num
    have hregion : outset.first.trustRadius = of 1 := rfl
    rw [hvector, hregion, dogleg, if_neg hpositive, if_pos hinside] at hpath
    exact (Except.ok.inj hpath).symm
  have hpoint : t.point = [of 0] := by
    have hsum : of 1 + of (-1) = of 0 := by
      rw [PartialReal.of_add, add_neg_cancel]
    rw [hdecides.point_eq (by rw [hdisplacement]; rfl), hdisplacement]
    exact congrArg (fun a => [a]) hsum
  obtain ⟨c, hc, hnorm, -⟩ := hdecides.constraints
  rw [hpoint] at hc
  have hvalue : [of 1 / of 0 - of 2.0] = c := Except.ok.inj hc
  rw [hnorm, ← hvalue, PartialReal.div_zero, PartialReal.missing_sub]
  rfl

theorem exists_missing {o : NormalOutcome PartialReal} {l' : Ledger PartialReal}
    (h : Returns (normalStep pole NormalOptions.standard.asPartial ⟨100, of 60, of 0⟩
      (Vec.asPartial [1]) (Vec.asPartial [-1]) (some slope.asPartial) 0 0 0 0) .empty o l') :
    ∃ t ∈ o.trials, Scalar.isFinite t.constraintNorm = false := by
  have hradius : updateRadius (0 : PartialReal) 0 0 0 = of 0 := by
    simp only [updateRadius, PartialReal.of_zero, PartialReal.of_scientific, PartialReal.min_of,
      PartialReal.of_mul, PartialReal.max_of, mul_zero]
    simp [Scalar.real_min, Scalar.real_max]
  have hbudget : (⟨100, of 60, of 0⟩ : Budget PartialReal).verdict
      ((⟨100, of 60, of 0⟩ : Budget PartialReal).look .empty) = none := by
    have htime : ¬ of 60 < of (0 + 0 - 0) := by
      rw [PartialReal.of_lt]
      norm_num
    exact Budget.verdict_look_eq_none_iff.2 ⟨by decide, htime⟩
  obtain ⟨last, status, count, hpasses, ho⟩ := normalStep_passes_known h
  rw [hradius] at hpasses
  have hpasses : Returns (NormalState.iterate NormalOptions.standard.asPartial.solver pole
    NormalOptions.standard.asPartial ⟨100, of 60, of 0⟩ (of 0) (99 + 1) 0 outset.first) .empty
    (last, status, count) l' := hpasses
  obtain ⟨l₁, hexamine⟩ := NormalState.examine_of_aims outset_aims rfl hbudget
  obtain ⟨s, l₂, hattempt, hlater⟩ := NormalState.iterate_succ_returns hpasses hexamine
  obtain ⟨t, htrials, hmakes, hdecides⟩ := NormalState.attempt_decides hattempt
  refine ⟨t, ?_, first_trial hmakes hdecides⟩
  obtain ⟨_, _, -, -, hstands⟩ := outset_standsAt.attempted hasFiniteJacobian acceptance_le
    NormalOptions.standard_minTrustRadius_pos outset_aims hattempt
  obtain ⟨later, _, hall, -⟩ := hstands.iterate hasFiniteJacobian acceptance_le
    NormalOptions.standard_minTrustRadius_pos hlater
  rw [ho, hall, htrials]
  exact List.mem_append_left _ (List.mem_append_right _ (List.mem_singleton_self t))

end pole

/-- The first trial on the way to the curve hits the pole; its rejections are bounded, too. -/
theorem pole_boundsRejections : ∃ o l',
    Returns (normalStep pole NormalOptions.standard.asPartial ⟨100, of 60, of 0⟩
      (Vec.asPartial [1]) (Vec.asPartial [-1]) (some pole.slope.asPartial) 0 0 0 0) .empty o l' ∧
    pole.HasFiniteJacobian ∧ (NormalOptions.standard : NormalOptions ℝ).acceptance ≤ 1 / 4 ∧
    0 < (NormalOptions.standard : NormalOptions ℝ).minTrustRadius ∧
    (∃ t ∈ o.trials, Scalar.isFinite t.constraintNorm = false) ∧
    ∃ J, o.BoundsRejections pole (NormalOptions.standard : NormalOptions ℝ).minTrustRadius
      ⟨[1], [-1], J, (NormalOptions.standard : NormalOptions ℝ).trustRadius⟩ := by
  have hacceptance := pole.acceptance_le
  have hleast := NormalOptions.standard_minTrustRadius_pos
  obtain ⟨o, l', hreturns, -⟩ := completes_normalStep_asPartial pole.isTotal
    pole.hasFiniteJacobian hacceptance hleast rfl pole.start_constraints pole.start_jacobian
    ⟨100, of 60, of 0⟩ 0 0 0 0 .empty
  refine ⟨o, l', hreturns, pole.hasFiniteJacobian, hacceptance, hleast,
    pole.exists_missing hreturns, ?_⟩
  refine normalStep_boundsRejections hreturns rfl pole.start_constraints ?_ pole.hasFiniteJacobian
    hacceptance hleast
  rintro J ⟨⟩
  exact pole.start_jacobian

end InfeasibilityControl
