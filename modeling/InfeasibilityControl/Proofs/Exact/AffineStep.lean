import Mathlib
import InfeasibilityControl.Proofs.Exact.AffineProblem
import InfeasibilityControl.Proofs.Exact.NormalStep
import InfeasibilityControl.Proofs.Exact.Termination

set_option autoImplicit false
set_option relaxedAutoImplicit false

/-!
The normal step on affine constraints that can be met, where the least-squares problems are solved
by their shortest solutions.

The linear model is exact, so every trial does what was predicted and is accepted. As long as a
trial does not meet the constraints it ends on the boundary of its region, and the region is
doubled, while the distance to the points that meet the constraints does not grow. After as many
doublings as it takes to cover the first distance one more trial meets them. How the solutions are
found does not matter.
-/

namespace InfeasibilityControl

open Counted (Returns Completes completes_pure completes_ite)

/-- The solver found the shortest solution of the trial's least-squares problem. -/
def Trial.SolvesShortest (p : Problem ℝ) (solver : LeastSquares.Solver ℝ) (t : Trial ℝ) : Prop :=
  ∀ c gaussNewton, p.constraints t.origin = .ok c →
    solver t.jacobian.operator (Vec.negate c) = .ok gaussNewton →
    t.jacobian.MinimizesShortest c gaussNewton.vector

theorem Trial.solvesShortest_exact {p : Problem ℝ} {t : Trial ℝ} {m n : Nat} {lower upper : ℝ}
    (hJ : t.jacobian.HasShape m n)
    (hL : LeastSquares.IsConditioned (t.jacobian.linear m n) lower upper) :
    t.SolvesShortest p (.recurrence .exact none) := fun _ _ _ hfound =>
  LeastSquares.minimizesShortest_exact hJ hL hfound

namespace NormalState

variable {p : Problem ℝ} {A : SparseMatrix ℝ} {b : Vec ℝ} {options : NormalOptions ℝ}
  {budget : Budget ℝ} {radius reach : ℝ} {s s' : NormalState ℝ} {solver : LeastSquares.Solver ℝ}

theorem reductionRatio_exact {normSquare trialNorm : ℝ} (h : trialNorm * trialNorm < normSquare) :
    reductionRatio normSquare trialNorm (0.5 * (normSquare - trialNorm * trialNorm)) =
      .ok (some 1) := by
  have hpositive : 0 < 0.5 * (normSquare - trialNorm * trialNorm) :=
    mul_pos (by norm_num) (sub_pos.2 h)
  have hfinite : Scalar.isFinite trialNorm = true := rfl
  rw [reductionRatio, if_pos ⟨hpositive, hfinite⟩]
  show Except.ok (some (0.5 * (normSquare - trialNorm * trialNorm) /
    (0.5 * (normSquare - trialNorm * trialNorm)))) = _
  rw [div_self hpositive.ne']

theorem ratioReaches_one (hacceptance : options.acceptance ≤ 1) :
    ratioReaches (some 1) options.acceptance = true := by
  simpa [ratioReaches] using hacceptance

theorem nextTrustRadius_one (stepNorm trustRadius : ℝ) :
    nextTrustRadius (some 1) stepNorm trustRadius =
      if 0.99 * trustRadius ≤ stepNorm then 2 * trustRadius else trustRadius := by
  have hpoor : ¬ (1 : ℝ) < 0.25 := by norm_num
  have hgood : (0.75 : ℝ) < 1 := by norm_num
  have htwo : (2.0 : ℝ) = 2 := by norm_num
  simp only [nextTrustRadius, if_neg hpoor, hgood, true_and, htwo]

theorem le_nextTrustRadius_one (stepNorm : ℝ) {trustRadius : ℝ} (h : 0 ≤ trustRadius) :
    trustRadius ≤ nextTrustRadius (some 1) stepNorm trustRadius := by
  rw [nextTrustRadius_one]
  split
  · linarith
  · exact le_rfl

/-- A normal step on affine constraints between two trials. All that it has tried was accepted, its
regions have not shrunk, and what is left to go is not more than at first. Either the constraints
are met, or every trial so far has doubled the region. -/
structure Approaches (p : Problem ℝ) (A : SparseMatrix ℝ) (options : NormalOptions ℝ) (reach : ℝ)
    (s : NormalState ℝ) : Prop where
  point : s.point.length = p.variableCount
  constraints : p.constraints s.point = .ok s.constraints
  constraintNorm : s.constraintNorm = Vec.norm s.constraints
  jacobian : s.jacobian = A
  untroubled : s.rejected = false
  accepted : ∀ t ∈ s.trials, t.accepted = true
  regions : (options.trustRadius :: s.trials.map Trial.trustRadius ++ [s.trustRadius]).IsChain
    (· ≤ ·)
  region : options.trustRadius ≤ s.trustRadius
  near : ∀ d, A.MinimizesShortest s.constraints d → Vec.norm d ≤ reach
  progress : ∀ k : Nat, reach ≤ options.trustRadius * 2 ^ k →
    (s.constraintNorm = 0 ∧ s.trials.length ≤ k + 1) ∨
      (s.trustRadius = options.trustRadius * 2 ^ s.trials.length ∧ s.trials.length ≤ k)

/-- A step along the dogleg path to the shortest solution, where the constraints have a descent. -/
structure FollowsPath (p : Problem ℝ) (A : SparseMatrix ℝ) (b : Vec ℝ) (s : NormalState ℝ)
    (q d : Vec ℝ) : Prop where
  shortest : A.MinimizesShortest s.constraints q
  length : d.length = p.variableCount
  gradient : (A.applyTransposed s.constraints).euclid p.variableCount ≠ 0
  pathEnd : LinearModel.PathEnd (A.linear b.length p.variableCount)
    ((A.applyTransposed s.constraints).euclid p.variableCount) (q.euclid p.variableCount)
    s.trustRadius (d.euclid p.variableCount)

theorem Approaches.gradient_nonzero (h : s.Approaches p A options reach) (hp : p.IsAffine A b)
    (hoff : s.constraintNorm ≠ 0) : Vec.isNonzero (A.applyTransposed s.constraints) = true := by
  refine hp.gradient_nonzero h.point h.constraints ?_
  rw [← h.constraintNorm]
  exact hoff

variable {q d : Vec ℝ}

theorem Approaches.near_after (h : s.Approaches p A options reach) (hp : p.IsAffine A b)
    (htrust : 0 < s.trustRadius) (hd : s.FollowsPath p A b q d) :
    ∀ v, A.MinimizesShortest (Vec.plus s.constraints (A.apply d)) v → Vec.norm v ≤ reach := by
  intro v hv
  have hqlength : q.length = p.variableCount := hd.shortest.length.trans hp.hasShape.columnCount
  have hzero := (hp.minimizes_iff h.point h.constraints hqlength).1 hd.shortest.toMinimizes
  have hrest : (Vec.minus q d).length = p.variableCount :=
    Vec.length_minus_of_length hqlength hd.length
  have hlength := hp.length_constraints h.point h.constraints
  have himage := hp.hasShape.length_apply d
  -- What the step has left of the way to the shortest solution solves the next problem.
  have hleft : A.Minimizes (Vec.plus s.constraints (A.apply d)) (Vec.minus q d) := by
    refine (hp.minimizes_iff (Vec.length_plus_of_length h.point hd.length)
      (hp.constraints_plus h.point h.constraints hd.length) hrest).2 ?_
    rw [Vec.euclid_plus (hlength.trans himage.symm), hp.hasShape.euclid_apply,
      Vec.euclid_minus (hqlength.trans hd.length.symm), map_sub, ← hzero]
    abel
  calc Vec.norm v ≤ Vec.norm (Vec.minus q d) := hv.shortest _ hleft
    _ = ‖q.euclid p.variableCount - d.euclid p.variableCount‖ := by
      rw [Vec.norm_eq hrest.le, Vec.euclid_minus (hqlength.trans hd.length.symm)]
    _ ≤ ‖q.euclid p.variableCount‖ :=
      hd.pathEnd.distance_le (hp.hasShape.isGradient s.constraints) hd.gradient htrust.le hzero
    _ = Vec.norm q := (Vec.norm_eq hqlength.le).symm
    _ ≤ reach := h.near q hd.shortest

/-- A trial along the dogleg path either meets the constraints or doubles the region. -/
theorem Approaches.progress_after (h : s.Approaches p A options reach) (hp : p.IsAffine A b)
    (htrust : 0 < s.trustRadius) (hoff : s.constraintNorm ≠ 0)
    (hd : s.FollowsPath p A b q d) {k : Nat}
    (hk : reach ≤ options.trustRadius * 2 ^ k) :
    (Vec.norm (Vec.plus s.constraints (A.apply d)) = 0 ∧ s.trials.length + 1 ≤ k + 1) ∨
      (nextTrustRadius (some 1) (Vec.norm d) s.trustRadius =
        options.trustRadius * 2 ^ (s.trials.length + 1) ∧ s.trials.length + 1 ≤ k) := by
  have hqlength : q.length = p.variableCount := hd.shortest.length.trans hp.hasShape.columnCount
  obtain ⟨hmet, -⟩ | ⟨hdoubled, hcount⟩ := h.progress k hk
  · exact absurd hmet hoff
  obtain inside | outside := le_or_gt (Vec.norm q) s.trustRadius
  · left
    rw [Vec.norm_eq hqlength.le] at inside
    have hlength := hp.length_constraints h.point h.constraints
    have hzero := (hp.minimizes_iff h.point h.constraints hqlength).1 hd.shortest.toMinimizes
    refine ⟨?_, by omega⟩
    rw [hp.hasShape.norm_model hlength, hd.pathEnd.eq_of_inside inside, hzero, norm_zero]
  · right
    have hnorm : Vec.norm d = s.trustRadius := by
      rw [Vec.norm_eq hqlength.le] at outside
      rw [Vec.norm_eq hd.length.le]
      exact hd.pathEnd.norm_eq hd.gradient htrust.le outside
    have hboundary : 0.99 * s.trustRadius ≤ Vec.norm d := by
      rw [hnorm]
      exact mul_le_of_le_one_left htrust.le (by norm_num)
    -- After `k` doublings the shortest solution would lie inside the region.
    have hearly : s.trials.length ≠ k := by
      intro hlast
      have hreach := (h.near q hd.shortest).trans hk
      rw [← hlast, ← hdoubled] at hreach
      exact absurd hreach (not_le.2 outside)
    refine ⟨?_, by omega⟩
    rw [nextTrustRadius_one, if_pos hboundary, hdoubled, pow_succ]
    ring

theorem Approaches.advance (h : s.Approaches p A options reach) (hp : p.IsAffine A b)
    (htrust : 0 < s.trustRadius) (hoff : s.constraintNorm ≠ 0)
    (hd : s.FollowsPath p A b q d) {t : Trial ℝ} (ht : t.accepted = true)
    (hregion : t.trustRadius = s.trustRadius) :
    Approaches p A options reach
      { point := Vec.plus s.point d
        constraints := Vec.plus s.constraints (A.apply d)
        constraintNorm := Vec.norm (Vec.plus s.constraints (A.apply d))
        jacobian := A
        trustRadius := nextTrustRadius (some 1) (Vec.norm d) s.trustRadius
        rejected := false
        trials := s.trials ++ [t] } := by
  have hgrows := le_nextTrustRadius_one (Vec.norm d) htrust.le
  refine ⟨Vec.length_plus_of_length h.point hd.length,
    hp.constraints_plus h.point h.constraints hd.length, rfl, rfl, rfl, ?_, ?_,
    h.region.trans hgrows, h.near_after hp htrust hd, ?_⟩
  · intro u hu
    obtain hu | hu := List.mem_append.1 hu
    · exact h.accepted u hu
    · rw [List.mem_singleton.1 hu]
      exact ht
  · have hregions := h.regions
    rw [List.map_append, List.map_singleton, hregion]
    refine List.isChain_append.2 ⟨hregions, .singleton _, ?_⟩
    intro x hx y hy
    rw [← List.cons_append, List.getLast?_concat] at hx
    obtain rfl := Option.some.inj hx
    obtain rfl := Option.some.inj hy
    exact hgrows
  · intro k hk
    rw [List.length_append, List.length_singleton]
    exact h.progress_after hp htrust hoff hd hk

variable {g Jg : Vec ℝ} {t : Trial ℝ}

theorem Approaches.exists_followsPath (h : s.Approaches p A options reach) (hp : p.IsAffine A b)
    (htrust : 0 < s.trustRadius) (haims : s.Aims options radius g Jg)
    (hmakes : s.Makes solver g Jg t) (hsolves : t.SolvesShortest p solver) :
    ∃ q, s.FollowsPath p A b q t.displacement := by
  obtain ⟨gaussNewton, hfound, hpath⟩ := hmakes.displacement
  have hq : A.MinimizesShortest s.constraints gaussNewton.vector := by
    have hshortest := hsolves s.constraints gaussNewton
    rw [hmakes.origin, hmakes.jacobian, h.jacobian] at hshortest
    exact hshortest h.constraints (h.jacobian ▸ hfound)
  have hnonzero := haims.gradient_nonzero
  rw [haims.image, haims.gradient, h.jacobian] at hpath
  rw [haims.gradient, h.jacobian] at hnonzero
  obtain ⟨step, d, hcauchy, hd, hlength, hend⟩ := exists_pathEnd hp.hasShape
    (hq.length.trans hp.hasShape.columnCount) hnonzero htrust
  rw [hcauchy, hd] at hpath
  obtain rfl := Except.ok.inj hpath
  have hgradient := hp.hasShape.length_applyTransposed s.constraints
  exact ⟨gaussNewton.vector, hq, hlength, (Vec.isNonzero_iff hgradient).1 hnonzero, hend⟩

theorem Approaches.judged (h : s.Approaches p A options reach) (hp : p.IsAffine A b)
    (hacceptance : options.acceptance ≤ 1) (htrust : 0 < s.trustRadius)
    (hmakes : s.Makes solver g Jg t) (hdecides : s.Decides p options t s')
    (hd : s.FollowsPath p A b q t.displacement) :
    t.point = Vec.plus s.point t.displacement ∧ t.accepted = true ∧
      s'.constraints = Vec.plus s.constraints (A.apply t.displacement) ∧
      t.constraintNorm = Vec.norm s'.constraints ∧
      s'.trustRadius = nextTrustRadius (some 1) (Vec.norm t.displacement) s.trustRadius := by
  have hlength := hp.length_constraints h.point h.constraints
  have hpoint := hdecides.point_eq (hd.length.trans h.point.symm)
  obtain ⟨c, hc, hnorm, hnext⟩ := hdecides.constraints
  rw [hpoint, hp.constraints_plus h.point h.constraints hd.length] at hc
  obtain rfl := Except.ok.inj hc
  obtain ⟨modelled, normSquare, modelSquare, hmodel, hnormSquare, hmodelSquare, hpredicted⟩ :=
    hmakes.predicted
  rw [h.jacobian, Vec.add_of_length (hlength.trans (hp.hasShape.length_apply _).symm)] at hmodel
  obtain rfl := Except.ok.inj hmodel
  obtain rfl : s.constraintNorm * s.constraintNorm = normSquare := Except.ok.inj hnormSquare
  obtain rfl : _ * _ = modelSquare := Except.ok.inj hmodelSquare
  have hless : Vec.norm (Vec.plus s.constraints (A.apply t.displacement)) < s.constraintNorm := by
    rw [h.constraintNorm, hp.hasShape.norm_model hlength, Vec.norm_eq hlength.le]
    exact hd.pathEnd.model_lt (hp.hasShape.isGradient _) hd.gradient
      (hd.shortest.isMinimizer hp.hasShape hlength) htrust
  -- The ratio of the actual to the predicted reduction is one.
  obtain ⟨normSquare, ratio, hsquare, hratio, haccepted, hregion⟩ := hdecides.judged
  obtain rfl : s.constraintNorm * s.constraintNorm = normSquare := Except.ok.inj hsquare
  rw [hnorm, hpredicted, reductionRatio_exact (mul_self_lt_mul_self (Vec.norm_nonneg _) hless)]
    at hratio
  obtain rfl := Except.ok.inj hratio
  rw [ratioReaches_one hacceptance, hnorm, decide_eq_true hless] at haccepted
  exact ⟨hpoint, haccepted, hnext haccepted, by rw [hnorm, hnext haccepted], hregion⟩

theorem Approaches.attempted (h : s.Approaches p A options reach) (hp : p.IsAffine A b)
    (hacceptance : options.acceptance ≤ 1) (htrust : 0 < options.trustRadius) (hradius : 0 ≤ radius)
    (haims : s.Aims options radius g Jg) (hmakes : s.Makes solver g Jg t)
    (hdecides : s.Decides p options t s') (htrials : s'.trials = s.trials ++ [t])
    (hsolves : t.SolvesShortest p solver) : s'.Approaches p A options reach := by
  have hregion := htrust.trans_le h.region
  have hoff : s.constraintNorm ≠ 0 := (hradius.trans_lt (not_le.1 haims.outside)).ne'
  obtain ⟨q, hd⟩ := h.exists_followsPath hp hregion haims hmakes hsolves
  obtain ⟨hpoint, haccepted, hconstraints, hnorm, hnext⟩ :=
    h.judged hp hacceptance hregion hmakes hdecides hd
  obtain ⟨hmoved, hnormMoved, hjacobian, huntroubled⟩ := hdecides.accepted haccepted
  rw [hpoint] at hmoved hjacobian
  rw [hp.jacobian _ (Vec.length_plus_of_length h.point hd.length)] at hjacobian
  rw [hnorm, hconstraints] at hnormMoved
  have hsame : s' = ⟨s'.point, s'.constraints, s'.constraintNorm, s'.jacobian, s'.trustRadius,
    s'.rejected, s'.trials⟩ := rfl
  rw [hsame, hmoved, hconstraints, hnormMoved, ← Except.ok.inj hjacobian, hnext, huntroubled,
    htrials]
  exact h.advance hp hregion hoff hd haccepted hmakes.trustRadius

theorem Approaches.examine (h : s.Approaches p A options reach) (hp : p.IsAffine A b)
    (hmin : options.minTrustRadius ≤ options.trustRadius) (hradius : 0 ≤ radius) :
    Completes (s.examine options budget radius) fun x => x ≠ .inl .infeasible := by
  have hlength := hp.length_constraints h.point h.constraints
  have hJ : s.jacobian.HasShape b.length p.variableCount := h.jacobian ▸ hp.hasShape
  refine completes_ite (fun _ => completes_pure nofun) fun houtside => ?_
  have hoff : s.constraintNorm ≠ 0 := ((hradius.trans_lt (not_le.1 houtside)).ne')
  refine budget.completes_exhausted.bind fun limit? _ => ?_
  cases limit? with
  | some limit => exact completes_pure nofun
  | none =>
    have hgradient : Vec.isNonzero (s.jacobian.applyTransposed s.constraints) = true := by
      rw [h.jacobian]
      exact h.gradient_nonzero hp hoff
    refine (hJ.transposedProduct hlength).bind ?_
    rintro g rfl
    refine completes_ite (fun hzero => absurd hzero (by simp [hgradient])) fun _ => ?_
    refine (hJ.product (hJ.length_applyTransposed _)).bind ?_
    rintro Jg rfl
    refine completes_ite (fun htroubled => absurd htroubled (by simp [h.untroubled])) fun _ => ?_
    refine completes_ite (fun hsmall => ?_) fun _ => completes_pure nofun
    exact absurd (hmin.trans h.region) (not_le.2 hsmall)

/-- The passes accept all their trials, and give up only after all passes that are allowed have been
made. -/
theorem Approaches.of_runs {passes made : Nat} {last : NormalState ℝ} {status : NormalStatus}
    {count : Int} {l l' : Ledger ℝ} (h : s.Approaches p A options reach) (hp : p.IsAffine A b)
    (hacceptance : options.acceptance ≤ 1) (htrust : 0 < options.trustRadius)
    (hmin : options.minTrustRadius ≤ options.trustRadius) (hradius : 0 ≤ radius)
    (hruns : Runs solver p options budget radius passes made s l last status count l')
    (hsolves : ∀ t ∈ last.trials, t.SolvesShortest p solver) :
    last.Approaches p A options reach ∧ (status = .infeasible →
      last.constraintNorm ≠ 0 ∧ last.trials.length = s.trials.length + passes) := by
  induction hruns with
  | concluded concluding =>
    refine ⟨h, fun hstatus => ⟨?_, rfl⟩⟩
    cases conclude_returns concluding with
    | success inside => cases hstatus
    | exhausted outside verdict rests => cases hstatus
    | infeasible outside rests => exact (hradius.trans_lt (not_le.1 outside)).ne'
  | ended ending =>
    refine ⟨h, fun hstatus => absurd ?_ ((h.examine hp hmin hradius).of_returns ending)⟩
    rw [hstatus]
  | tried aiming trying later ih =>
    obtain ⟨t, htrials, hmakes, hdecides⟩ := attempt_decides trying
    have hlater : t ∈ _ := later.trials_prefix.subset (htrials ▸ List.mem_concat_self)
    obtain ⟨hlast, hends⟩ := ih (h.attempted hp hacceptance htrust hradius (examine_aims aiming)
      hmakes hdecides htrials (hsolves t hlater)) hsolves
    refine ⟨hlast, fun hstatus => ⟨(hends hstatus).1, ?_⟩⟩
    have hall := (hends hstatus).2
    rw [htrials, List.length_append, List.length_singleton] at hall
    omega

end NormalState

variable {p : Problem ℝ} {A : SparseMatrix ℝ} {b start c : Vec ℝ} {options : NormalOptions ℝ}
  {jacobian? : Option (SparseMatrix ℝ)} {rho bound relativeDual floor : ℝ}
  {solver : LeastSquares.Solver ℝ}

theorem updateRadius_nonneg (hrho : 0 ≤ rho) (hbound : 0 ≤ bound) (hdual : 0 ≤ relativeDual) :
    0 ≤ updateRadius rho bound relativeDual floor := by
  rw [updateRadius, Scalar.real_min, Scalar.real_max, Scalar.real_min]
  have hpart : 0 ≤ min relativeDual 0.75 * bound :=
    mul_nonneg (le_min hdual (by norm_num)) hbound
  exact le_min hrho (le_max_of_le_left hpart)

/-- Where a normal step on affine constraints stands at its end, if its least-squares problems have
been solved. If it has made a trial, the first one was aimed at the shortest solution. -/
theorem exists_approaches (hp : p.IsAffine A b) (hstart : start.length = p.variableCount)
    (hc : p.constraints start = .ok c) (hJ : ∀ J ∈ jacobian?, J = A) (hrho : 0 ≤ rho)
    (hbound : 0 ≤ bound) (hdual : 0 ≤ relativeDual) (hacceptance : options.acceptance ≤ 1)
    (htrust : 0 < options.trustRadius) (hmin : options.minTrustRadius ≤ options.trustRadius)
    {budget : Budget ℝ} {o : NormalOutcome ℝ} {l l' : Ledger ℝ}
    (h : Returns (normalStepWith solver p options budget start c jacobian? rho bound relativeDual
      floor) l o l') (hsolves : ∀ t ∈ o.trials, t.SolvesShortest p solver) :
    ∃ reach, ∃ last : NormalState ℝ, last.Approaches p A options reach ∧
      o.trials = last.trials ∧ o.trustRadius = last.trustRadius ∧
      (o.status = .infeasible →
        last.constraintNorm ≠ 0 ∧ last.trials.length = options.maxTrials.toNat) ∧
      ∀ gaussNewton, solver A.operator (Vec.negate c) = .ok gaussNewton →
        last.trials = [] ∨ reach ≤ Vec.norm gaussNewton.vector := by
  obtain ⟨J, l₁, last, hjacobian, -, hpasses, ho⟩ := normalStep_passes_from h (hp.known hstart hJ)
  rw [hp.jacobian start hstart] at hjacobian
  obtain rfl := Except.ok.inj hjacobian
  have htrials : o.trials = last.trials := by rw [ho]
  rw [htrials] at hsolves
  obtain ⟨q, hshortest⟩ :=
    hp.hasShape.exists_minimizesShortest (hp.length_constraints hstart hc)
  have hbegins : NormalState.Approaches p A options (Vec.norm q)
      ⟨start, c, Vec.norm c, A, options.trustRadius, false, []⟩ :=
    { point := hstart
      constraints := hc
      constraintNorm := rfl
      jacobian := rfl
      untroubled := rfl
      accepted := by simp
      regions := by simp
      region := le_rfl
      near := fun d hd => hd.shortest _ hshortest.toMinimizes
      progress := fun k _ => .inr ⟨by simp, Nat.zero_le k⟩ }
  have hruns := NormalState.runs_of_iterate hpasses
  obtain ⟨hlast, hends⟩ := hbegins.of_runs hp hacceptance htrust hmin
    (updateRadius_nonneg hrho hbound hdual) hruns hsolves
  refine ⟨Vec.norm q, last, hlast, htrials, by rw [ho], fun hstatus => ?_,
    fun gaussNewton hfound => hruns.first_trial.imp_right ?_⟩
  · obtain ⟨hoff, hall⟩ := hends hstatus
    exact ⟨hoff, by simpa using hall⟩
  · rintro ⟨t, ht, horigin, hmade⟩
    have hfirst := hsolves t ht c gaussNewton
    rw [horigin, hmade] at hfirst
    exact hshortest.shortest _ (hfirst hc hfound).toMinimizes

/-- Outside the radius a normal step that may make trials makes one. -/
theorem trials_ne_nil_of_isAffine (hp : p.IsAffine A b) (hstart : start.length = p.variableCount)
    (hc : p.constraints start = .ok c) (hrho : 0 ≤ rho) (hbound : 0 ≤ bound)
    (hdual : 0 ≤ relativeDual) (hacceptance : options.acceptance ≤ 1)
    (htrust : 0 < options.trustRadius) (hmin : options.minTrustRadius ≤ options.trustRadius)
    (hmax : 0 < options.maxTrials)
    (houtside : updateRadius rho bound relativeDual floor < Vec.norm c) {budget : Budget ℝ}
    {o : NormalOutcome ℝ} {l l' : Ledger ℝ} (hstill : l.clock.IsStill p.evaluationTime)
    (hevaluations : (l.counters.evaluations : Int) ≤ budget.maxEvaluations)
    (htime : ¬ budget.maxTime < l.time - budget.startTime)
    (h : Returns (normalStepWith solver p options budget start c (some A) rho bound relativeDual
      floor) l o l') : o.trials ≠ [] := by
  intro hnone
  obtain ⟨hradius, hfollows⟩ := normalStep_returns h
  cases hstatus : o.status with
  | success =>
    have hinside := hfollows.success_iff.1 hstatus
    rw [NormalOutcome.primalNorm, (hfollows.unmoved hnone).2.1, hradius] at hinside
    exact absurd hinside (not_le.2 houtside)
  | infeasible =>
    have hknown : ∀ J ∈ some A, J = A := fun _ hJ => (Option.mem_some.1 hJ).symm
    obtain ⟨-, last, -, htrials, -, hgivesUp, -⟩ := exists_approaches hp hstart hc hknown hrho
      hbound hdual hacceptance htrust hmin h (by simp [hnone])
    have hall := (hgivesUp hstatus).2
    rw [← htrials, hnone, List.length_nil] at hall
    omega
  | exhausted limit =>
    refine hfollows.not_exhausted hstill ?_ htime limit hstatus
    simpa [hnone] using hevaluations

/-- A normal step on affine constraints that can be met comes to its end, however its least-squares
problems are solved. If the shortest solution was found at each of its trials, all trials are
accepted and the region never shrinks. If `k` doublings of the first region cover the first
Gauss–Newton step, at most `k + 1` trials are made; with so many allowed and no check of the budget
against it the step succeeds, and it gives up only after all the trials that are allowed, if these
are not more than `k`. -/
theorem normalStepWith_of_isAffine (hp : p.IsAffine A b) (hsolver : solver.Answers A.operator)
    (hstart : start.length = p.variableCount) (hc : p.constraints start = .ok c)
    (hJ : ∀ J ∈ jacobian?, J = A) (hrho : 0 ≤ rho) (hbound : 0 ≤ bound)
    (hdual : 0 ≤ relativeDual) (hacceptance : options.acceptance ≤ 1)
    (hmin : 0 < options.minTrustRadius) (htrust : options.minTrustRadius ≤ options.trustRadius)
    (budget : Budget ℝ) (floor : ℝ) (l : Ledger ℝ) :
    ∃ o l', Returns (normalStepWith solver p options budget start c jacobian? rho bound relativeDual
        floor) l o l' ∧
      ((∀ t ∈ o.trials, t.SolvesShortest p solver) →
        (∀ t ∈ o.trials, t.accepted = true) ∧
        (options.trustRadius :: o.trials.map Trial.trustRadius ++ [o.trustRadius]).IsChain
          (· ≤ ·) ∧
        ∀ gaussNewton, solver A.operator (Vec.negate c) = .ok gaussNewton →
          ∀ k : Nat, Vec.norm gaussNewton.vector ≤ options.trustRadius * 2 ^ k →
            o.trials.length ≤ k + 1 ∧
            ((k : Int) + 1 ≤ options.maxTrials →
              (∀ check ∈ l'.checks.drop l.checks.length, budget.verdict check = none) →
              o.status = .success) ∧
            (o.status = .infeasible →
              (o.trials.length : Int) = max options.maxTrials 0 ∧ options.maxTrials ≤ k)) := by
  have hknown := hp.known hstart hJ
  have hanswers : ∀ x J, x.length = p.variableCount → p.jacobian x = .ok J →
      solver.Answers J.operator := by
    intro x J hx hjacobian
    rw [hp.jacobian x hx] at hjacobian
    exact Except.ok.inj hjacobian ▸ hsolver
  obtain ⟨o, l', hreturns, -⟩ := completes_normalStepWith hp.isConstrained hanswers hmin hstart hc
    hknown budget rho bound relativeDual floor l
  refine ⟨o, l', hreturns, fun hsolves => ?_⟩
  obtain ⟨reach, last, hlast, htrials, hregion, hinfeasible, hfirst⟩ := exists_approaches hp hstart
    hc hJ hrho hbound hdual hacceptance (hmin.trans_le htrust) htrust hreturns hsolves
  rw [htrials, hregion]
  refine ⟨hlast.accepted, hlast.regions, fun gaussNewton hfound k hk => ?_⟩
  have hcount : (last.constraintNorm = 0 ∧ last.trials.length ≤ k + 1) ∨
      last.trials.length ≤ k := by
    obtain hnone | hreach := hfirst gaussNewton hfound
    · exact .inr (by simp [hnone])
    · exact (hlast.progress k (hreach.trans hk)).imp_right And.right
  have hgivesUp : o.status = .infeasible →
      (last.trials.length : Int) = max options.maxTrials 0 ∧ options.maxTrials ≤ k := by
    intro hstatus
    obtain ⟨hoff, hall⟩ := hinfeasible hstatus
    have hfew := hcount.resolve_left fun hmet => hoff hmet.1
    omega
  refine ⟨?_, ?_, hgivesUp⟩
  · obtain ⟨-, hfew⟩ | hfew := hcount
    · exact hfew
    · omega
  · intro hmax hchecks
    obtain ⟨seen, hseen, hexhausted⟩ := normalStep_sees hreturns hknown
    rw [hseen, List.drop_left] at hchecks
    cases hstatus : o.status with
    | success => rfl
    | infeasible =>
      have hfew := (hgivesUp hstatus).2
      omega
    | exhausted limit =>
      obtain ⟨check, hmem, hverdict⟩ := hexhausted limit (by rw [hstatus])
      rw [hchecks check hmem] at hverdict
      cases hverdict

/-- The standard parameters, but nothing is tolerated in the least-squares solves. -/
noncomputable def NormalOptions.exact : NormalOptions ℝ := { standard with tolerances := .exact }

namespace crossingLines

theorem isConditioned : LeastSquares.IsConditioned (crossingRows.linear 2 3) 0.5 1 where
  pos := by norm_num
  moderate := by
    show (3 : Nat) * ((1 : ℝ) / 0.5) + 2.220446049250313080847263336181640625e-16 < 1 / 1e-8
    norm_num
  le_image y := by
    obtain ⟨w, hw, rfl⟩ := Vec.exists_euclid y
    obtain ⟨a, b, rfl⟩ := List.length_eq_two.1 hw
    have hrows : crossingRows.applyTransposed [a, b] = [a, 0.5 * b, 0] := by
      simp [crossingRows, SparseMatrix.applyTransposed, SparseMatrix.addRow, Vec.zeros,
        List.replicate]
    have himage : crossingRows.apply [a, 0.5 * b, 0] = [a, 0.5 * (0.5 * b)] := by
      simp [crossingRows, SparseMatrix.apply, SparseMatrix.rowProduct]
    rw [← hasShape.euclid_applyTransposed, hrows, ← hasShape.euclid_apply,
      himage, ← Vec.norm_eq (by simp), ← Vec.norm_eq (by simp)]
    refine Real.le_sqrt_of_sq_le ?_
    have hnonneg : 0 ≤ 0 + a * a + 0.5 * b * (0.5 * b) + 0 * 0 := by
      linarith [mul_self_nonneg a, mul_self_nonneg (0.5 * b)]
    have hsquare : Vec.norm [a, 0.5 * b, 0] ^ 2 = 0 + a * a + 0.5 * b * (0.5 * b) + 0 * 0 :=
      Real.sq_sqrt hnonneg
    rw [mul_pow, hsquare]
    show 0.5 ^ 2 * (0 + a * a + 0.5 * b * (0.5 * b) + 0 * 0) ≤
      0 + a * a + 0.5 * (0.5 * b) * (0.5 * (0.5 * b))
    linarith [mul_self_nonneg a]
  image_le x := by
    obtain ⟨v, hv, rfl⟩ := Vec.exists_euclid x
    obtain ⟨a, b, c, rfl⟩ := List.length_eq_three.1 hv
    have himage : crossingRows.apply [a, b, c] = [a, 0.5 * b] := by
      simp [crossingRows, SparseMatrix.apply, SparseMatrix.rowProduct]
    rw [← hasShape.euclid_apply, himage, ← Vec.norm_eq (by simp), ← Vec.norm_eq (by simp), one_mul]
    refine Real.sqrt_le_sqrt ?_
    show 0 + a * a + 0.5 * b * (0.5 * b) ≤ 0 + a * a + b * b + c * c
    linarith [mul_self_nonneg b, mul_self_nonneg c]

theorem still : (Ledger.empty : Ledger ℝ).clock.IsStill crossingLines.evaluationTime :=
  ⟨add_zero 0, fun _ => rfl⟩

theorem in_time : ¬ (60 : ℝ) < (Ledger.empty : Ledger ℝ).time - 0 := by
  have hstart : (Ledger.empty : Ledger ℝ).time = 0 := add_zero 0
  rw [hstart]
  norm_num

theorem minimizes_back : crossingRows.Minimizes [1, 0.5] [-1, -1, 0] := by
  refine SparseMatrix.minimizes_of_meets 2 rfl ?_
  show _ = [0, 0]
  simp [crossingRows, SparseMatrix.apply, SparseMatrix.rowProduct, Vec.plus]

theorem exists_gaussNewton : ∃ gaussNewton,
    NormalOptions.exact.solver crossingRows.operator (Vec.negate [1, 0.5]) = .ok gaussNewton ∧
      Vec.norm gaussNewton.vector ≤ NormalOptions.exact.trustRadius * 2 ^ 1 := by
  have hanswers : NormalOptions.exact.solver.Answers crossingRows.operator :=
    hasShape.answers_recurrence
  obtain ⟨gaussNewton, hfound, -⟩ := hanswers (Vec.negate [1, 0.5]) rfl
  have hsolve : LeastSquares.solve crossingRows.operator (Vec.negate [1, 0.5]) .exact none =
      .ok gaussNewton := hfound
  have hshortest := LeastSquares.minimizesShortest_exact hasShape isConditioned hsolve
  have hlength : Vec.norm [(-1 : ℝ), -1, 0] ≤ 2 := by
    show Real.sqrt (0 + -1 * -1 + -1 * -1 + 0 * 0) ≤ 2
    exact Real.sqrt_le_iff.2 ⟨by norm_num, by norm_num⟩
  have htwo : NormalOptions.exact.trustRadius * 2 ^ 1 = 2 := by
    show (1 : ℝ) * 2 ^ 1 = 2
    norm_num
  refine ⟨gaussNewton, hfound, ?_⟩
  rw [htwo]
  exact (hshortest.shortest _ minimizes_back).trans hlength

theorem solvesShortest {o : NormalOutcome ℝ} {l' : Ledger ℝ}
    (h : Returns (normalStep crossingLines .exact ⟨100, 60, 0⟩ [1, 1, 1] [1, 0.5]
      (some crossingRows) 1 1 0 0.5) .empty o l') :
    ∀ t ∈ o.trials, t.SolvesShortest crossingLines NormalOptions.exact.solver := by
  have hmin : 0 < NormalOptions.exact.minTrustRadius := NormalOptions.standard_minTrustRadius_pos
  obtain ⟨-, -, -, hdefined⟩ := (completes_normalStep isTotal hmin rfl start_constraints
    (isAffine.jacobian [1, 1, 1] rfl) ⟨100, 60, 0⟩ 1 1 0 0.5).of_returns h
  intro t ht
  have hJ : crossingRows = t.jacobian := Except.ok.inj (hdefined t ht).jacobian
  exact Trial.solvesShortest_exact (hJ ▸ hasShape) (hJ ▸ isConditioned)

end crossingLines

/-- One doubling covers the distance, so at most two trials are made. -/
theorem crossingLines_restored :
    crossingLines.IsAffine crossingRows [0, 0] ∧
      ∃ gaussNewton,
        NormalOptions.exact.solver crossingRows.operator (Vec.negate [1, 0.5]) = .ok gaussNewton ∧
        Vec.norm gaussNewton.vector ≤ NormalOptions.exact.trustRadius * 2 ^ 1 ∧
        ∃ o l', Returns (normalStep crossingLines .exact ⟨100, 60, 0⟩ [1, 1, 1] [1, 0.5]
            (some crossingRows) 1 1 0 0.5) .empty o l' ∧
          (∀ t ∈ o.trials, t.SolvesShortest crossingLines NormalOptions.exact.solver) ∧
          (∀ t ∈ o.trials, t.accepted = true) ∧ o.trials.length ≤ 2 ∧ o.status = .success := by
  obtain ⟨gaussNewton, hfound, hlength⟩ := crossingLines.exists_gaussNewton
  have hacceptance : NormalOptions.exact.acceptance ≤ 1 := NormalOptions.standard_acceptance_le_one
  have hsolver : NormalOptions.exact.solver.Answers crossingRows.operator :=
    crossingLines.hasShape.answers_recurrence
  obtain ⟨o, l', hreturns, hrestores⟩ := normalStepWith_of_isAffine crossingLines.isAffine hsolver
    rfl crossingLines.start_constraints crossingLines.known_eq zero_le_one zero_le_one le_rfl
    hacceptance NormalOptions.standard_minTrustRadius_pos NormalOptions.standard_minTrustRadius_le
    ⟨100, 60, 0⟩ 0.5 .empty
  have hsolves := crossingLines.solvesShortest hreturns
  obtain ⟨haccepted, -, hends⟩ := hrestores hsolves
  obtain ⟨hfew, -, hgivesUp⟩ := hends gaussNewton hfound 1 hlength
  refine ⟨crossingLines.isAffine, gaussNewton, hfound, hlength, o, l', hreturns, hsolves,
    haccepted, hfew, ?_⟩
  cases hstatus : o.status with
  | success => rfl
  | infeasible =>
    have hmax := (hgivesUp hstatus).2
    have hhundred : NormalOptions.exact.maxTrials = 100 := rfl
    omega
  | exhausted limit =>
    refine absurd hstatus ((normalStep_returns hreturns).2.not_exhausted crossingLines.still ?_
      crossingLines.in_time limit)
    show ((0 : Nat) + o.trials.length : Int) ≤ 100
    omega

end InfeasibilityControl
