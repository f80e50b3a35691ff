import Mathlib
import InfeasibilityControl.Proofs.Completion
import InfeasibilityControl.Proofs.Combination

set_option autoImplicit false
set_option relaxedAutoImplicit false

/-!
A normal step in exact arithmetic comes to its end.

The passes come to their end in any arithmetic in which no square is too large and the dogleg path
has an end. A trial is made only while the trust region is not smaller than the least one. If that
one has a positive radius, the path has an end over the real numbers, and nothing is computed on the
way that has no result.
-/

namespace InfeasibilityControl

open Counted (Returns Completes completes_pure completes_except completes_ok completes_ite)
open PartialReal (of)

variable {p : Problem ℝ} {m : Nat} {b : Budget ℝ}

/-- A trial of a normal step that is made inside a trust region of positive radius. From the
constraints and the Jacobian at its origin, the Cauchy step, the displacement and the ratio that
decides on the trial are computed without an operation that has no result. -/
structure Trial.IsDefined (p : Problem ℝ) (options : NormalOptions ℝ) (t : Trial ℝ) : Prop where
  trustRadius : 0 < t.trustRadius
  jacobian : p.jacobian t.origin = .ok t.jacobian
  computed : ∃ c gaussNewton ratio, p.constraints t.origin = .ok c ∧
    LeastSquares.solve t.jacobian.operator (Vec.negate c) options.tolerances none =
      .ok gaussNewton ∧
    let g := t.jacobian.applyTransposed c
    cauchyStep g.asPartial (t.jacobian.apply g).asPartial =
      (cauchyStep g (t.jacobian.apply g)).map Vec.asPartial ∧
    dogleg gaussNewton.vector.asPartial (cauchyStep g.asPartial (t.jacobian.apply g).asPartial)
      g.asPartial (of t.trustRadius) = .ok t.displacement.asPartial ∧
    NormalState.reductionRatio (of (Vec.norm c * Vec.norm c)) (of t.constraintNorm)
      (of t.predicted) = .ok (ratio.map of) ∧
    t.accepted = (NormalState.ratioReaches ratio options.acceptance &&
      decide (t.constraintNorm < Vec.norm c))

namespace NormalState

section

variable {K : Type} [Scalar K] {p : Problem K} {options : NormalOptions K} {s : NormalState K}
  {g Jg : Vec K} {b : Budget K} {radius : K} {l : Ledger K} {m n : Nat}
  {solver : LeastSquares.Solver K}

theorem completes_examine (hJ : s.jacobian.HasShape m n) (hc : s.constraints.length = m)
    (hsquare : ∀ a : K, ∃ square, Scalar.square? a = some square) (options : NormalOptions K)
    (b : Budget K) (radius : K) : Completes (s.examine options b radius) fun _ => True := by
  refine completes_ite (fun _ => completes_pure trivial) fun _ =>
    b.completes_exhausted.bind fun limit? _ => ?_
  cases limit? with
  | some limit => exact completes_pure trivial
  | none =>
    refine (hJ.transposedProduct hc).bind ?_
    rintro g rfl
    refine completes_ite (fun _ => completes_pure trivial) fun _ =>
      (hJ.product (hJ.length_applyTransposed _)).bind ?_
    rintro Jg rfl
    have hregion : Completes (if s.trustRadius < options.minTrustRadius then
        pure (.inl .infeasible) else pure (.inr (s.jacobian.applyTransposed s.constraints,
          s.jacobian.apply (s.jacobian.applyTransposed s.constraints))) :
        Counted K (NormalStatus ⊕ (Vec K × Vec K))) fun _ => True :=
      completes_ite (fun _ => completes_pure trivial) fun _ => completes_pure trivial
    refine completes_ite (fun _ => ?_) fun _ => hregion
    obtain ⟨square, hsquare⟩ := hsquare (Vec.norm (s.jacobian.applyTransposed s.constraints))
    have hstationary : ∃ stationary, isStationary (s.jacobian.applyTransposed s.constraints)
        (s.jacobian.apply (s.jacobian.applyTransposed s.constraints)) s.constraintNorm
        options.stationarity = .ok stationary := by
      rw [isStationary, hsquare]
      exact ⟨_, rfl⟩
    obtain ⟨stationary, hstationary⟩ := hstationary
    exact Completes.bind (completes_except (P := fun _ => True) hstationary trivial)
      fun _ _ => completes_ite (fun _ => completes_pure trivial) fun _ => hregion

theorem examine_of_aims (haims : s.Aims options radius g Jg) (hfirst : s.rejected = false)
    (hbudget : b.verdict (b.look l) = none) :
    ∃ l', Returns (s.examine options b radius) l (.inr (g, Jg)) l' := by
  obtain ⟨l₁, hexhausted⟩ := b.exhausted_of l
  rw [hbudget] at hexhausted
  have hlength := haims.gradient_length
  have hnonzero := haims.gradient_nonzero
  rw [haims.gradient] at hlength hnonzero
  simp only [examine, Counted.returns_bind, Counted.returns_ite]
  refine ⟨{ l₁ with counters :=
    { l₁.counters with
      product := l₁.counters.product + 1
      transposedProduct := l₁.counters.transposedProduct + 1 } },
    .inr ⟨haims.outside, none, l₁, hexhausted, ?_⟩⟩
  simp only [SparseMatrix.transposedProduct, SparseMatrix.product, Counted.count,
    Counted.returns_bind, Counted.returns_ite, Counted.returns_modify, Counted.returns_pure,
    Counted.not_returns_throw, and_false, or_false]
  refine ⟨_, _, ⟨haims.length, (), _, rfl, rfl, rfl⟩, .inr ⟨by simp [hnonzero], _, _,
    ⟨hlength, (), _, rfl, rfl, rfl⟩, .inr ⟨by simp [hfirst], .inr ⟨haims.region, ?_⟩⟩⟩⟩
  rw [haims.image, haims.gradient]
  exact ⟨rfl, rfl⟩

theorem completes_attempt (hp : p.IsConstrained m) (hsolver : solver.Answers s.jacobian.operator)
    (hpoint : s.point.length = p.variableCount) (hc : s.constraints.length = m)
    (hJ : s.jacobian.HasShape m p.variableCount)
    (hsquare : ∀ a : K, ∃ square, Scalar.square? a = some square)
    (hpath : ∀ gaussNewton, solver s.jacobian.operator (Vec.negate s.constraints) =
        .ok gaussNewton →
      gaussNewton.vector.length = p.variableCount →
      ∃ d, dogleg gaussNewton.vector (cauchyStep g Jg) g s.trustRadius = .ok d ∧
        d.length = p.variableCount) :
    Completes (s.attempt solver p options g Jg) fun _ => True := by
  have hsquares : ∀ a : K, ∃ square, squareOf a = .ok square := by
    intro a
    obtain ⟨square, hsquare⟩ := hsquare a
    exact ⟨square, by rw [squareOf, hsquare]⟩
  refine (hJ.leastSquares hsolver ((Vec.length_negate s.constraints).trans hc)).bind ?_
  rintro gaussNewton ⟨hsolve, hgaussNewton⟩
  obtain ⟨d, hd, hdlength⟩ := hpath gaussNewton hsolve hgaussNewton
  refine Completes.bind (completes_ok hd) ?_
  rintro d rfl
  obtain ⟨normSquare, hnorm⟩ := hsquares s.constraintNorm
  refine Completes.bind (completes_ok hnorm) ?_
  rintro normSquare rfl
  refine (hJ.product hdlength).bind ?_
  rintro _ rfl
  have himage := hJ.length_apply d
  refine Completes.bind (completes_ok (Vec.add_of_length (hc.trans himage.symm))) ?_
  rintro modelled rfl
  obtain ⟨modelSquare, hmodel⟩ :=
    hsquares (Vec.norm (Vec.plus s.constraints (s.jacobian.apply d)))
  refine Completes.bind (completes_ok hmodel) ?_
  rintro modelSquare rfl
  refine Completes.bind (completes_ok (Vec.add_of_length (hpoint.trans hdlength.symm))) ?_
  rintro point rfl
  have hpoint := Vec.length_plus_of_length hpoint hdlength
  refine Budget.completes_evaluations.bind fun before _ => (hp.constraintsAt hpoint).bind ?_
  rintro constraints -
  have hratio : ∃ ratio, reductionRatio normSquare (Vec.norm constraints)
      (0.5 * (normSquare - modelSquare)) = .ok ratio := by
    obtain ⟨square, hsquare⟩ := hsquares (Vec.norm constraints)
    unfold reductionRatio
    split
    · rw [hsquare]
      exact ⟨_, rfl⟩
    · exact ⟨none, rfl⟩
  obtain ⟨ratio, hratio⟩ := hratio
  refine Completes.bind (completes_ok hratio) ?_
  rintro ratio rfl
  refine completes_ite (fun _ => ?_) fun _ => completes_pure trivial
  exact (hp.jacobianAt hpoint).bind fun J _ => completes_pure trivial

theorem completes_conclude (b : Budget K) (radius : K) (s : NormalState K) :
    Completes (s.conclude b radius) fun _ => True :=
  completes_ite (fun _ => completes_pure trivial) fun _ => b.completes_exhausted.bind
    fun limit? _ => by
      cases limit? with
      | some limit => exact completes_pure trivial
      | none => exact completes_pure trivial

/-- The passes come to their end if each of them does, and keep what each of them keeps. -/
theorem completes_iterate {P : NormalState K → Prop}
    (hexamine : ∀ s, P s → Completes (s.examine options b radius) fun _ => True)
    (hattempt : ∀ s g Jg, P s → s.Aims options radius g Jg →
      Completes (s.attempt solver p options g Jg) P)
    (hs : P s) (passes made : Nat) :
    Completes (iterate solver p options b radius passes made s) fun x => P x.1 := by
  induction passes generalizing made s with
  | zero => exact (completes_conclude b radius s).bind fun _ _ => completes_pure hs
  | succ passes ih =>
    have haims : Completes (s.examine options b radius) fun x =>
        ∀ g Jg, x = .inr (g, Jg) → s.Aims options radius g Jg := by
      refine (hexamine s hs).of_all fun l x l' hx g Jg hmakes => ?_
      subst hmakes
      exact examine_aims hx
    refine haims.bind fun x hx => ?_
    rcases x with status | ⟨g, Jg⟩
    · exact completes_pure hs
    · exact (hattempt s g Jg hs (hx g Jg rfl)).bind fun s' hs' => ih hs' (made + 1)

end

variable {options : NormalOptions ℝ} {radius : ℝ} {s s' : NormalState ℝ} {g Jg : Vec ℝ}
  {solver : LeastSquares.Solver ℝ}

/-- A normal step stands at a point of the right length with what the problem gives there. -/
structure IsPlaced (p : Problem ℝ) (s : NormalState ℝ) : Prop extends s.IsCurrent p where
  point : s.point.length = p.variableCount

theorem IsPlaced.attempted (h : s.IsPlaced p)
    (hsolver : solver.Answers s.jacobian.operator) (haims : s.Aims options radius g Jg)
    {l l' : Ledger ℝ} (hattempt : Returns (s.attempt solver p options g Jg) l s' l') :
    s'.IsPlaced p := by
  obtain ⟨t, -, hmakes, hdecides⟩ := attempt_decides hattempt
  refine ⟨h.toIsCurrent.attempted hattempt, ?_⟩
  cases haccepted : t.accepted with
  | true =>
    have hlength : t.displacement.length = s.point.length := by
      rw [hmakes.length_displacement haims hsolver, h.point]
      exact (Problem.hasShape_of_jacobian h.jacobian).columnCount
    rw [(hdecides.accepted haccepted).1, hdecides.point_eq hlength]
    exact Vec.length_plus_of_length h.point (hlength.trans h.point)
  | false =>
    rw [(hdecides.rejected haccepted).1]
    exact h.point

theorem IsPlaced.attempt (h : s.IsPlaced p) (hp : p.IsConstrained m)
    (hsolver : solver.Answers s.jacobian.operator) (hradius : 0 < s.trustRadius)
    (haims : s.Aims options radius g Jg) :
    Completes (s.attempt solver p options g Jg) fun s' => s'.IsPlaced p := by
  have hJ := hp.hasShape h.point h.jacobian
  have hg : g.length = p.variableCount := haims.gradient ▸ hJ.length_applyTransposed _
  refine (completes_attempt hp hsolver h.point (hp.length_constraints h.point h.constraints) hJ
    (fun a => ⟨a * a, rfl⟩) fun gaussNewton _ hlength => ?_).of_all fun _ _ _ hattempt =>
      h.attempted hsolver haims hattempt
  have hsame := hlength.trans hg.symm
  have hcauchy : ∀ step ∈ cauchyStep g Jg, gaussNewton.vector.length = step.length :=
    fun step hstep => hsame.trans (length_of_cauchyStep hstep).symm
  obtain ⟨d, hd, hdlength⟩ := exists_dogleg hradius hcauchy hsame
  exact ⟨d, hd, hdlength.trans hlength⟩

/-- A normal step is placed, and all its trials so far are defined. -/
structure IsSound (p : Problem ℝ) (options : NormalOptions ℝ) (s : NormalState ℝ) : Prop
    extends s.IsPlaced p where
  trials : ∀ t ∈ s.trials, t.IsDefined p options

theorem IsSound.isDefined (h : s.IsSound p options) (hp : p.IsTotal m)
    (hradius : 0 < s.trustRadius) (haims : s.Aims options radius g Jg) {t : Trial ℝ}
    (hmakes : s.Makes options.solver g Jg t) (hdecides : s.Decides p options t s') :
    t.IsDefined p options := by
  have hJ := hp.hasShape h.jacobian
  obtain ⟨gaussNewton, hsolve, hd⟩ := hmakes.displacement
  obtain ⟨normSquare, ratio, hnorm, hratio, haccepted, -⟩ := hdecides.judged
  obtain rfl : s.constraintNorm * s.constraintNorm = normSquare := Except.ok.inj hnorm
  rw [haims.image, haims.gradient] at hd
  have hcauchy : ∀ step ∈ cauchyStep (s.jacobian.applyTransposed s.constraints)
      (s.jacobian.apply (s.jacobian.applyTransposed s.constraints)),
      gaussNewton.vector.length = step.length := by
    intro step hstep
    rw [length_of_cauchyStep hstep, hJ.length_solve hsolve, hJ.length_applyTransposed]
  have hpath := dogleg_asPartial (g := s.jacobian.applyTransposed s.constraints) s.trustRadius
    hcauchy
  rw [hd, ← cauchyStep_asPartial] at hpath
  have hjudged := reductionRatio_asPartial (s.constraintNorm * s.constraintNorm) t.constraintNorm
    t.predicted
  rw [hratio] at hjudged
  rw [h.constraintNorm] at hjudged haccepted
  refine ⟨hmakes.trustRadius ▸ hradius, ?_, s.constraints, gaussNewton, ratio, ?_, ?_⟩
  · rw [hmakes.origin, hmakes.jacobian]
    exact h.jacobian
  · rw [hmakes.origin]
    exact h.constraints
  · rw [hmakes.jacobian, hmakes.trustRadius]
    exact ⟨hsolve, cauchyStep_asPartial _ _, hpath, hjudged, haccepted⟩

theorem IsSound.attempted (h : s.IsSound p options) (hp : p.IsTotal m)
    (hmin : 0 < options.minTrustRadius) (haims : s.Aims options radius g Jg) {l l' : Ledger ℝ}
    (hattempt : Returns (s.attempt options.solver p options g Jg) l s' l') :
    s'.IsSound p options := by
  refine ⟨h.toIsPlaced.attempted (hp.hasShape h.jacobian).answers_recurrence haims hattempt, ?_⟩
  obtain ⟨t, htrials, hmakes, hdecides⟩ := attempt_decides hattempt
  have hradius := hmin.trans_le (not_lt.1 haims.region)
  rw [htrials]
  exact List.forall_mem_append.2 ⟨h.trials,
    List.forall_mem_singleton.2 (h.isDefined hp hradius haims hmakes hdecides)⟩

end NormalState

section

variable {options : NormalOptions ℝ} {solver : LeastSquares.Solver ℝ} {start c : Vec ℝ}

/-- A normal step from a point with what the problem gives there comes to its end if the solver
answers, whatever its answers are. -/
theorem completes_normalStepWith (hp : p.IsConstrained m)
    (hsolver : ∀ x J, x.length = p.variableCount → p.jacobian x = .ok J → solver.Answers J.operator)
    (hmin : 0 < options.minTrustRadius) (hstart : start.length = p.variableCount)
    (hc : p.constraints start = .ok c) {jacobian? : Option (SparseMatrix ℝ)}
    (hJ : ∀ J ∈ jacobian?, p.jacobian start = .ok J) (b : Budget ℝ)
    (radius bound relativeDual floor : ℝ) :
    Completes (normalStepWith solver p options b start c jacobian? radius bound relativeDual floor)
      fun _ => True := by
  have hpasses : ∀ J, p.jacobian start = .ok J →
      Completes (NormalState.iterate solver p options b
        (updateRadius radius bound relativeDual floor) options.maxTrials.toNat 0
        ⟨start, c, Vec.norm c, J, options.trustRadius, false, []⟩) fun x => x.1.IsPlaced p := by
    intro J hjacobian
    refine NormalState.completes_iterate (P := fun s => s.IsPlaced p)
      (fun s hs => ?_) (fun s g Jg hs haims => ?_) ⟨⟨hc, hjacobian, rfl⟩, hstart⟩ _ 0
    · exact NormalState.completes_examine (hp.hasShape hs.point hs.jacobian)
        (hp.length_constraints hs.point hs.constraints) (fun a => ⟨a * a, rfl⟩) options b _
    · exact hs.attempt hp (hsolver _ _ hs.point hs.jacobian)
        (hmin.trans_le (not_lt.1 haims.region)) haims
  cases jacobian? with
  | none =>
    exact Completes.bind (hp.jacobianAt hstart) fun J hjacobian =>
      (hpasses J hjacobian).bind fun _ _ => completes_pure trivial
  | some known =>
    exact Completes.bind (completes_pure (P := fun a => a = known) rfl) fun J hknown =>
      (hpasses J (hknown ▸ hJ known rfl)).bind fun _ _ => completes_pure trivial

theorem completes_normalStep (hp : p.IsTotal m) (hmin : 0 < options.minTrustRadius)
    {J : SparseMatrix ℝ} (hstart : start.length = p.variableCount)
    (hc : p.constraints start = .ok c) (hJ : p.jacobian start = .ok J) (b : Budget ℝ)
    (radius bound relativeDual floor : ℝ) :
    Completes (normalStep p options b start c (some J) radius bound relativeDual floor) fun o =>
      o.point.length = p.variableCount ∧ p.constraints o.point = .ok o.constraints ∧
        p.jacobian o.point = .ok o.jacobian ∧ ∀ t ∈ o.trials, t.IsDefined p options := by
  have hends : Completes (normalStep p options b start c (some J) radius bound relativeDual floor)
      fun _ => True := by
    refine completes_normalStepWith hp.isConstrained
      (fun _ _ _ hjacobian => (hp.hasShape hjacobian).answers_recurrence) hmin hstart hc ?_
      b _ _ _ _
    rintro _ ⟨⟩
    exact hJ
  refine hends.of_all fun l o l' h => ?_
  obtain ⟨last, status, count, hpasses, rfl⟩ := normalStep_passes_known h
  have hfirst : NormalState.IsSound p options
      ⟨start, c, Vec.norm c, J, options.trustRadius, false, []⟩ :=
    ⟨⟨⟨hc, hJ, rfl⟩, hstart⟩, by simp⟩
  have hlast := NormalState.iterate_rule (P := fun s => s.IsSound p options) hpasses hfirst
    fun s g Jg l s' l' hs haims hattempt => hs.attempted hp hmin haims hattempt
  exact ⟨hlast.point, hlast.constraints, hlast.jacobian, hlast.trials⟩

end

namespace NormalOptions

theorem standard_acceptance_le_one : (standard : NormalOptions ℝ).acceptance ≤ 1 := by
  have hvalue : (1e-4 : ℝ) ≤ 1 := by norm_num
  exact hvalue

theorem standard_minTrustRadius_pos : 0 < (standard : NormalOptions ℝ).minTrustRadius := by
  have hvalue : (0 : ℝ) < 1e-12 := by norm_num
  exact hvalue

theorem standard_minTrustRadius_le :
    (standard : NormalOptions ℝ).minTrustRadius ≤ (standard : NormalOptions ℝ).trustRadius := by
  have hvalue : (1e-12 : ℝ) ≤ 1 := by norm_num
  exact hvalue

end NormalOptions

end InfeasibilityControl
