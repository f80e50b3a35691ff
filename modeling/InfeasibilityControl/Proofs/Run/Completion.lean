import InfeasibilityControl.Proofs.Exact.NormalStep
import InfeasibilityControl.Proofs.Kkt.TangentStep
import InfeasibilityControl.Proofs.Run.Endless
import InfeasibilityControl.Proofs.Run.Exactness

set_option autoImplicit false
set_option relaxedAutoImplicit false

/-!
No step of a run faults.

In exact arithmetic a run of an equality constrained problem with total evaluators goes from every
state that it reaches to the next one, or ends there with a status. Every trial of its normal steps
is defined, and its tangent steps settle what goes wrong. What the inner least-squares solver
answers is taken as it is.
-/

namespace InfeasibilityControl

open Counted (Returns Completes completes_pure completes_except completes_ok completes_modify
  completes_ite)
open PartialReal (of)
open RunState (Starts Restores Descends isSolved)

section

variable {K : Type} [Scalar K] {p : Problem K} {m : Nat} {c : RunContext K} {r : RunState K}

theorem Iterate.fits_restoredWith (s : Iterate K) (settings : Settings K) {o : NormalOutcome K}
    {x : K × Vec K} (hpoint : o.point.length = p.variableCount)
    (hconstraints : o.constraints.length = m) (hJ : o.jacobian.HasShape m p.variableCount)
    (hgradient : x.2.length = p.variableCount) :
    Completes (s.restoredWith settings o x) fun s' => s'.Fits p m :=
  (hJ.estimate hgradient).bind fun _ he =>
    completes_pure ⟨hpoint, hconstraints, hgradient, hJ, he, nofun⟩

theorem Iterate.Fits.restored {s : Iterate K} (h : s.Fits p m) (hp : p.IsTotal m)
    (settings : Settings K) {o : NormalOutcome K} (hpoint : o.point.length = p.variableCount)
    (hconstraints : o.constraints.length = m) (hJ : o.jacobian.HasShape m p.variableCount) :
    Completes (s.restored p settings o) fun s' => s'.Fits p m := by
  have hrest : ∀ x : K × Vec K, x.2.length = p.variableCount →
      Completes (s.restoredWith settings o x) fun s' => s'.Fits p m := fun _ hgradient =>
    s.fits_restoredWith settings hpoint hconstraints hJ hgradient
  refine completes_ite (fun _ => ?_) fun _ => ?_
  · exact Completes.bind (completes_pure (P := fun x => x.2.length = p.variableCount) h.gradient)
      hrest
  · exact (hp.objectiveAt hpoint).bind fun f _ => (hp.gradientAt hpoint).bind fun g hg =>
      Completes.bind (completes_pure (P := fun x => x.2.length = p.variableCount) hg) hrest

namespace RunState

/-- The iterate and the KKT system of a run have the shapes that belong to a problem. -/
structure Fits (p : Problem K) (m : Nat) (r : RunState K) : Prop where
  iterate : r.iterate.Fits p m
  kkt : r.kkt.Fits p m

theorem Fits.close (h : r.Fits p m) (c : RunContext K) (work : StageWork K) (stage : String)
    (iteration : Int) (status : String) :
    Completes (r.close c work stage iteration status) fun r' => r'.Fits p m :=
  (h.iterate.report c.budget stage iteration status).bind fun _ hx => completes_pure ⟨hx, h.kkt⟩

theorem Fits.closeDescent (h : r.Fits p m) (c : RunContext K) (o : TangentOutcome K)
    (iteration : Int) : Completes (r.closeDescent c o iteration) fun r' => r'.Fits p m :=
  Completes.bind (h.close c _ _ _ _) fun _ hr₁ =>
    (hr₁.iterate.isSolved c.tolerances).bind fun _ hx =>
      c.budget.completes_exhausted.bind fun _ _ => completes_pure ⟨hx, hr₁.kkt⟩

theorem Fits.descend (h : r.Fits c.problem m) (hp : c.problem.IsTotal m)
    (hpolicy : ∃ regularization, c.policy r.iterate = .ok regularization) :
    Completes (r.descend c) fun r' => r'.Fits c.problem m := by
  obtain ⟨regularization, hpolicy⟩ := hpolicy
  refine Completes.bind (completes_ok hpolicy) ?_
  rintro regularization rfl
  refine Completes.bind (P := fun x => x.2 = .ok () ∧ x.1.Fits c.problem m)
    (Counted.completes_state fun l => ?_) ?_
  · obtain ⟨kkt', l', hrefresh, hfits⟩ := h.kkt.exists_refresh hp h.iterate.point
      h.iterate.multipliers regularization.gamma regularization.delta l
    rw [hrefresh]
    exact ⟨rfl, hfits⟩
  rintro ⟨kkt, refreshed⟩ ⟨rfl, hkkt⟩
  refine Completes.bind (completes_ok rfl) fun _ _ => h.iterate.readLagrangianGradient.bind ?_
  rintro ⟨gradient, s⟩ ⟨hgradient, -, hs⟩
  obtain ⟨merit, hmerit⟩ := hs.lagrangian
  refine Completes.bind (completes_ok hmerit) fun merit _ =>
    (hkkt.tangentStep hp hs.point hs.multipliers hgradient hs.jacobian _ _ _ _).bind ?_
  rintro o ⟨hpoint, -⟩
  have hrest : ∀ s' : Iterate K, s'.Fits c.problem m → Completes (RunState.closeDescent { r with
      iterate := s'
      kkt
      stalled := (afterTangent c.settings c.tolerances.primal s.radius o.ending).2 } c o
      s.iteration) fun r' => r'.Fits c.problem m :=
    fun s' hs' => Fits.closeDescent ⟨hs', hkkt⟩ c o s.iteration
  refine completes_ite (fun _ => ?_) fun _ => ?_
  · exact Completes.bind (completes_pure (P := fun s' : Iterate K => s'.Fits c.problem m)
      ⟨hs.point, hs.constraints, hs.gradient, hs.jacobian, hs.multipliers, by rintro _ ⟨⟩⟩) hrest
  · refine (hp.evaluate hpoint c.settings _ _ ?_).bind hrest
    rintro _ ⟨⟩
    exact hs.multipliers

end RunState

theorem completes_startRun (hp : p.IsTotal m) (hequality : p.isEqualityConstrained = true)
    {start? : Option (Vec K)} (hstart : (start?.getD p.start).length = p.variableCount)
    (settings : Settings K) (policy : RegularizationPolicy K) :
    Completes (startRun p settings policy start?) fun x =>
      x.1.policy = policy ∧ x.2.Fits p m := by
  have hcheck : p.check = .ok () := by
    simp only [Problem.isEqualityConstrained, Bool.and_eq_true, decide_eq_true_eq, beq_iff_eq,
      Bool.not_eq_true'] at hequality
    obtain ⟨⟨hcount, hinequalities⟩, hbounds⟩ := hequality
    rw [Problem.check, if_neg (by simp [hbounds, hinequalities, hcount.ne'])]
  obtain ⟨kkt, hkkt⟩ := KktSystem.exists_ofProblem hp.rowCount
  refine Completes.bind (completes_ok hcheck) fun _ _ =>
    Completes.bind (completes_modify trivial) fun _ (_ : True) => ?_
  refine completes_ite (fun _ => ?_) fun hlength => absurd hstart hlength
  refine (Budget.completes_start _ _).bind fun b _ => Completes.bind (completes_ok hkkt) ?_
  rintro kkt rfl
  have hkkt := KktSystem.fits_of_ofProblem hp.rowCount hkkt
  refine (hp.evaluate hstart settings settings.radiusBound 0 (by simp)).bind fun s hs =>
    hs.readDualNorm.bind ?_
  rintro ⟨d, s⟩ ⟨hs, -⟩
  refine (hs.isSolved _).bind ?_
  rintro ⟨solved, s⟩ hs
  exact b.completes_exhausted.bind fun _ _ =>
    Completes.bind (RunState.Fits.close ⟨hs, hkkt⟩ _ _ _ _ _) fun r hr =>
      completes_pure ⟨rfl, hr⟩

theorem RunState.Fits.finishRun (h : r.Fits p m) (c : RunContext K) :
    Completes (finishRun c r) fun _ => True :=
  c.budget.completes_elapsed.bind fun _ _ => h.iterate.readDualNorm.bind fun _ _ =>
    completes_counters.bind fun _ _ => completes_pure trivial

end

theorem Vec.eq_of_coincides {u v : Vec ℝ} (h : Vec.coincides u v = true) : u = v := by
  induction u generalizing v with
  | nil =>
    cases v with
    | nil => rfl
    | cons b v => simp [coincides] at h
  | cons a u ih =>
    cases v with
    | nil => simp [coincides] at h
    | cons b v =>
      obtain ⟨hab, huv⟩ := coincides_cons.1 h
      rw [Scalar.real_beq, decide_eq_true_eq] at hab
      rw [hab, ih huv]

theorem Problem.isPointwise_real (p : Problem ℝ) : p.IsPointwise := by
  intro x y u v hxy hu hv
  rw [Vec.eq_of_coincides hxy, hv] at hu
  exact .inl (Except.ok.inj hu).symm

theorem RunState.Fits.restore {c : RunContext ℝ} {r : RunState ℝ} {m : Nat}
    (h : r.Fits c.problem m) (hp : c.problem.IsTotal m)
    (hmin : 0 < c.settings.minTrustRadius) (hexact : r.iterate.IsExact c.problem) :
    Completes (r.restore c) fun r' => r'.Fits c.problem m := by
  refine Completes.bind (P := fun x => x.2.Fits c.problem m ∧
    x.1.point.length = c.problem.variableCount ∧ x.1.constraints.length = m ∧
    x.1.jacobian.HasShape m c.problem.variableCount) ?_ ?_
  · refine h.iterate.readDualNorm.bind ?_
    rintro ⟨d, s⟩ ⟨hs, g?, rfl⟩
    refine (completes_normalStep hp hmin h.iterate.point hexact.constraints hexact.jacobian
      _ _ _ _ _).bind ?_
    rintro o ⟨hpoint, hconstraints, hjacobian, -⟩
    exact completes_pure ⟨hs, hpoint, hp.length_constraints hpoint hconstraints,
      hp.hasShape hjacobian⟩
  rintro ⟨o, s⟩ ⟨hs, hpoint, hconstraints, hjacobian⟩
  refine (hs.restored hp c.settings hpoint hconstraints hjacobian).bind fun s' hs' => ?_
  have hr : ({ r with iterate := s' } : RunState ℝ).Fits c.problem m := ⟨hs', h.kkt⟩
  exact (hr.close c _ _ _ _).bind fun r₁ hr₁ =>
    c.budget.completes_exhausted.bind fun _ _ => completes_pure ⟨hr₁.iterate, hr₁.kkt⟩

section

variable {p : Problem ℝ} {m : Nat} {settings : Settings ℝ} {policy : RegularizationPolicy ℝ}
  {start? : Option (Vec ℝ)} {l₀ l : Ledger ℝ} {c : RunContext ℝ} {moment : Moment} {r : RunState ℝ}

theorem Reaches.isExact (h : Reaches p settings policy start? l₀ c moment r l) :
    r.iterate.IsExact c.problem := by
  rw [h.problem_eq]
  exact (h.isTrue p.isPointwise_real).1.exact

variable (hp : p.IsTotal m) (hequality : p.isEqualityConstrained = true)
  (hstart : (start?.getD p.start).length = p.variableCount)
  (hpolicy : ∀ s : Iterate ℝ, s.Fits p m → ∃ regularization, policy s = .ok regularization)
  (hmin : 0 < settings.minTrustRadius)

include hp hequality hstart hpolicy hmin

theorem Reaches.fits (h : Reaches p settings policy start? l₀ c moment r l) :
    c.policy = policy ∧ r.Fits c.problem m := by
  induction h with
  | begun step =>
    have hproblem := (Reaches.begun step).problem_eq
    rw [hproblem]
    exact (completes_startRun hp hequality hstart settings policy).of_returns step
  | restored h goes step ih =>
    rw [← h.problem_eq] at hp
    rw [← h.settings_eq] at hmin
    exact ⟨ih.1, (ih.2.restore hp hmin h.isExact).of_returns step⟩
  | repeated h outside ih => exact ih
  | judged h inside step ih =>
    exact ⟨ih.1, (ih.2.iterate.isSolved _).of_returns step, ih.2.kkt⟩
  | ended h stays ih => exact ih
  | descended h goes step ih =>
    rw [← h.problem_eq] at hp hpolicy
    refine ⟨ih.1, (ih.2.descend hp ?_).of_returns step⟩
    rw [ih.1]
    exact hpolicy _ ih.2.iterate

theorem Reaches.exists_restore {again : Bool}
    (h : Reaches p settings policy start? l₀ c (.before again) r l) :
    ∃ r' l', Returns (r.restore c) l r' l' := by
  obtain ⟨-, hfits⟩ := h.fits hp hequality hstart hpolicy hmin
  rw [← h.problem_eq] at hp
  rw [← h.settings_eq] at hmin
  obtain ⟨r', l', hstep, -⟩ := hfits.restore hp hmin h.isExact l
  exact ⟨r', l', hstep⟩

theorem Reaches.exists_descend (h : Reaches p settings policy start? l₀ c .judged r l) :
    ∃ r' l', Returns (r.descend c) l r' l' := by
  obtain ⟨hsame, hfits⟩ := h.fits hp hequality hstart hpolicy hmin
  rw [← h.problem_eq] at hp hpolicy
  obtain ⟨r', l', hstep, -⟩ := hfits.descend hp (hsame ▸ hpolicy _ hfits.iterate) l
  exact ⟨r', l', hstep⟩

theorem Reaches.exists_advance {again : Bool}
    (h : Reaches p settings policy start? l₀ c (.before again) r l)
    (hgoes : (r.isOver && !again) = false) :
    ∃ x l', Returns (r.advance c) l x l' := by
  obtain ⟨r₁, l₁, hrestore⟩ := h.exists_restore hp hequality hstart hpolicy hmin
  have hrestored := h.restored hgoes hrestore
  obtain ⟨-, hfits⟩ := hrestored.fits hp hequality hstart hpolicy hmin
  simp only [RunState.advance_eq, RunState.resume, RunState.proceed, Counted.returns_bind,
    Counted.returns_ite, Counted.returns_pure]
  by_cases hsettles : r₁.settles = true
  · obtain ⟨x, l₂, hsolved, -⟩ := hfits.iterate.isSolved c.tolerances l₁
    have hjudged := hrestored.judged hsettles hsolved
    by_cases hrests : ({ r₁ with iterate := x.2, solved := x.1 } : RunState ℝ).rests = true
    · exact ⟨_, _, r₁, l₁, hrestore, .inl ⟨hsettles, x, l₂, hsolved, .inl ⟨hrests, rfl, rfl⟩⟩⟩
    · obtain ⟨r₂, l₃, hdescend⟩ := hjudged.exists_descend hp hequality hstart hpolicy hmin
      exact ⟨_, _, r₁, l₁, hrestore,
        .inl ⟨hsettles, x, l₂, hsolved, .inr ⟨hrests, r₂, l₃, hdescend, rfl, rfl⟩⟩⟩
  · exact ⟨_, _, r₁, l₁, hrestore, .inr ⟨hsettles, rfl, rfl⟩⟩

theorem Reaches.exists_repeatRounds {again : Bool}
    (h : Reaches p settings policy start? l₀ c (.before again) r l) (rounds : Nat) :
    ∃ last? l', Returns (RunState.repeatRounds c rounds r again) l last? l' ∧
      ∀ last ∈ last?, last.Fits c.problem m := by
  induction rounds generalizing again r l with
  | zero =>
    refine ⟨_, l, Counted.returns_pure.2 ⟨rfl, rfl⟩, fun last hlast => ?_⟩
    split at hlast
    · cases hlast
      exact (h.fits hp hequality hstart hpolicy hmin).2
    · cases hlast
  | succ rounds ih =>
    simp only [RunState.repeatRounds, Counted.returns_ite, Counted.returns_bind,
      Counted.returns_pure]
    by_cases hgoes : (r.isOver && !again) = true
    · refine ⟨some r, l, .inl ⟨hgoes, rfl, rfl⟩, ?_⟩
      rintro _ ⟨⟩
      exact (h.fits hp hequality hstart hpolicy hmin).2
    · have hgoes' := Bool.not_eq_true _ ▸ hgoes
      obtain ⟨⟨r', again'⟩, l₁, hadvance⟩ :=
        h.exists_advance hp hequality hstart hpolicy hmin hgoes'
      obtain ⟨last?, l', hrounds, hfits⟩ := ih (RunState.advance_reaches h hgoes' hadvance)
      exact ⟨last?, l', .inr ⟨hgoes, _, l₁, hadvance, hrounds⟩, hfits⟩

omit hmin hpolicy hstart hequality in
theorem RunState.Restores.isDefined {o : NormalOutcome ℝ} {r' : RunState ℝ} {l' : Ledger ℝ}
    (h : Restores c r o r' l l') (hproblem : c.problem = p) (hfits : r.iterate.Fits p m)
    (hexact : r.iterate.IsExact p) (hmin : 0 < c.settings.minTrustRadius) :
    (∀ t ∈ o.trials, t.IsDefined p c.settings.normalOptions) ∧
    ∃ d ratio, r.iterate.freshDualNorm = .ok d ∧
      relativeDual (of d) (Vec.norm r.iterate.gradient.asPartial) (of c.tolerances.dual) =
        of ratio ∧
      o.radius =
        updateRadius r.iterate.radius c.settings.radiusBound ratio c.tolerances.primal := by
  obtain ⟨d, l₁, l₂, hd, hnormal⟩ := h.sought
  rw [hproblem] at hnormal
  obtain ⟨-, -, -, htrials⟩ := (completes_normalStep hp hmin hfits.point hexact.constraints
    hexact.jacobian _ _ _ _ _).of_returns hnormal
  obtain ⟨d', hd', hradius⟩ := h.radius
  exact ⟨htrials, d', _, hd', relativeDual_asPartial _ _ _, hradius⟩

/-- In exact arithmetic no step of a run faults. Whatever the number of rounds, the run comes to its
end, and each stage leads on from every state that is reached. The trials of a normal stage are made
inside a trust region of positive radius; nothing that they or the relative dual residual are
computed from lacks a result. A tangent stage goes on with the projected gradient where there is no
KKT direction, and a failure of it is a status. -/
theorem run_neverFaults (l₀ : Ledger ℝ) :
    (∀ rounds, ∃ res? l, Returns (solveWithin p settings policy start? rounds) l₀ res? l) ∧
    (∀ v : Vec ℝ, Vec.norm v.asPartial = of (Vec.norm v)) ∧
    (∀ c again r l, Reaches p settings policy start? l₀ c (.before again) r l →
      (r.isOver && !again) = false →
      ∃ o r' l', Returns (r.restore c) l r' l' ∧ Restores c r o r' l l' ∧
        (∀ t ∈ o.trials, t.IsDefined p settings.normalOptions) ∧
        ∃ d ratio, r.iterate.freshDualNorm = .ok d ∧
          relativeDual (of d) (Vec.norm r.iterate.gradient.asPartial) (of c.tolerances.dual) =
            of ratio ∧
          o.radius =
            updateRadius r.iterate.radius settings.radiusBound ratio c.tolerances.primal) ∧
    (∀ c r l, Reaches p settings policy start? l₀ c .judged r l → r.rests = false →
      ∃ o r' l' gradient, Returns (r.descend c) l r' l' ∧ Descends c r o r' l l' ∧
        r.iterate.freshLagrangianGradient = .ok gradient ∧
        o.Settles r'.kkt r.iterate.point gradient) := by
  refine ⟨fun rounds => ?_, Vec.norm_asPartial, fun c again r l h hgoes => ?_,
    fun c r l h hgoes => ?_⟩
  · obtain ⟨⟨c, r⟩, l₁, hstarted, -⟩ :=
      completes_startRun hp hequality hstart settings policy l₀
    obtain ⟨last?, l₂, hrounds, hfits⟩ := (Reaches.begun hstarted).exists_repeatRounds hp hequality
      hstart hpolicy hmin rounds
    simp only [solveWithin, Counted.returns_bind]
    cases last? with
    | none =>
      exact ⟨none, l₂, _, l₁, hstarted, none, l₂, hrounds, Counted.returns_pure.2 ⟨rfl, rfl⟩⟩
    | some last =>
      obtain ⟨res, l₃, hres, -⟩ := (hfits last rfl).finishRun c l₂
      exact ⟨some res, l₃, _, l₁, hstarted, some last, l₂, hrounds,
        Counted.returns_bind.2 ⟨res, l₃, hres, Counted.returns_pure.2 ⟨rfl, rfl⟩⟩⟩
  · obtain ⟨-, hfits⟩ := h.fits hp hequality hstart hpolicy hmin
    have hexact := h.isExact
    obtain ⟨r', l', hstep⟩ := h.exists_restore hp hequality hstart hpolicy hmin
    obtain ⟨o, hrestores⟩ := RunState.restore_returns hstep h.coherent
    rw [h.problem_eq] at hfits hexact
    have hdefined := hrestores.isDefined hp h.problem_eq hfits.iterate hexact
      (h.settings_eq ▸ hmin)
    rw [h.settings_eq] at hdefined
    exact ⟨o, r', l', hstep, hrestores, hdefined⟩
  · obtain ⟨-, hfits⟩ := h.fits hp hequality hstart hpolicy hmin
    obtain ⟨r', l', hstep⟩ := h.exists_descend hp hequality hstart hpolicy hmin
    obtain ⟨-, hfits'⟩ := (h.descended hgoes hstep).fits hp hequality hstart hpolicy hmin
    obtain ⟨o, hdescends⟩ := RunState.descend_returns hstep h.coherent
    obtain ⟨regularization, gradient, merit, l₁, l₂, -, -, hgradient, -, htangent⟩ :=
      hdescends.sought
    obtain ⟨gradient', hgradient', hlength⟩ := hfits.iterate.exists_freshLagrangianGradient
    obtain rfl := Except.ok.inj (hgradient'.symm.trans hgradient)
    have hsettles := (hfits'.kkt.tangentStep (h.problem_eq ▸ hp) hfits.iterate.point
      hfits.iterate.multipliers hlength hfits.iterate.jacobian _ _ _ _).of_returns htangent
    exact ⟨o, r', l', _, hstep, hdescends, hgradient', hsettles.2⟩

end

theorem realLine_isTotal : realLine.IsTotal 1 where
  rowCount := rfl
  jacobian := by decide
  hessian := by simp [realLine]
  objective_total _ _ := ⟨0, rfl⟩
  gradient_total _ _ := ⟨[0], rfl, rfl⟩
  constraints_total x hx := ⟨x, rfl, hx⟩
  jacobian_total _ _ := ⟨[1], rfl, rfl⟩
  hessian_total _ _ _ _ _ := ⟨[], rfl, rfl⟩

/-- From a point outside the first radius, with a regularization that depends on the residuals. -/
theorem realLine_neverFaults :
    realLine.IsTotal 1 ∧ realLine.isEqualityConstrained = true ∧ [(3 : ℝ)].length = 1 ∧
      (∀ s : Iterate ℝ, s.Fits realLine 1 →
        ∃ r, RegularizationPolicy.proportional ⟨1, 1⟩ s = .ok r) ∧
      0 < (Settings.standard : Settings ℝ).minTrustRadius ∧
      (∀ rounds, ∃ res? l, Returns (solveWithin realLine .standard (.proportional ⟨1, 1⟩) (some [3])
        rounds) .empty res? l) ∧
      ∀ c again r l,
        Reaches realLine .standard (.proportional ⟨1, 1⟩) (some [3]) .empty c (.before again) r l →
        (r.isOver && !again) = false →
        ∃ o r' l', Returns (r.restore c) l r' l' ∧ Restores c r o r' l l' ∧
          ∀ t ∈ o.trials, 0 < t.trustRadius := by
  have hequality : realLine.isEqualityConstrained = true := by decide
  have hpolicy : ∀ s : Iterate ℝ, s.Fits realLine 1 →
      ∃ r, RegularizationPolicy.proportional ⟨1, 1⟩ s = .ok r := by
    intro s hs
    obtain ⟨d, hd⟩ := hs.exists_freshDualNorm
    simp only [RegularizationPolicy.proportional, hd]
    exact ⟨_, rfl⟩
  have hmin : 0 < (Settings.standard : Settings ℝ).minTrustRadius := by
    have hpositive : (0 : ℝ) < 1e-12 := by norm_num
    exact hpositive
  have hstart : ((some [(3 : ℝ)]).getD realLine.start).length = realLine.variableCount := rfl
  obtain ⟨hcompletes, -, hrestores, -⟩ :=
    run_neverFaults realLine_isTotal hequality hstart hpolicy hmin .empty
  refine ⟨realLine_isTotal, hequality, rfl, hpolicy, hmin, hcompletes, ?_⟩
  intro c again r l h hgoes
  obtain ⟨o, r', l', hstep, hrestored, htrials, -⟩ := hrestores c again r l h hgoes
  exact ⟨o, r', l', hstep, hrestored, fun t ht => (htrials t ht).trustRadius⟩

end InfeasibilityControl
