import InfeasibilityControl.Proofs.Run.Standstill

set_option autoImplicit false
set_option relaxedAutoImplicit false

/-!
Runs that are stuck.

If the clock stands still, a run that stands still finds in its next round what it found in the
last one, with nothing evaluated in between. So it never ends.
-/

namespace InfeasibilityControl

open Counted (Returns)
open Ledger (Spends Rests Quiet)
open RunState (isSolved afterTangent)

variable {K : Type} [Scalar K] {l l' : Ledger K} {p : Problem K} {settings : Settings K}

namespace Iterate

variable {s : Iterate K} {g : Vec K}

theorem readLagrangianGradient_of_fresh (h : s.freshLagrangianGradient = .ok g)
    (hs : s.IsCoherent) (l : Ledger K) :
    ∃ l', Returns s.readLagrangianGradient l (g, s.recalling (some g)) l' := by
  unfold readLagrangianGradient
  split
  · rename_i known hknown
    have hsame := hs known hknown
    rw [h, Except.ok.injEq] at hsame
    subst hsame
    refine ⟨l, Counted.returns_pure.2 ⟨?_, rfl⟩⟩
    rw [← hknown, recalling_self]
  · unfold freshLagrangianGradient at h
    split at h
    · rename_i hlength
      have hproduct : ∃ l', Returns (s.jacobian.transposedProduct s.multipliers) l
          (s.jacobian.applyTransposed s.multipliers) l' := by
        simp [SparseMatrix.transposedProduct, hlength, Counted.count]
      obtain ⟨l', hproduct⟩ := hproduct
      refine ⟨l', ?_⟩
      simp only [Counted.returns_bind, Counted.returns_except, Counted.returns_pure]
      exact ⟨_, l', hproduct, g, l', ⟨h, rfl⟩, rfl, rfl⟩
    · cases h

theorem readDualNorm_of_fresh (h : s.freshLagrangianGradient = .ok g) (hs : s.IsCoherent)
    (l : Ledger K) : ∃ l', Returns s.readDualNorm l (Vec.norm g, s.recalling (some g)) l' := by
  obtain ⟨l', hg⟩ := readLagrangianGradient_of_fresh h hs l
  refine ⟨l', ?_⟩
  simp only [readDualNorm, Counted.returns_bind, Counted.returns_pure]
  exact ⟨_, l', hg, rfl, rfl⟩

theorem report_of_fresh (h : s.freshLagrangianGradient = .ok g) (hs : s.IsCoherent)
    (b : Budget K) (stage : String) (iteration : Int) (status : String) (l : Ledger K) :
    ∃ row l', Returns (s.report b stage iteration status) l (row, s.recalling (some g)) l' := by
  obtain ⟨l₁, hd⟩ := readDualNorm_of_fresh h hs l
  simp only [report, Counted.report, Counted.returns_bind, Counted.returns_pure,
    Counted.returns_modify, Budget.evaluations_returns, Budget.elapsed_returns]
  exact ⟨_, _, _, l, ⟨rfl, rfl⟩, _, l₁, hd, _, _, ⟨rfl, rfl⟩, (), _, rfl, rfl, rfl⟩

theorem isSolved_of_known (t : RunTolerances K) (h : s.freshLagrangianGradient = .ok g)
    (hknown : s.lagrangianGradient? = some g) (l : Ledger K) :
    ∃ solved l', Returns (isSolved s t) l (solved, s) l' ∧ (solved = true ↔ s.Passes t) := by
  have hs : s.IsCoherent := fun g' hg => by
    rw [hknown, Option.some.injEq] at hg
    rw [← hg, h]
  have hjudged : ∃ solved l', Returns (isSolved s t) l (solved, s) l' := by
    unfold isSolved
    split
    · obtain ⟨l', hd⟩ := readDualNorm_of_fresh h hs l
      rw [← hknown, recalling_self] at hd
      refine ⟨decide (Vec.norm g < t.dual), l', ?_⟩
      simp only [Counted.returns_bind, Counted.returns_pure]
      exact ⟨_, l', hd, rfl, rfl⟩
    · exact ⟨false, l, .pure⟩
  obtain ⟨solved, l', hjudged⟩ := hjudged
  exact ⟨solved, l', hjudged, (RunState.isSolved_returns hjudged hs).1⟩

theorem isSolved_of_fails {t : RunTolerances K} (h : s.freshLagrangianGradient = .ok g)
    (hknown : s.lagrangianGradient? = some g) (hfails : ¬ s.Passes t) (l : Ledger K) :
    ∃ l', Returns (isSolved s t) l (false, s) l' := by
  obtain ⟨solved, l', hjudged, hsolved⟩ := isSolved_of_known t h hknown l
  rw [← hsolved, Bool.not_eq_true] at hfails
  rw [hfails] at hjudged
  exact ⟨l', hjudged⟩

end Iterate

theorem Vec.add_isOk_comm {u v w : Vec K} (h : Vec.add u v = .ok w) :
    ∃ w', Vec.add v u = .ok w' := by
  unfold add combine at h ⊢
  rcases u with _ | ⟨a, _ | ⟨a', u⟩⟩
  · rcases v with _ | ⟨b, _ | ⟨b', v⟩⟩
    · exact ⟨_, rfl⟩
    · exact ⟨_, rfl⟩
    · simp at h
  · rcases v with _ | ⟨b, _ | ⟨b', v⟩⟩
    · exact ⟨_, rfl⟩
    · exact ⟨_, rfl⟩
    · exact ⟨_, rfl⟩
  · rcases v with _ | ⟨b, _ | ⟨b', v⟩⟩
    · simp at h
    · exact ⟨_, rfl⟩
    · simp only at h ⊢
      split at h
      · rename_i hlength
        exact ⟨_, if_pos hlength.symm⟩
      · cases h

theorem Settings.estimate_of_fresh {s : Iterate K} {g : Vec K}
    (h : settings.leastSquaresMultipliers s.jacobian s.gradient = .ok s.multipliers)
    (hfresh : s.freshLagrangianGradient = .ok g) (l : Ledger K) :
    ∃ e l', Returns (settings.estimate s.jacobian s.gradient) l e l' ∧
      e.multipliers = s.multipliers := by
  unfold Iterate.freshLagrangianGradient at hfresh
  split at hfresh
  · rename_i hrows
    obtain ⟨w, hw⟩ := Vec.add_isOk_comm hfresh
    unfold leastSquaresMultipliers at h
    split at h
    · rename_i hcolumns
      cases hsolve : LeastSquares.solve s.jacobian.operator.transpose (Vec.negate s.gradient)
          settings.tolerances settings.leastSquaresLimit with
      | error fault => simp [hsolve, Except.map] at h
      | ok solution =>
        simp only [hsolve, Except.map, Except.ok.injEq] at h
        rw [← h] at hrows hw
        simp only [estimate, estimateMultipliers, SparseMatrix.transposedLeastSquares,
          SparseMatrix.transposedProduct, Counted.count, Counted.recordSolve, Counted.returns_bind,
          Counted.returns_ite, Counted.returns_pure, Counted.returns_except,
          Counted.returns_modify, Counted.not_returns_throw, and_false, or_false]
        exact ⟨_, _, ⟨hcolumns, solution, _, ⟨solution, _, ⟨hsolve, rfl⟩, (), _, rfl, (), _, rfl,
          rfl, rfl⟩, _, _, ⟨hrows, (), _, rfl, rfl, rfl⟩, w, _, ⟨hw, rfl⟩, rfl, rfl⟩, h⟩
    · cases h
  · cases hfresh

theorem Iterate.restored_of_fresh (p : Problem K) {s : Iterate K} {o : NormalOutcome K} {g : Vec K}
    (h : settings.leastSquaresMultipliers s.jacobian s.gradient = .ok s.multipliers)
    (hfresh : s.freshLagrangianGradient = .ok g) (hsame : Vec.coincides s.point s.point)
    (hpoint : o.point = s.point) (hconstraints : o.constraints = s.constraints)
    (hjacobian : o.jacobian = s.jacobian) (l : Ledger K) :
    ∃ l', Returns (s.restored p settings o) l (s.settled s.multipliers o.radius none) l' := by
  obtain ⟨e, l', hestimate, hmultipliers⟩ := Settings.estimate_of_fresh h hfresh l
  refine ⟨l', ?_⟩
  rw [← hjacobian] at hestimate
  have hsame : Vec.coincides o.point s.point := by
    rw [hpoint]
    exact hsame
  simp only [restored, Counted.returns_bind, Counted.returns_ite, Counted.returns_pure]
  refine .inl ⟨hsame, (s.objective, s.gradient), l, ⟨rfl, rfl⟩, e, l', hestimate, ?_, rfl⟩
  simp [settled, revise, hpoint, hconstraints, hjacobian, hmultipliers]

/-- The budget is not exhausted and will not be, unless something is evaluated. -/
structure RunContext.Lasts (c : RunContext K) (l : Ledger K) : Prop where
  still : l.clock.IsStill c.problem.evaluationTime
  verdict : c.budget.verdict (c.budget.look l) = none

namespace RunContext.Lasts

variable {c : RunContext K}

theorem after {w : Work} (h : c.Lasts l) (hw : Spends c.problem.evaluationTime w l l')
    (hnone : w.evaluations = 0) : c.Lasts l' := by
  refine ⟨hw.isStill h.still, ?_⟩
  rw [Budget.verdict_look_eq h.still Quiet.refl.toRests.spends hw hnone]
  exact h.verdict

theorem check (h : c.Lasts l) : ∃ l', Returns c.budget.exhausted l none l' ∧ c.Lasts l' := by
  obtain ⟨l', hcheck⟩ := c.budget.exhausted_of l
  obtain ⟨-, -, hrests⟩ := Budget.exhausted_returns hcheck
  rw [h.verdict] at hcheck
  exact ⟨l', hcheck, h.after hrests.spends rfl⟩

end RunContext.Lasts

namespace RunState

/-- The state of a run that nothing ends. -/
def underWay (s : Iterate K) (kkt : KktSystem K) (stages : List (Stage K)) : RunState K :=
  ⟨s, kkt, stages, false, none, false, false⟩

variable {r : RunState K} {c : RunContext K} {s : Iterate K} {kkt kkt' : KktSystem K} {g : Vec K}
  {rho : K}

omit [Scalar K] in
theorem eq_underWay (h : r.isOver = false) : r = underWay r.iterate r.kkt r.stages := by
  cases r
  simp only [isOver, Bool.or_eq_false_iff, Option.isSome_eq_false_iff, Option.isNone_iff_eq_none]
    at h
  obtain ⟨⟨⟨rfl, rfl⟩, rfl⟩, rfl⟩ := h
  rfl

theorem close_of_fresh (kkt : KktSystem K) (stages : List (Stage K))
    (h : s.freshLagrangianGradient = .ok g) (hs : s.lagrangianGradient? = none)
    (work : StageWork K) (stage : String) (iteration : Int) (status : String) (l : Ledger K) :
    ∃ stages' l', Quiet l l' ∧
      Returns ((underWay s kkt stages).close c work stage iteration status) l
        (underWay (s.recalling (some g)) kkt stages') l' := by
  have hcoherent := Iterate.isCoherent_of_none hs
  obtain ⟨row, l', hreport⟩ := Iterate.report_of_fresh h hcoherent c.budget stage iteration status l
  obtain ⟨-, -, -, -, hquiet, -⟩ := Iterate.report_returns hreport hcoherent
  refine ⟨stages ++ [⟨work, s.recalling (some g), row⟩], l', hquiet, ?_⟩
  simp only [close, Counted.returns_bind, Counted.returns_pure]
  exact ⟨_, l', hreport, rfl, rfl⟩

theorem restore_of_standsStill (stages : List (Stage K)) (h : s.StandsStill c kkt g rho)
    (hs : s.IsCoherent) (hl : c.Lasts l) : ∃ stages' l', c.Lasts l' ∧
      Returns ((underWay s kkt stages).restore c) l
        (underWay (s.settled s.multipliers rho (some g)) kkt stages') l' := by
  obtain ⟨l₁, hread⟩ := Iterate.readDualNorm_of_fresh h.gradient hs l
  obtain ⟨-, -, -, -, hquiet⟩ := Iterate.readDualNorm_returns hread hs
  have hinside := h.inside
  rw [h.radius] at hinside
  obtain ⟨passes, hnormal⟩ := normalStepWith_of_inside c.settings.normalOptions.solver c.problem
    c.settings.normalOptions c.budget s.point s.jacobian hinside l₁
  rw [← h.radius] at hnormal
  let o : NormalOutcome K := ⟨s.point, s.constraints, s.jacobian, rho, .success, passes,
    c.settings.normalOptions.trustRadius, []⟩
  have hknown : (s.recalling (some g)).freshLagrangianGradient = .ok g := h.gradient
  obtain ⟨l₂, hrestored⟩ := Iterate.restored_of_fresh (o := o) c.problem h.multipliers hknown
    h.coincides rfl rfl rfl l₁
  obtain ⟨-, -, hspent⟩ := Iterate.restored_returns hrestored
  have hnone : Vec.moves s.point o.point = 0 := Vec.moves_eq_zero_iff.2 h.coincides
  obtain ⟨stages', l₃, hclosed, hclose⟩ := close_of_fresh (c := c)
    (s := s.settled s.multipliers rho none) kkt stages h.gradient rfl (.normal o) "N" s.iteration
    o.status.name l₂
  have hlasts : c.Lasts l₃ := hl.after ((hquiet.toRests.spends_trans hspent).rests hclosed.toRests)
    (by simp [Work.evaluations, hnone])
  obtain ⟨l₄, hcheck, hlasts⟩ := hlasts.check
  refine ⟨stages', l₄, hlasts, ?_⟩
  simp only [RunState.restore, Iterate.normalStep, Counted.returns_bind, Counted.returns_pure]
  refine ⟨_, l₁, ⟨_, l₁, hread, o, l₁, hnormal, rfl, rfl⟩, _, l₂, hrestored, _, l₃, hclose, none,
    l₄, hcheck, ?_, rfl⟩
  simp [o, Iterate.recalling, Iterate.settled, underWay]

theorem descend_of_flat (stages : List (Stage K)) {ending : TangentEnding K} {radius : K}
    (h : s.IsFlat c kkt kkt' ending) (hs : s.IsCoherent) (hknown : s.lagrangianGradient? = some g)
    (hsame : Vec.coincides s.point s.point) (hfails : ¬ s.Passes c.tolerances)
    (hradius : (radius, false) = afterTangent c.settings c.tolerances.primal s.radius ending)
    (hl : c.Lasts l) : ∃ stages' l', c.Lasts l' ∧
      Returns ((underWay s kkt stages).descend c) l
        (underWay ((s.settled s.multipliers radius (some g)).later 1) kkt' stages') l' := by
  obtain ⟨regularization, gradient, merit, d, kind, slope, hpolicy, hloaded, hgradient, hmerit, hd,
    hslope, hending⟩ := h
  have hg : g = gradient := Except.ok.inj ((hs g hknown).symm.trans hgradient)
  subst hg
  obtain ⟨l₁, hrefresh⟩ := KktSystem.refresh_of_loaded hloaded l
  obtain ⟨l₂, hread⟩ := Iterate.readLagrangianGradient_of_fresh hgradient hs l₁
  obtain ⟨-, -, hquiet⟩ := Iterate.readLagrangianGradient_returns hread hs
  rw [← hknown, Iterate.recalling_self] at hread
  obtain ⟨o, l₃, htangent, hpoint, rfl, htrials⟩ :=
    tangentStep_of_flat c.problem c.settings.tangentOptions c.budget s.point s.multipliers merit
      s.radius hd hslope hending l₂
  have hspent := (tangentStep_returns htangent).spent
  have hrevised : s.revise { Revision.none with
      radius := some radius, iteration := some (s.iteration + 1) } =
        (s.settled s.multipliers radius none).later 1 := rfl
  obtain ⟨stages', l₄, hclosed, hclose⟩ := close_of_fresh (c := c)
    (s := (s.settled s.multipliers radius none).later 1) kkt' stages hgradient rfl (.tangent o) "T"
    s.iteration o.ending.name l₃
  have hspent := (((KktSystem.refresh_spends hrefresh).rests hquiet.toRests).trans hspent).rests
    hclosed.toRests
  have hlasts : c.Lasts l₄ := hl.after hspent (by rw [Work.evaluations_add, htrials]; rfl)
  obtain ⟨l₅, hsolved⟩ := Iterate.isSolved_of_fails (t := c.tolerances)
    (s := (s.settled s.multipliers radius (some g)).later 1) hgradient rfl hfails l₄
  have hcoherent := Iterate.isCoherent_recalling_some hgradient
  obtain ⟨-, -, -, hjudged⟩ := isSolved_returns hsolved hcoherent
  obtain ⟨l₆, hcheck, hlasts⟩ := (hlasts.after hjudged.toRests.spends rfl).check
  refine ⟨stages', l₆, hlasts, ?_⟩
  have hsame' : Vec.coincides o.point s.point := by
    rw [hpoint]
    exact hsame
  simp only [RunState.descend, Counted.returns_bind, Counted.returns_pure, Counted.returns_except,
    Counted.returns_ite, Counted.returns_state]
  refine ⟨regularization, l, ⟨hpolicy, rfl⟩, (kkt', .ok ()), l₁, hrefresh, (), l₁, ⟨rfl, rfl⟩,
    (g, s), l₂, hread, merit, l₂, ⟨hmerit, rfl⟩, o, l₃, htangent, ?_⟩
  dsimp only
  rw [← hradius]
  exact .inl ⟨hsame', _, l₃, ⟨hrevised.symm, rfl⟩, _, l₄, hclose, (false, _), l₅, hsolved, none, l₆,
    hcheck, rfl, rfl⟩

/-- A state that stands still before a round, with evaluations and time left. -/
structure IsStuck (c : RunContext K) (r : RunState K) (l : Ledger K) : Prop where
  goes : r.isOver = false
  coherent : r.iterate.IsCoherent
  lasts : c.Lasts l
  standsStill : ∃ g rho, r.iterate.StandsStill c r.kkt g rho

theorem IsStuck.advance (h : IsStuck c r l) :
    ∃ r' l', Returns (r.advance c) l (r', false) l' ∧ IsStuck c r' l' ∧
      r'.iterate.iteration = r.iterate.iteration + 1 := by
  obtain ⟨hover, hs, hl, g, rho, hstill⟩ := h
  rw [eq_underWay hover]
  obtain ⟨stages, l₁, hlasts, hrestore⟩ := restore_of_standsStill r.stages hstill hs hl
  have hcoherent : (r.iterate.settled r.iterate.multipliers rho (some g)).IsCoherent :=
    Iterate.isCoherent_recalling_some hstill.gradient
  obtain ⟨l₂, hsolved⟩ := Iterate.isSolved_of_fails (t := c.tolerances)
    (s := r.iterate.settled r.iterate.multipliers rho (some g)) hstill.gradient rfl hstill.fails l₁
  obtain ⟨-, -, -, hquiet⟩ := isSolved_returns hsolved hcoherent
  obtain ⟨kkt, ending, hflat, hradius⟩ := hstill.flat 0
  rw [Iterate.later_zero] at hflat
  obtain ⟨stages', l₃, hlasts, hdescend⟩ := descend_of_flat (g := g) stages hflat hcoherent
    rfl hstill.coincides hstill.fails hradius (hlasts.after hquiet.toRests.spends rfl)
  have hinside : (r.iterate.settled r.iterate.multipliers rho (some g)).primalNorm ≤ rho :=
    hstill.inside
  have hproceed : Returns ((underWay (r.iterate.settled r.iterate.multipliers rho (some g)) r.kkt
      stages).proceed c) l₂ (underWay ((r.iterate.settled r.iterate.multipliers r.iterate.radius
        (some g)).later 1) kkt stages', false) l₃ := by
    simp only [proceed, Counted.returns_ite, Counted.returns_bind, Counted.returns_pure]
    exact .inr ⟨Bool.false_ne_true, _, l₃, hdescend, rfl, rfl⟩
  have hsettles : (underWay (r.iterate.settled r.iterate.multipliers rho (some g)) r.kkt
      stages).settles = true := by
    simp only [settles, Bool.or_eq_true, decide_eq_true_eq]
    exact .inl (.inl hinside)
  refine ⟨underWay ((r.iterate.settled r.iterate.multipliers r.iterate.radius (some g)).later 1) kkt
    stages', l₃, ?_, ⟨rfl, Iterate.isCoherent_recalling_some hstill.gradient, hlasts, g, rho,
    hstill.next hflat⟩, rfl⟩
  simp only [advance_eq, resume, Counted.returns_bind, Counted.returns_ite]
  exact ⟨_, l₁, hrestore, .inl ⟨hsettles, _, l₂, hsolved, hproceed⟩⟩

theorem IsStuck.repeatRounds (h : IsStuck c r l) (rounds : Nat) :
    ∃ l', Returns (repeatRounds c rounds r false) l none l' := by
  induction rounds generalizing r l with
  | zero =>
    refine ⟨l, ?_⟩
    simp [RunState.repeatRounds, h.goes]
  | succ rounds ih =>
    obtain ⟨r', l₁, hadvance, hstuck, -⟩ := h.advance
    obtain ⟨l', hrounds⟩ := ih hstuck
    refine ⟨l', ?_⟩
    simp only [RunState.repeatRounds, Counted.returns_ite, Counted.returns_bind]
    exact .inr ⟨by simp [h.goes], _, l₁, hadvance, hrounds⟩

end RunState

theorem RunState.repeatRounds_none_of_le {c : RunContext K} {r : RunState K} {again : Bool}
    {more rounds : Nat} (hle : rounds ≤ more)
    (h : Returns (repeatRounds c more r again) l none l') :
    ∃ l'', Returns (repeatRounds c rounds r again) l none l'' := by
  induction more generalizing rounds r again l with
  | zero =>
    obtain rfl : rounds = 0 := by omega
    exact ⟨l', h⟩
  | succ more ih =>
    simp only [repeatRounds, Counted.returns_ite, Counted.returns_bind, Counted.returns_pure] at h
    obtain ⟨-, hsome, -⟩ | ⟨hgoes, ⟨r', again'⟩, l₁, hadvance, hrounds⟩ := h
    · cases hsome
    cases rounds with
    | zero =>
      refine ⟨l, ?_⟩
      simp only [repeatRounds, Counted.returns_pure, if_neg hgoes, and_self]
    | succ rounds =>
      have hle' : rounds ≤ more := by omega
      obtain ⟨l'', hrest⟩ := ih hle' hrounds
      refine ⟨l'', ?_⟩
      simp only [repeatRounds, Counted.returns_ite, Counted.returns_bind]
      exact .inr ⟨hgoes, _, l₁, hadvance, hrest⟩

variable {policy : RegularizationPolicy K} {start? : Option (Vec K)} {l₀ : Ledger K}
  {c : RunContext K} {r : RunState K} {g : Vec K} {rho : K}

theorem Reaches.isStuck (h : Reaches p settings policy start? l₀ c (.before false) r l)
    (hclock : l₀.clock.IsStill p.evaluationTime) (hover : r.isOver = false)
    (hstill : r.iterate.StandsStill c r.kkt g rho) : r.IsStuck c l := by
  obtain ⟨w, hspent⟩ := h.spends
  have hverdict := h.told.verdict_eq hclock
  rw [RunState.tired_of_isOver hover] at hverdict
  refine ⟨hover, h.coherent, ⟨?_, hverdict⟩, g, rho, hstill⟩
  rw [h.problem_eq]
  exact hspent.isStill hclock

theorem Reaches.neverEnds (h : Reaches p settings policy start? l₀ c (.before false) r l)
    (hclock : l₀.clock.IsStill p.evaluationTime) (hover : r.isOver = false)
    (hstill : r.iterate.StandsStill c r.kkt g rho) : NeverEnds p settings policy start? l₀ := by
  obtain ⟨r₀, l₁, made, hstart, hmade⟩ := h.remainder
  have hstuck := h.isStuck hclock hover hstill
  intro rounds
  obtain ⟨l₂, hrounds⟩ := hstuck.repeatRounds rounds
  obtain ⟨l₃, hrounds⟩ := RunState.repeatRounds_none_of_le (Nat.le_add_left rounds made)
    (hmade rounds none l₂ hrounds)
  refine ⟨l₃, ?_⟩
  simp only [solveWithin, Counted.returns_bind]
  exact ⟨_, l₁, hstart, none, l₃, hrounds, Counted.returns_pure.2 ⟨rfl, rfl⟩⟩

theorem Problem.evaluate_of_exact {s : Iterate K} (hs : s.IsExact p)
    (hy : settings.leastSquaresMultipliers s.jacobian s.gradient = .ok s.multipliers)
    (hfresh : s.freshLagrangianGradient = .ok g) (hnone : s.lagrangianGradient? = none)
    (l : Ledger K) :
    ∃ l', Returns (p.evaluate settings s.point s.radius s.iteration none) l s l' := by
  have hf : ∃ l₁, Returns (p.objectiveAt s.point) l s.objective l₁ := by
    simp [objectiveAt, Counted.count, Counted.pass, hs.objective]
  obtain ⟨l₁, hf⟩ := hf
  have hc : ∃ l₂, Returns (p.constraintsAt s.point) l₁ s.constraints l₂ := by
    simp [constraintsAt, Counted.count, Counted.pass, hs.constraints]
  obtain ⟨l₂, hc⟩ := hc
  have hg : ∃ l₃, Returns (p.gradientAt s.point) l₂ s.gradient l₃ := by
    simp [gradientAt, Counted.count, hs.gradient]
  obtain ⟨l₃, hg⟩ := hg
  obtain ⟨l₄, hJ⟩ := Problem.jacobianAt_always hs.jacobian l₃
  obtain ⟨e, l₅, he, hmultipliers⟩ := Settings.estimate_of_fresh hy hfresh l₄
  refine ⟨l₅, ?_⟩
  simp only [evaluate, Counted.returns_bind, Counted.returns_pure]
  refine ⟨_, l₁, hf, _, l₂, hc, _, l₃, hg, _, l₄, hJ, e, l₅, he, s.multipliers, l₅,
    ⟨hmultipliers.symm, rfl⟩, ?_, rfl⟩
  rw [← hnone]

theorem startRun_of_exact (policy : RegularizationPolicy K) (start? : Option (Vec K))
    {s : Iterate K} {kkt : KktSystem K} (hcheck : p.check = .ok ())
    (hkkt : KktSystem.ofProblem p = .ok kkt) (hpoint : start?.getD p.start = s.point)
    (hlength : s.point.length = p.variableCount)
    (hradius : s.radius = settings.radiusBound) (hiteration : s.iteration = 0)
    (hnone : s.lagrangianGradient? = none) (hs : s.IsExact p)
    (hy : settings.leastSquaresMultipliers s.jacobian s.gradient = .ok s.multipliers)
    (hfresh : s.freshLagrangianGradient = .ok g) (l : Ledger K) :
    ∃ c r l', Returns (startRun p settings policy start?) l (c, r) l' ∧
      r.iterate = s.recalling (some g) ∧ r.kkt = kkt ∧ c.budget.startTime = l.time := by
  obtain ⟨l₁, hevaluated⟩ := Problem.evaluate_of_exact hs hy hfresh hnone l.restart.afterReading
  rw [hradius, hiteration] at hevaluated
  have hcoherent : s.IsCoherent := Iterate.isCoherent_of_none hnone
  obtain ⟨l₂, hd⟩ := Iterate.readDualNorm_of_fresh hfresh hcoherent l₁
  let b : Budget K := ⟨settings.maxEvaluations, settings.maxTime, l.time⟩
  let t : RunTolerances K := ⟨settings.absolute + settings.relative * s.primalNorm,
    settings.absolute + settings.relative * Vec.norm g⟩
  obtain ⟨solved, l₃, hsolved, -⟩ := Iterate.isSolved_of_known (s := s.recalling (some g)) t hfresh
    rfl l₂
  obtain ⟨l₄, hcheck'⟩ := b.exhausted_of l₃
  obtain ⟨row, l₅, hreport⟩ := Iterate.report_of_fresh (s := s.recalling (some g)) hfresh
    (Iterate.isCoherent_recalling_some hfresh) b "init" s.iteration "" l₄
  refine ⟨⟨p, settings, policy, b, t⟩, ⟨s.recalling (some g), kkt, [⟨.initial, s.recalling (some g),
    row⟩], solved, b.verdict (b.look l₃), false, false⟩, l₅, ?_, rfl, rfl, rfl⟩
  simp only [startRun, RunState.close, Counted.returns_bind, Counted.returns_pure,
    Counted.returns_except, Counted.returns_ite, Counted.returns_modify, Budget.start_returns]
  refine ⟨(), l, ⟨hcheck, rfl⟩, (), l.restart, rfl, .inl ⟨?_, b, l.restart.afterReading, ⟨rfl, rfl⟩,
    kkt, _, ⟨hkkt, rfl⟩, s, l₁, ?_, _, l₂, hd, _, l₃, hsolved, _, l₄, hcheck', _, l₅,
    ⟨_, l₅, hreport, rfl, rfl⟩, rfl, rfl⟩⟩
  · rw [hpoint]
    exact hlength
  · rw [hpoint]
    exact hevaluated

end InfeasibilityControl
