import InfeasibilityControl.Proofs.Iterate
import InfeasibilityControl.Proofs.NormalStep
import InfeasibilityControl.Proofs.TangentStep

set_option autoImplicit false
set_option relaxedAutoImplicit false

/-!
What the stages of a run do: the start, a normal step and a tangent step.

Each stage has one theorem that says all that it does to the state of the run and to the ledger;
what holds along a run is derived from these.
-/

namespace InfeasibilityControl

open Counted (Returns)
open Ledger (Spends Rests Quiet)

variable {K : Type} [Scalar K] {l l' : Ledger K}

namespace RunState

variable {r r' : RunState K} {c : RunContext K}

/-- A stage goes on record with the iterate that the run keeps and a row that shows it. -/
structure Closes (c : RunContext K) (r : RunState K) (work : StageWork K) (stage : String)
    (iteration : Int) (status : String) (r' : RunState K) (l l' : Ledger K) : Prop where
  iterate : ∃ g, r'.iterate = r.iterate.recalling (some g)
  coherent : r'.iterate.IsCoherent
  stages : ∃ row, r'.stages = r.stages ++ [⟨work, r'.iterate, row⟩] ∧
    r'.iterate.IsShownBy row stage iteration status l'.counters.evaluations
  kept : r'.kkt = r.kkt ∧ r'.solved = r.solved ∧ r'.stalled = r.stalled
  flags : r'.tired = r.tired ∧ r'.infeasible = r.infeasible
  quiet : Quiet l l'
  timed : ∀ s ∈ r'.stages.getLast?,
    c.budget.Clocked c.problem.evaluationTime s.row.elapsed l l'

theorem close_returns {work : StageWork K} {stage status : String} {iteration : Int}
    (h : Returns (r.close c work stage iteration status) l r' l') (hs : r.iterate.IsCoherent) :
    r.Closes c work stage iteration status r' l l' := by
  simp only [close, Counted.returns_bind, Counted.returns_pure] at h
  obtain ⟨⟨row, s⟩, _, hreport, rfl, rfl⟩ := h
  obtain ⟨g, rfl, hcoherent, hshown, hquiet, hclocked⟩ := Iterate.report_returns hreport hs
  refine ⟨⟨g, rfl⟩, hcoherent, ⟨row, rfl, hshown⟩, ⟨rfl, rfl, rfl⟩, ⟨rfl, rfl⟩, hquiet, ?_⟩
  intro stage hstage
  rw [List.getLast?_concat] at hstage
  cases hstage
  exact hclocked _

/-- What the normal stage of a round does, with the outcome of its normal step. -/
structure Restores (c : RunContext K) (r : RunState K) (o : NormalOutcome K) (r' : RunState K)
    (l l' : Ledger K) : Prop where
  radius : ∃ d, r.iterate.freshDualNorm = .ok d ∧
    o.radius = updateRadius r.iterate.radius c.settings.radiusBound
      (relativeDual d r.iterate.gradientNorm c.tolerances.dual) c.tolerances.primal
  follows : ∃ l₁, o.Follows c.problem c.budget r.iterate.point r.iterate.constraints
      r.iterate.jacobian l l₁ ∧
    Spends c.problem.evaluationTime
      ⟨Vec.moves r.iterate.point o.point, Vec.moves r.iterate.point o.point, 0, 0, 0⟩ l₁ l'
  passes : 0 ≤ c.settings.maxNormalTrials → o.passes = o.trials.length
  iterate : r.iterate.IsRestored c.problem c.settings o r'.iterate
  coherent : r'.iterate.IsCoherent
  remembers : ∃ g, r'.iterate.lagrangianGradient? = some g
  stages : ∃ row, r'.stages = r.stages ++ [⟨.normal o, r'.iterate, row⟩] ∧
    r'.iterate.IsShownBy row "N" r.iterate.iteration o.status.name l'.counters.evaluations
  timed : ∀ s ∈ r'.stages.getLast?,
    c.budget.Clocked c.problem.evaluationTime s.row.elapsed l l'
  told : c.budget.Told c.problem.evaluationTime r'.tired l l'
  exhausted : l.clock.NeverGoesBack c.problem.evaluationTime →
    ∀ limit, o.status = .exhausted limit → r'.tired ≠ none
  infeasible : r'.infeasible = decide (o.status = .infeasible)
  kept : r'.kkt = r.kkt ∧ r'.solved = r.solved ∧ r'.stalled = r.stalled
  sought : ∃ d l₁ l₂, r.iterate.freshDualNorm = .ok d ∧
    Returns (normalStep c.problem c.settings.normalOptions c.budget r.iterate.point
      r.iterate.constraints (some r.iterate.jacobian) r.iterate.radius c.settings.radiusBound
      (relativeDual d r.iterate.gradientNorm c.tolerances.dual) c.tolerances.primal) l₁ o l₂

theorem restore_returns (h : Returns (r.restore c) l r' l') (hs : r.iterate.IsCoherent) :
    ∃ o, Restores c r o r' l l' := by
  simp only [restore, Iterate.normalStep, Counted.returns_bind, Counted.returns_pure] at h
  obtain ⟨_, l₂, ⟨⟨d, s⟩, l₁, hd, o, _, hnormal, rfl, rfl⟩, s', l₃, hrestored, r₁, l₄, hclose,
    tired, _, htired, rfl, rfl⟩ := h
  obtain ⟨g, hg, rfl, rfl, hquiet⟩ := Iterate.readDualNorm_returns hd hs
  obtain ⟨hradius, hfollows⟩ := normalStep_returns hnormal
  obtain ⟨hiterate, hnone, hspent⟩ := Iterate.restored_returns hrestored
  have hclosed := close_returns hclose (Iterate.isCoherent_of_none hnone)
  obtain ⟨g', hkept⟩ := hclosed.iterate
  obtain ⟨row, hrow, hshown⟩ := hclosed.stages
  have hafter := hspent.rests hclosed.quiet.toRests
  have hfollows := hfollows.after hquiet.toRests
  have hfirst := hfollows.spent
  have htold := (Budget.told_of_exhausted htired).after (hfirst.trans hafter)
  obtain ⟨rfl, -, hrests⟩ := Budget.exhausted_returns htired
  have htimed : ∀ s ∈ r₁.stages.getLast?,
      c.budget.Clocked c.problem.evaluationTime s.row.elapsed l l' := fun s hs =>
    ((hclosed.timed s hs).after (hfirst.trans hspent)).trans hrests.spends
  refine ⟨o, ⟨_, Iterate.freshDualNorm_eq hg, hradius⟩, ⟨l₂, hfollows, hafter.rests hrests⟩,
    normalStep_passes hnormal, ?_, hclosed.coherent, ⟨g', ?_⟩, ⟨row, hrow, ?_⟩, htimed, htold, ?_,
    rfl, hclosed.kept, ⟨_, l₁, l₂, Iterate.freshDualNorm_eq hg, hnormal⟩⟩
  · rw [hkept]
    exact hiterate.of_recalling.recalling _
  · rw [hkept]
    rfl
  · rw [hrests.evaluations, ← hiterate.of_recalling.iteration]
    exact hshown
  · intro hclock limit hlimit
    exact ((hfollows.exhausted limit hlimit).trans hafter).verdict_ne_none hclock

theorem Restores.spends {o : NormalOutcome K} (h : Restores c r o r' l l') :
    ∃ w, Spends c.problem.evaluationTime w l l' := by
  obtain ⟨l₁, hfollows, hafter⟩ := h.follows
  exact ⟨_, hfollows.spent.trans hafter⟩

theorem Restores.row {o : NormalOutcome K} (h : Restores c r o r' l l') :
    ∃ row, r'.stages.map Stage.row = r.stages.map Stage.row ++ [row] ∧
      r'.iterate.IsShownBy row "N" r.iterate.iteration o.status.name l'.counters.evaluations ∧
      c.budget.Clocked c.problem.evaluationTime row.elapsed l l' := by
  obtain ⟨row, hrow, hshown⟩ := h.stages
  exact ⟨row, by simp [hrow], hshown, h.timed ⟨.normal o, r'.iterate, row⟩ (by simp [hrow])⟩

theorem afterTangent_radius (settings : Settings K) (floor radius : K)
    (ending : TangentEnding K) :
    (settings.tangentFailure = .shrink ∧ ending.isSuccess = false ∧
      (afterTangent settings floor radius ending).1 = Scalar.max (0.5 * radius) floor) ∨
    (¬ (settings.tangentFailure = .shrink ∧ ending.isSuccess = false) ∧
      (afterTangent settings floor radius ending).1 = radius) := by
  unfold afterTangent
  split
  · exact .inr ⟨by simp [*], rfl⟩
  · cases hpolicy : settings.tangentFailure with
    | shrink => exact .inl ⟨rfl, by simp [*], rfl⟩
    | proceed | abort => exact .inr ⟨by simp, rfl⟩

/-- What the tangent stage of a round does, with the outcome of its tangent step. -/
structure Descends (c : RunContext K) (r : RunState K) (o : TangentOutcome K) (r' : RunState K)
    (l l' : Ledger K) : Prop where
  follows : ∃ l₁ l₂, Spends c.problem.evaluationTime ⟨0, 0, 0, 1, 1⟩ l l₁ ∧
    o.Follows c.problem c.budget r.iterate.point
      (c.settings.infeasibilityGrowth * r.iterate.radius) l₁ l₂ ∧
    Spends c.problem.evaluationTime ⟨Vec.moves r.iterate.point o.point,
      Vec.moves r.iterate.point o.point, Vec.moves r.iterate.point o.point,
      Vec.moves r.iterate.point o.point, 0⟩ l₂ l'
  radius : (r'.iterate.radius, r'.stalled) =
    afterTangent c.settings c.tolerances.primal r.iterate.radius o.ending
  iterate : r.iterate.IsDescended c.problem o r'.iterate
  coherent : r'.iterate.IsCoherent
  stages : ∃ s row, r'.stages = r.stages ++ [⟨.tangent o, s, row⟩] ∧
    (∃ g?, r'.iterate = s.recalling g?) ∧
    s.IsShownBy row "T" r.iterate.iteration o.ending.name l'.counters.evaluations
  timed : ∀ s ∈ r'.stages.getLast?,
    c.budget.Clocked c.problem.evaluationTime s.row.elapsed l l'
  solved : r'.solved = true ↔ r'.iterate.Passes c.tolerances
  told : c.budget.Told c.problem.evaluationTime r'.tired l l'
  exhausted : l.clock.NeverGoesBack c.problem.evaluationTime →
    ∀ limit, o.ending = .exhausted limit → r'.tired ≠ none
  infeasible : r'.infeasible = r.infeasible
  sought : ∃ regularization gradient merit l₁ l₂, c.policy r.iterate = .ok regularization ∧
    r.kkt.loaded c.problem r.iterate.point r.iterate.multipliers regularization.gamma
      regularization.delta = .ok r'.kkt ∧
    r.iterate.freshLagrangianGradient = .ok gradient ∧ r.iterate.lagrangian = .ok merit ∧
    Returns (tangentStep c.problem r'.kkt c.settings.tangentOptions c.budget r.iterate.point
      r.iterate.multipliers gradient r.iterate.jacobian merit r.iterate.radius) l₁ o l₂

theorem Descends.spends {o : TangentOutcome K} (h : Descends c r o r' l l') :
    ∃ w, Spends c.problem.evaluationTime w l l' := by
  obtain ⟨l₁, l₂, hrefreshed, hfollows, hafter⟩ := h.follows
  exact ⟨_, (hrefreshed.trans hfollows.spent).trans hafter⟩

theorem Descends.row {o : TangentOutcome K} (h : Descends c r o r' l l') :
    ∃ row, r'.stages.map Stage.row = r.stages.map Stage.row ++ [row] ∧
      r'.iterate.IsShownBy row "T" r.iterate.iteration o.ending.name l'.counters.evaluations ∧
      c.budget.Clocked c.problem.evaluationTime row.elapsed l l' := by
  obtain ⟨s, row, hrow, ⟨g?, hs⟩, hshown⟩ := h.stages
  refine ⟨row, by simp [hrow], ?_, h.timed ⟨.tangent o, s, row⟩ (by simp [hrow])⟩
  rw [hs]
  exact hshown.recalling g?

private theorem descended_returns {p : Problem K} {settings : Settings K} {s s' : Iterate K}
    {o : TangentOutcome K} {radius : K}
    (h : (Vec.coincides o.point s.point ∧ s' = s.revise { Revision.none with
          radius := some radius, iteration := some (s.iteration + 1) } ∧ l' = l) ∨
      (¬ Vec.coincides o.point s.point ∧
        Returns (p.evaluate settings o.point radius (s.iteration + 1) (some s.multipliers)) l s'
          l')) :
    s.IsDescended p o s' ∧ s'.radius = radius ∧ s'.lagrangianGradient? = none ∧
      Spends p.evaluationTime ⟨Vec.moves s.point o.point, Vec.moves s.point o.point,
        Vec.moves s.point o.point, Vec.moves s.point o.point, 0⟩ l l' := by
  obtain ⟨hsame, rfl, rfl⟩ | ⟨hmoved, h⟩ := h
  · refine ⟨⟨rfl, rfl, fun _ => ⟨rfl, rfl, rfl, rfl, rfl⟩, fun hmoved => absurd hsame hmoved⟩, rfl,
      rfl, ?_⟩
    rw [Vec.moves, if_pos hsame]
    exact Quiet.refl.toRests.spends
  · obtain ⟨hexact, ⟨hpoint, hradius, hiteration, hnone⟩, hmultipliers, -, hspent⟩ :=
      Problem.evaluate_returns h
    refine ⟨⟨hiteration, hmultipliers _ rfl, fun hsame => absurd hsame hmoved,
      fun _ => ⟨hpoint, hexact⟩⟩, hradius, hnone, ?_⟩
    rw [Vec.moves, if_neg hmoved]
    exact hspent

theorem closeDescent_returns {o : TangentOutcome K} {iteration : Int}
    (h : Returns (r.closeDescent c o iteration) l r' l') (hs : r.iterate.IsCoherent) :
    ∃ r₁ l₁ l₂ g? solved t,
      r.Closes c (.tangent o) "T" iteration o.ending.name r₁ l l₁ ∧
      (solved = true ↔ r₁.iterate.Passes c.tolerances) ∧
      (r₁.iterate.recalling g?).IsCoherent ∧ Quiet l₁ l₂ ∧
      Returns c.budget.exhausted l₂ t l' ∧
      r' = { r₁ with iterate := r₁.iterate.recalling g?, solved, tired := t } := by
  simp only [closeDescent, Counted.returns_bind, Counted.returns_pure] at h
  obtain ⟨r₁, l₁, hclose, ⟨solved, s⟩, l₂, hsolved, t, _, ht, rfl, rfl⟩ := h
  have hclosed := close_returns hclose hs
  obtain ⟨hjudged, ⟨g?, rfl⟩, hcoherent, hquiet⟩ := isSolved_returns hsolved hclosed.coherent
  exact ⟨r₁, l₁, l₂, g?, solved, t, hclosed, hjudged, hcoherent, hquiet, ht, rfl⟩

theorem descend_cases (h : Returns (r.descend c) l r' l') :
    ∃ regularization kkt l₁ g s l₂ merit o l₃ s' l₄,
      c.policy r.iterate = .ok regularization ∧
      ((r.kkt.refresh c.problem r.iterate.point r.iterate.multipliers regularization.gamma
        regularization.delta).run l).run = ((kkt, .ok ()), l₁) ∧
      Returns r.iterate.readLagrangianGradient l₁ (g, s) l₂ ∧
      s.lagrangian = .ok merit ∧
      Returns (tangentStep c.problem kkt c.settings.tangentOptions c.budget s.point s.multipliers
        g s.jacobian merit s.radius) l₂ o l₃ ∧
      ((Vec.coincides o.point s.point ∧ s' = s.revise { Revision.none with
          radius := some (afterTangent c.settings c.tolerances.primal s.radius o.ending).1
          iteration := some (s.iteration + 1) } ∧ l₄ = l₃) ∨
        (¬ Vec.coincides o.point s.point ∧ Returns (c.problem.evaluate c.settings o.point
          (afterTangent c.settings c.tolerances.primal s.radius o.ending).1 (s.iteration + 1)
          (some s.multipliers)) l₃ s' l₄)) ∧
      Returns (closeDescent { r with
        iterate := s'
        kkt
        stalled := (afterTangent c.settings c.tolerances.primal s.radius o.ending).2 } c o
        s.iteration) l₄ r' l' := by
  simp only [descend, Counted.returns_bind, Counted.returns_pure, Counted.returns_except,
    Counted.returns_ite, Counted.returns_state] at h
  obtain ⟨regularization, _, ⟨hpolicy, rfl⟩, ⟨kkt, _⟩, _, hrefresh, _, l₁, ⟨rfl, rfl⟩, ⟨g, s⟩, _,
    hg, merit, l₂, ⟨hmerit, rfl⟩, o, l₃, htangent, h⟩ := h
  simp only [closeDescent, Counted.returns_bind, Counted.returns_pure]
  obtain ⟨hsame, s', l₄, hs', hclose⟩ | ⟨hmoved, s', l₄, hs', hclose⟩ := h
  · exact ⟨regularization, kkt, l₁, g, s, l₂, merit, o, l₃, s', l₄, hpolicy, hrefresh, hg, hmerit,
      htangent, .inl ⟨hsame, hs'⟩, hclose⟩
  · exact ⟨regularization, kkt, l₁, g, s, l₂, merit, o, l₃, s', l₄, hpolicy, hrefresh, hg, hmerit,
      htangent, .inr ⟨hmoved, hs'⟩, hclose⟩

theorem descend_returns (h : Returns (r.descend c) l r' l') (hs : r.iterate.IsCoherent) :
    ∃ o, Descends c r o r' l l' := by
  obtain ⟨regularization, kkt, l₁, g, s, l₂, merit, o, l₃, s', l₄, hpolicy, hrefresh, hg, hmerit,
    htangent, hs', hclose⟩ := descend_cases h
  obtain ⟨hfresh, rfl, hread⟩ := Iterate.readLagrangianGradient_returns hg hs
  have hrefreshed := KktSystem.refresh_spends hrefresh
  have hloaded := KktSystem.loaded_of_refresh hrefresh
  have hfollows := (tangentStep_returns htangent).after hread.toRests
  obtain ⟨hdescended, hradius, hnone, hspent⟩ := descended_returns hs'
  obtain ⟨r₁, l₅, l₆, g?, solved, t, hclosed, hjudged, hcoherent, hquiet, ht, rfl⟩ :=
    closeDescent_returns hclose (Iterate.isCoherent_of_none hnone)
  obtain ⟨g', hkept⟩ := hclosed.iterate
  obtain ⟨row, hrow, hshown⟩ := hclosed.stages
  have hafter := (hspent.rests hclosed.quiet.toRests).rests hquiet.toRests
  have hbefore := hrefreshed.trans hfollows.spent
  have htold := (Budget.told_of_exhausted ht).after (hbefore.trans hafter)
  obtain ⟨rfl, -, hrests⟩ := Budget.exhausted_returns ht
  refine ⟨o, ⟨l₁, l₃, hrefreshed, hfollows, hafter.rests hrests⟩, ?_, ?_, hcoherent,
    ⟨r₁.iterate, row, hrow, ⟨g?, rfl⟩, ?_⟩, fun s hs => ?_, hjudged, htold, ?_, hclosed.flags.2,
    ?_⟩
  · have hr : r₁.iterate.radius =
        (afterTangent c.settings c.tolerances.primal r.iterate.radius o.ending).1 := by
      rw [hkept]
      exact hradius
    exact Prod.ext hr hclosed.kept.2.2
  · have hr : r.iterate.IsDescended c.problem o r₁.iterate := by
      rw [hkept]
      exact hdescended.of_recalling.recalling _
    exact hr.recalling g?
  · rw [hrests.evaluations, hquiet.evaluations]
    exact hshown
  · exact ((hclosed.timed s hs).after (hbefore.trans hspent)).trans
      (hquiet.toRests.trans hrests).spends
  · intro hclock limit hlimit
    have hran := ((hfollows.exhausted limit hlimit).after hrefreshed).trans hafter
    exact hran.verdict_ne_none hclock
  · rw [← show r₁.kkt = kkt from hclosed.kept.1] at hloaded htangent
    exact ⟨regularization, g, merit, _, l₃, hpolicy, hloaded, hfresh, hmerit, htangent⟩

end RunState

/-- What the start of a run does. -/
structure RunState.Starts (p : Problem K) (settings : Settings K) (policy : RegularizationPolicy K)
    (start? : Option (Vec K)) (c : RunContext K) (r : RunState K) (l l' : Ledger K) : Prop where
  context : c.problem = p ∧ c.settings = settings ∧ c.policy = policy
  budget : c.budget.maxEvaluations = settings.maxEvaluations ∧
    c.budget.maxTime = settings.maxTime
  tolerances : ∃ d, r.iterate.freshDualNorm = .ok d ∧
    c.tolerances = ⟨settings.absolute + settings.relative * r.iterate.primalNorm,
      settings.absolute + settings.relative * d⟩
  exact : r.iterate.IsExact p
  point : r.iterate.point = start?.getD p.start
  radius : r.iterate.radius = settings.radiusBound
  multipliers : settings.multipliersAt p r.iterate.point = .ok r.iterate.multipliers
  coherent : r.iterate.IsCoherent
  stages : ∃ row, r.stages = [⟨.initial, r.iterate, row⟩] ∧
    r.iterate.IsShownBy row "init" 0 "" l'.counters.evaluations
  timed : ∀ s ∈ r.stages.getLast?, c.budget.Clocked p.evaluationTime s.row.elapsed l.restart l'
  solved : r.solved = true ↔ r.iterate.Passes c.tolerances
  told : c.budget.Told p.evaluationTime r.tired l.restart l'
  flags : r.infeasible = false ∧ r.stalled = false
  iteration : r.iterate.iteration = 0
  spent : Spends p.evaluationTime ⟨1, 1, 1, 1, 0⟩ l.restart l'

theorem startRun_returns {p : Problem K} {settings : Settings K} {policy : RegularizationPolicy K}
    {start? : Option (Vec K)} {c : RunContext K} {r : RunState K}
    (h : Returns (startRun p settings policy start?) l (c, r) l') :
    RunState.Starts p settings policy start? c r l l' := by
  simp only [startRun, Counted.returns_bind, Counted.returns_pure, Counted.returns_except,
    Counted.returns_ite, Counted.returns_modify, Counted.not_returns_throw, Budget.start_returns,
    and_false, or_false, Prod.mk.injEq] at h
  obtain ⟨_, _, ⟨-, rfl⟩, _, _, rfl, -, b, _, ⟨rfl, rfl⟩, kkt, _, ⟨-, rfl⟩, s, l₁, hs, ⟨d, s'⟩, l₂,
    hd, ⟨solved, s''⟩, l₃, hsolved, tired, l₄, htired, r, _, hclose, ⟨rfl, rfl⟩, rfl⟩ := h
  obtain ⟨hexact, ⟨hpoint, hradius, hiteration, hnone⟩, -, hmultipliers, hspent⟩ :=
    Problem.evaluate_returns hs
  obtain ⟨g, hg, rfl, rfl, hread⟩ :=
    Iterate.readDualNorm_returns hd (Iterate.isCoherent_of_none hnone)
  obtain ⟨hjudged, ⟨g?, rfl⟩, hcoherent, hquiet⟩ :=
    RunState.isSolved_returns hsolved (Iterate.isCoherent_recalling_some hg)
  have hspent := Ledger.quiet_afterReading.toRests.spends_trans hspent
  have htold := (Budget.told_of_exhausted htired).after
    (hspent.rests (hread.trans hquiet).toRests)
  obtain ⟨-, -, hrests⟩ := Budget.exhausted_returns htired
  have hclosed := RunState.close_returns hclose hcoherent
  obtain ⟨g', hkept⟩ := hclosed.iterate
  obtain ⟨row, hrow, hshown⟩ := hclosed.stages
  have hbefore := hspent.rests ((hread.trans hquiet).toRests.trans hrests)
  refine ⟨⟨rfl, rfl, rfl⟩, ⟨rfl, rfl⟩, ⟨Vec.norm g, ?_, ?_⟩, ?_, ?_, ?_, ?_, hclosed.coherent,
    ⟨row, hrow, ?_⟩, fun s hs => (hclosed.timed s hs).after hbefore, ?_, ?_, ?_, ?_,
    hbefore.rests hclosed.quiet.toRests⟩
  · rw [hkept]
    exact Iterate.freshDualNorm_eq hg
  · rw [hkept]
    rfl
  · rw [hkept]
    exact ((hexact.recalling _).recalling _).recalling _
  · rw [hkept]
    exact hpoint
  · rw [hkept]
    exact hradius
  · rw [hkept]
    rw [← hpoint] at hmultipliers
    exact hmultipliers rfl
  · rw [← hiteration]
    exact hshown
  · rw [hclosed.kept.2.1, hkept]
    exact hjudged
  · rw [hclosed.flags.1]
    exact htold.quiet hclosed.quiet
  · exact ⟨hclosed.flags.2, hclosed.kept.2.2⟩
  · rw [hkept]
    exact hiteration

theorem RunState.Starts.tolerancesAt {p : Problem K} {settings : Settings K}
    {policy : RegularizationPolicy K} {start? : Option (Vec K)} {c : RunContext K} {r : RunState K}
    (h : Starts p settings policy start? c r l l') :
    settings.tolerancesAt p (start?.getD p.start) = .ok c.tolerances := by
  obtain ⟨d, hd, htolerances⟩ := h.tolerances
  rw [← h.exact.dualNorm] at hd
  rw [← h.point, htolerances]
  simp [Settings.tolerancesAt, h.multipliers, h.exact.primalNorm, hd, bind, Except.bind, pure,
    Except.pure]

/-- What the result of a run tells of its last state. -/
structure RunResult.Reports (c : RunContext K) (r : RunState K) (res : RunResult K)
    (l' : Ledger K) : Prop where
  solution : res.solution = r.iterate.point
  status : res.status = r.status
  objective : res.objective = r.iterate.objective
  dualResidual : r.iterate.freshDualNorm = .ok res.dualResidual
  primalResidual : res.primalResidual = r.iterate.primalNorm
  multipliers : res.multipliers = r.iterate.multipliers
  iterations : res.iterations = r.iterate.iteration
  evaluations : res.evaluations = l'.counters.evaluations
  counters : res.counters = l'.counters
  stages : res.stages = r.stages
  history : res.history = r.stages.map Stage.row
  tolerances : res.tolerances = c.tolerances

theorem finishRun_returns {c : RunContext K} {r : RunState K} {res : RunResult K}
    (h : Returns (finishRun c r) l res l') (hs : r.iterate.IsCoherent) :
    res.Reports c r l' ∧ Quiet l l' := by
  simp only [finishRun, Counted.counters, Counted.returns_bind, Counted.returns_pure,
    Counted.returns_get, Budget.elapsed_returns] at h
  obtain ⟨_, _, ⟨rfl, rfl⟩, ⟨d, s⟩, l₁, hd, _, _, ⟨_, _, ⟨rfl, rfl⟩, rfl, rfl⟩, rfl, rfl⟩ := h
  obtain ⟨g, hg, rfl, rfl, hread⟩ := Iterate.readDualNorm_returns hd hs
  exact ⟨⟨rfl, rfl, rfl, Iterate.freshDualNorm_eq hg, rfl, rfl, rfl, rfl, rfl, rfl, rfl, rfl⟩,
    Ledger.quiet_afterReading.trans hread⟩

end InfeasibilityControl
