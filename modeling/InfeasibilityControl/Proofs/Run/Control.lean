import InfeasibilityControl.Proofs.Run.Endless
import InfeasibilityControl.Proofs.Run.History
import Mathlib.Data.List.Chain

set_option autoImplicit false
set_option relaxedAutoImplicit false

/-!
Dynamic control of infeasibility.

A normal step does not raise the norm of the constraints, and a tangent step is taken only from
inside the radius. A tangent step that moves ends where the constraints are within a multiple of the
radius; one that does not keeps them as they are. What becomes of the radius afterwards is of no
consequence for the row that has been written.
-/

namespace InfeasibilityControl

open Counted (Returns)
open RunState (Starts Restores Judges Descends)

section

variable {K : Type} [Scalar K] {p : Problem K} {settings : Settings K}
  {policy : RegularizationPolicy K} {start? : Option (Vec K)} {l₀ l l' : Ledger K}
  {c : RunContext K} {m : Moment} {r r' : RunState K}

theorem Iterate.IsDescended.constraints_eq {s s' : Iterate K} {o : TangentOutcome K}
    (h : s.IsDescended p o s') (hs : p.constraints s.point = .ok s.constraints) :
    p.constraints s'.point = .ok s'.constraints := by
  by_cases hsame : Vec.coincides o.point s.point = true
  · obtain ⟨hpoint, -, hconstraints, -, -⟩ := h.kept hsame
    rw [hpoint, hconstraints]
    exact hs
  · exact (h.evaluated hsame).2.constraints

theorem Reaches.constraints_eq (h : Reaches p settings policy start? l₀ c m r l) :
    p.constraints r.iterate.point = .ok r.iterate.constraints := by
  refine h.steadyRule (P := fun _ r _ =>
    p.constraints r.iterate.point = .ok r.iterate.constraints) ?_ ?_ ?_ ?_
  · intro c r l hstep
    exact hstep.exact.constraints
  · intro c again r o r' l l' h hr _ hstep
    obtain ⟨l₁, hfollows, -⟩ := hstep.follows
    rw [hstep.iterate.point, hstep.iterate.constraints]
    rw [← h.problem_eq] at hr ⊢
    exact hfollows.constraints_eq hr
  · intro c r r' l l' hr hstep
    obtain ⟨g?, solved, rfl⟩ := hstep.state
    exact hr
  · intro c r o r' l l' h hr _ hstep
    rw [← h.problem_eq] at hr ⊢
    exact hstep.iterate.constraints_eq hr

theorem RunState.Restores.primalNorm_not_lt [ComparableScalar K] {o : NormalOutcome K}
    (h : Restores c r o r' l l')
    (hr : c.problem.constraints r.iterate.point = .ok r.iterate.constraints) :
    ¬ r.iterate.primalNorm < r'.iterate.primalNorm := by
  obtain ⟨l₁, hfollows, -⟩ := h.follows
  have hnorm : r'.iterate.primalNorm = o.primalNorm := by
    rw [Iterate.primalNorm, h.iterate.constraints, NormalOutcome.primalNorm]
  rw [hnorm]
  obtain hpoint | hdescent := hfollows.descent
  · have hsame := hfollows.constraints_eq hr
    rw [hpoint, hr, Except.ok.injEq] at hsame
    rw [NormalOutcome.primalNorm, ← hsame]
    exact ComparableScalar.lt_irrefl _
  · have : IsTrans K fun a b : K => a < b := ⟨fun _ _ _ => ComparableScalar.lt_trans⟩
    rw [Relation.transGen_eq_self] at hdescent
    exact fun hraised => ComparableScalar.lt_irrefl _ (ComparableScalar.lt_trans hraised hdescent)

/-- A tangent step keeps the norm of the constraints or ends within the multiple of the radius,
whether or not its point compares equal to the one it began at. -/
theorem RunState.Descends.primalNorm_cases {o : TangentOutcome K} (h : Descends c r o r' l l')
    (hr : c.problem.constraints r.iterate.point = .ok r.iterate.constraints) :
    r'.iterate.primalNorm = r.iterate.primalNorm ∨
      r'.iterate.primalNorm ≤ c.settings.infeasibilityGrowth * r.iterate.radius := by
  obtain ⟨l₁, l₂, -, hfollows, -⟩ := h.follows
  by_cases hsame : Vec.coincides o.point r.iterate.point = true
  · obtain ⟨-, -, hconstraints, -, -⟩ := h.iterate.kept hsame
    left
    rw [Iterate.primalNorm, hconstraints, Iterate.primalNorm]
  · obtain ⟨hpoint, hexact⟩ := h.iterate.evaluated hsame
    have hconstraints := hexact.constraints
    rw [hpoint] at hconstraints
    obtain horigin | ⟨u, hu, hbound⟩ := hfollows.bounded
    · rw [horigin, hr, Except.ok.injEq] at hconstraints
      left
      rw [Iterate.primalNorm, ← hconstraints, Iterate.primalNorm]
    · rw [hu, Except.ok.injEq] at hconstraints
      right
      rw [Iterate.primalNorm, ← hconstraints]
      exact hbound

/-- A row continues the control of infeasibility after another one. -/
structure ProgressRow.Controls (growth : K) (a b : ProgressRow K) : Prop where
  normal : b.stage = "N" → ¬ a.primalResidual < b.primalResidual
  tangent : b.stage = "T" → a.stage = "N" ∧ ¬ a.primalResidual < 0 ∧
    a.primalResidual ≤ a.radius ∧
    (b.primalResidual ≤ a.radius ∨ b.primalResidual ≤ growth * a.radius)

theorem RunState.Restores.controls [ComparableScalar K] {o : NormalOutcome K} {growth : K}
    {a b : ProgressRow K} {stage status status' : String} {iteration iteration' : Int}
    {evaluations evaluations' : Nat} (h : Restores c r o r' l l')
    (hr : c.problem.constraints r.iterate.point = .ok r.iterate.constraints)
    (ha : r.iterate.IsShownBy a stage iteration status evaluations)
    (hb : r'.iterate.IsShownBy b "N" iteration' status' evaluations') : a.Controls growth b := by
  refine ⟨fun _ => ?_, fun htangent => ?_⟩
  · rw [ha.primalResidual, hb.primalResidual]
    exact h.primalNorm_not_lt hr
  · rw [hb.stage] at htangent
    exact absurd htangent (by decide)

theorem RunState.Descends.controls [SignedScalar K] {o : TangentOutcome K} {a b : ProgressRow K}
    {stage status status' : String} {iteration iteration' : Int} {evaluations evaluations' : Nat}
    (h : Descends c r o r' l l')
    (hr : c.problem.constraints r.iterate.point = .ok r.iterate.constraints)
    (hinside : r.iterate.primalNorm ≤ r.iterate.radius)
    (ha : r.iterate.IsShownBy a stage iteration status evaluations) (hstage : a.stage = "N")
    (hb : r'.iterate.IsShownBy b "T" iteration' status' evaluations') :
    a.Controls c.settings.infeasibilityGrowth b := by
  refine ⟨fun hnormal => ?_, fun _ => ⟨hstage, ?_, ?_, ?_⟩⟩
  · rw [hb.stage] at hnormal
    exact absurd hnormal (by decide)
  · rw [ha.primalResidual]
    exact Vec.norm_not_neg _
  · rw [ha.primalResidual, ha.radius]
    exact hinside
  · rw [hb.primalResidual, ha.radius]
    obtain hkept | hbound := h.primalNorm_cases hr
    · rw [hkept]
      exact .inl hinside
    · exact .inr hbound

/-- The rows of a run continue the control of infeasibility one after another. At a judged point the
last one is that of a normal step, and the run goes on from it only if it is inside the radius. -/
theorem Reaches.controls [SignedScalar K] (h : Reaches p settings policy start? l₀ c m r l) :
    ((r.stages.map Stage.row).IsChain (ProgressRow.Controls settings.infeasibilityGrowth)) ∧
      (m = .restored ∨ m = .judged →
        ∀ row ∈ (r.stages.map Stage.row).getLast?, row.stage = "N") ∧
      (m = .judged → r.settles = true) := by
  refine h.rule (P := fun _ m r _ =>
    ((r.stages.map Stage.row).IsChain (ProgressRow.Controls settings.infeasibilityGrowth)) ∧
      (m = .restored ∨ m = .judged →
        ∀ row ∈ (r.stages.map Stage.row).getLast?, row.stage = "N") ∧
      (m = .judged → r.settles = true)) ?_ ?_ ?_ ?_ ?_ ?_
  · intro c r l hstep
    obtain ⟨row, hrow, -⟩ := hstep.stages
    refine ⟨?_, by simp, by simp⟩
    rw [hrow]
    exact List.isChain_singleton row
  · rintro c again r o r' l l' h ⟨hchain, -, -⟩ - hstep
    obtain ⟨row, hrows, hshown, -⟩ := hstep.row
    obtain ⟨last, hlast, _, _, _, hlastShown⟩ := h.shown
    have hr := h.constraints_eq
    rw [← h.problem_eq] at hr
    rw [hrows]
    refine ⟨List.isChain_append.2 ⟨hchain, List.isChain_singleton row, ?_⟩, fun _ => ?_, nofun⟩
    · rw [hlast]
      simpa using hstep.controls hr hlastShown hshown
    · simpa using hshown.stage
  · rintro c r l - ⟨hchain, -, -⟩ -
    exact ⟨hchain, by simp, by simp⟩
  · rintro c r r' l l' - ⟨hchain, hlast, -⟩ hsettles hstep
    obtain ⟨g?, solved, rfl⟩ := hstep.state
    exact ⟨hchain, fun _ => hlast (.inl rfl), fun _ => hsettles⟩
  · rintro c r l - ⟨hchain, -, -⟩ -
    exact ⟨hchain, by simp, by simp⟩
  · rintro c r o r' l l' h ⟨hchain, hnormal, hsettles⟩ hgoes hstep
    obtain ⟨row, hrows, hshown, -⟩ := hstep.row
    obtain ⟨last, hlast, _, _, _, hlastShown⟩ := h.shown
    have hr := h.constraints_eq
    rw [← h.problem_eq] at hr
    have hinside : r.iterate.primalNorm ≤ r.iterate.radius := by
      have hsettles := hsettles rfl
      simp only [RunState.rests, Bool.or_eq_false_iff] at hgoes
      simpa [RunState.settles, hgoes] using hsettles
    have hcontrols : last.Controls settings.infeasibilityGrowth row := by
      rw [← h.settings_eq]
      exact hstep.controls hr hinside hlastShown (hnormal (.inr rfl) last hlast) hshown
    rw [hrows]
    refine ⟨List.isChain_append.2 ⟨hchain, List.isChain_singleton row, ?_⟩, by simp, by simp⟩
    rw [hlast]
    simpa using hcontrols

theorem Reaches.opens (h : Reaches p settings policy start? l₀ c m r l) :
    ∃ row ∈ (r.stages.map Stage.row).head?, row.stage = "init" := by
  refine h.steadyRule (P := fun _ r _ =>
    ∃ row ∈ (r.stages.map Stage.row).head?, row.stage = "init") ?_ ?_ ?_ ?_
  · intro c r l hstep
    obtain ⟨row, hrow, hshown⟩ := hstep.stages
    exact ⟨row, by simp [hrow], hshown.stage⟩
  · rintro c again r o r' l l' - ⟨first, hfirst, hstage⟩ - hstep
    obtain ⟨row, hrows, -⟩ := hstep.row
    rw [hrows, List.head?_append, hfirst]
    exact ⟨first, rfl, hstage⟩
  · intro c r r' l l' hr hstep
    obtain ⟨g?, solved, rfl⟩ := hstep.state
    exact hr
  · rintro c r o r' l l' - ⟨first, hfirst, hstage⟩ - hstep
    obtain ⟨row, hrows, -⟩ := hstep.row
    rw [hrows, List.head?_append, hfirst]
    exact ⟨first, rfl, hstage⟩

end

/-- Infeasibility is under control: no normal step raises the primal residual, a tangent step follows
on a normal step that ended inside the radius, and it ends within the multiple of that radius. -/
structure ControlLaw (growth : ℝ) (rows : List (ProgressRow ℝ)) : Prop where
  opens : ∃ row ∈ rows.head?, row.stage = "init"
  normal : rows.IsChain fun a b => b.stage = "N" → b.primalResidual ≤ a.primalResidual
  tangent : rows.IsChain fun a b => b.stage = "T" → a.stage = "N" ∧
    a.primalResidual ≤ a.radius ∧ b.primalResidual ≤ max 1 growth * a.radius

section

variable {p : Problem ℝ} {settings : Settings ℝ} {policy : RegularizationPolicy ℝ}
  {start? : Option (Vec ℝ)} {l₀ l : Ledger ℝ} {c : RunContext ℝ} {m : Moment} {r : RunState ℝ}

theorem Reaches.controlLaw (h : Reaches p settings policy start? l₀ c m r l) :
    ControlLaw settings.infeasibilityGrowth (r.stages.map Stage.row) := by
  obtain ⟨hchain, -, -⟩ := h.controls
  refine ⟨h.opens, hchain.imp fun a b hab hnormal => not_lt.1 (hab.normal hnormal),
    hchain.imp fun a b hab htangent => ?_⟩
  obtain ⟨hstage, hsign, hinside, hbound⟩ := hab.tangent htangent
  have hradius : 0 ≤ a.radius := (not_lt.1 hsign).trans hinside
  refine ⟨hstage, hinside, ?_⟩
  obtain hkept | hgrown := hbound
  · exact hkept.trans (le_mul_of_one_le_left hradius (le_max_left 1 _))
  · exact hgrown.trans (mul_le_mul_of_nonneg_right (le_max_right 1 _) hradius)

/-- In exact arithmetic every run keeps infeasibility under control, at every state that it reaches
and in the history of its result. -/
theorem run_controlsInfeasibility :
    (∀ c m r l, Reaches p settings policy start? l₀ c m r l →
      ControlLaw settings.infeasibilityGrowth (r.stages.map Stage.row)) ∧
    ∀ rounds res l, Returns (solveWithin p settings policy start? rounds) l₀ (some res) l →
      ControlLaw settings.infeasibilityGrowth res.history := by
  refine ⟨fun c m r l h => h.controlLaw, fun rounds res l h => ?_⟩
  obtain ⟨c, r, l₁, hr, -, hres, -⟩ := solveWithin_returns h
  rw [hres.history]
  exact hr.controlLaw

end

/-- The run that never ends makes a round of both steps, under control. -/
theorem realLine_controlsInfeasibility : ∃ c r l,
    Reaches realLine .coarse (.fixed .standard) none .empty c (.before false) r l ∧
      (∃ rounds, (r.stages.map Stage.row).map ProgressRow.mark = marks (rounds + 1)) ∧
      ControlLaw Settings.coarse.infeasibilityGrowth (r.stages.map Stage.row) := by
  obtain ⟨c, r, l, hreaches, hover, hstill⟩ := realLine.starts
  obtain ⟨r', l', hround, hstuck, hiteration⟩ :=
    (hreaches.isStuck realLine.still hover hstill).advance
  have hreaches' := RunState.advance_reaches hreaches (by simp [hover]) hround
  obtain ⟨rounds, hrounds, -⟩ := hreaches.alternates realLine.still.neverGoesBack
  obtain ⟨rounds', hrounds', hmarks⟩ := hreaches'.alternates realLine.still.neverGoesBack
  have hnext : rounds' = rounds + 1 := by omega
  obtain ⟨-, hmarks⟩ | ⟨hends, -⟩ := hmarks
  · exact ⟨c, r', l', hreaches', ⟨rounds, hnext ▸ hmarks⟩,
      run_controlsInfeasibility.1 c _ r' l' hreaches'⟩
  · have hgoes := hstuck.goes
    rw [hends rfl] at hgoes
    cases hgoes

end InfeasibilityControl
