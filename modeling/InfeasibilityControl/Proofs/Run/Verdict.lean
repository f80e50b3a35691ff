import InfeasibilityControl.Proofs.Run.Course

set_option autoImplicit false
set_option relaxedAutoImplicit false

/-!
The status of a finished run is a true account of its last state.

Along a run each flag keeps its meaning: it is tired as the last check of the budget says,
infeasible if the last row reports so, and stalled if the last row reports a failed tangent step
that is to stop the run. When the run is over, the status names the first of them in this order.
-/

namespace InfeasibilityControl

open Counted (Returns)
open Ledger (Quiet)
open RunState (Starts Restores Judges Descends)

variable {K : Type} [Scalar K]

/-- The last row reports a normal step that found the constraints infeasible. -/
def EndsInfeasible (rows : List (ProgressRow K)) : Prop :=
  ∃ row, rows.getLast? = some row ∧ row.stage = "N" ∧ row.status = "infeasible"

/-- The last row reports a tangent step without success. -/
def EndsUnsuccessful (rows : List (ProgressRow K)) : Prop :=
  ∃ row, rows.getLast? = some row ∧ row.stage = "T" ∧ row.status = "unsuccessful"

/-- The last check of the budget found the time exceeded. -/
def OutOfTime (maxTime : K) (l : Ledger K) : Prop :=
  ∃ check elapsed, l.checks.getLast? = some check ∧ check.elapsed = some elapsed ∧
    maxTime < elapsed

section

variable {dt : K} {b : Budget K} {t : Option Limit} {l l' : Ledger K}

theorem Budget.Told.evaluations_iff (h : b.Told dt t l l') :
    t = some .evaluations ↔ b.maxEvaluations < (l'.counters.evaluations : Int) := by
  obtain ⟨v, l₁, -, -, rfl, hrests⟩ := h
  rw [verdict_look_evaluations_iff, hrests.evaluations]

theorem Budget.Told.time_iff (h : b.Told dt t l l')
    (hwithin : ¬ b.maxEvaluations < (l'.counters.evaluations : Int)) :
    t = some .time ↔ OutOfTime b.maxTime l' := by
  obtain ⟨v, l₁, -, hlast, rfl, hrests⟩ := h
  rw [hrests.evaluations] at hwithin
  simp only [OutOfTime, hlast, verdict, look, if_neg hwithin]
  by_cases hpast : b.maxTime < l₁.time - b.startTime <;> simp [hpast]

end

/-- Both residuals of a result are below their tolerances. -/
def RunResult.Passes (res : RunResult K) : Prop :=
  res.primalResidual < res.tolerances.primal ∧ res.dualResidual < res.tolerances.dual

omit [Scalar K] in
theorem endsInfeasible_append {rows : List (ProgressRow K)} {row : ProgressRow K} :
    EndsInfeasible (rows ++ [row]) ↔ row.stage = "N" ∧ row.status = "infeasible" := by
  simp [EndsInfeasible]

omit [Scalar K] in
theorem endsUnsuccessful_append {rows : List (ProgressRow K)} {row : ProgressRow K} :
    EndsUnsuccessful (rows ++ [row]) ↔ row.stage = "T" ∧ row.status = "unsuccessful" := by
  simp [EndsUnsuccessful]

theorem NormalStatus.name_eq_infeasible_iff {status : NormalStatus} :
    status.name = "infeasible" ↔ status = .infeasible := by
  rcases status with _ | _ | ⟨_ | _⟩ <;> decide

omit [Scalar K] in
theorem TangentEnding.name_eq_unsuccessful_iff {ending : TangentEnding K}
    (h : ∀ limit, ending ≠ .exhausted limit) :
    ending.name = "unsuccessful" ↔ ending.isSuccess = false := by
  cases ending with
  | exhausted limit => exact absurd rfl (h limit)
  | stationary => simp [name, isSuccess]
  | accepted => simp [name, isSuccess]
  | notDescent slope => simp [name, isSuccess]
  | infeasibilityGrowth primal allowed => simp [name, isSuccess]
  | severeCurvature required actual => simp [name, isSuccess]

theorem RunState.afterTangent_stalls_iff {settings : Settings K} {floor radius : K}
    {ending : TangentEnding K} :
    (afterTangent settings floor radius ending).2 = true ↔
      settings.tangentFailure = .abort ∧ ending.isSuccess = false := by
  unfold afterTangent
  split
  · simp [*]
  · cases h : settings.tangentFailure <;> simp_all

namespace RunState

variable {r : RunState K}

omit [Scalar K] in
theorem status_eq_firstOrder_iff : r.status = .firstOrder ↔ r.solved = true := by
  unfold status
  split
  · simp [*]
  · rename_i hsolved
    cases r.tired <;> cases r.infeasible <;> cases r.stalled <;> simp [hsolved]

omit [Scalar K] in
theorem status_eq_exhausted_iff {limit : Limit} (hsolved : r.solved = false) :
    r.status = .exhausted limit ↔ r.tired = some limit := by
  cases htired : r.tired with
  | some limit' => simp [status, hsolved, htired]
  | none => cases hi : r.infeasible <;> cases hs : r.stalled <;> simp [status, *]

omit [Scalar K] in
theorem status_eq_infeasible_iff (hsolved : r.solved = false) (htired : r.tired = none) :
    r.status = .infeasible ↔ r.infeasible = true := by
  cases hi : r.infeasible <;> cases hs : r.stalled <;> simp [status, *]

omit [Scalar K] in
theorem status_eq_stalled_iff (hsolved : r.solved = false) (htired : r.tired = none)
    (hinfeasible : r.infeasible = false) : r.status = .stalled ↔ r.stalled = true := by
  cases hs : r.stalled <;> simp [status, hsolved, htired, hinfeasible, hs]

omit [Scalar K] in
theorem status_ne_unknown (h : r.isOver = true) : r.status ≠ .unknown := by
  intro hunknown
  cases hsolved : r.solved <;> cases htired : r.tired <;> cases hi : r.infeasible <;>
    cases hs : r.stalled <;> simp_all [status, isOver]

end RunState

/-- What the flags of a run mean wherever it stands. -/
structure Truthful (settings : Settings K) (m : Moment) (r : RunState K) : Prop where
  infeasible : r.infeasible = true ↔ EndsInfeasible (r.stages.map Stage.row)
  stalled : r.tired = none →
    (r.stalled = true ↔
      settings.tangentFailure = .abort ∧ EndsUnsuccessful (r.stages.map Stage.row))
  underway : m ≠ .before false → r.stalled = false

variable {p : Problem K} {settings : Settings K} {policy : RegularizationPolicy K}
  {start? : Option (Vec K)} {l₀ l l' : Ledger K} {c : RunContext K} {m : Moment}
  {r r' : RunState K}

theorem RunState.Starts.truthful (h : Starts p settings policy start? c r l l') :
    Truthful settings (.before false) r := by
  obtain ⟨row, hrow, hshown⟩ := h.stages
  have hrows : r.stages.map Stage.row = [] ++ [row] := by rw [hrow]; rfl
  refine ⟨?_, fun _ => ?_, fun hm => absurd rfl hm⟩
  · rw [hrows, endsInfeasible_append, hshown.stage, h.flags.1]
    simp
  · rw [hrows, endsUnsuccessful_append, hshown.stage, h.flags.2]
    simp

theorem RunState.Restores.truthful {o : NormalOutcome K} (h : Restores c r o r' l l')
    (hstalled : r.stalled = false) : Truthful c.settings .restored r' := by
  obtain ⟨row, hrow, hshown, -⟩ := h.row
  have hstalled' : r'.stalled = false := h.kept.2.2.trans hstalled
  refine ⟨?_, fun _ => ?_, fun _ => hstalled'⟩
  · rw [hrow, endsInfeasible_append, hshown.stage, hshown.status,
      NormalStatus.name_eq_infeasible_iff, h.infeasible]
    simp
  · rw [hrow, endsUnsuccessful_append, hshown.stage, hstalled']
    simp

theorem RunState.Descends.truthful {o : TangentOutcome K} (h : Descends c r o r' l l')
    (hfeasible : r.infeasible = false)
    (hclock : l.clock.NeverGoesBack c.problem.evaluationTime) :
    Truthful c.settings (.before false) r' := by
  obtain ⟨row, hrow, hshown, -⟩ := h.row
  refine ⟨?_, fun htired => ?_, fun hm => absurd rfl hm⟩
  · rw [hrow, endsInfeasible_append, hshown.stage, h.infeasible, hfeasible]
    simp
  · have hbudget : ∀ limit, o.ending ≠ .exhausted limit := fun limit hlimit =>
      h.exhausted hclock limit hlimit htired
    have hstalled := congrArg Prod.snd h.radius
    simp only at hstalled
    rw [hstalled, afterTangent_stalls_iff, hrow, endsUnsuccessful_append, hshown.stage,
      hshown.status, TangentEnding.name_eq_unsuccessful_iff hbudget]
    simp

/-- The flags mean what they should wherever a run gets. -/
theorem Reaches.truthful (h : Reaches p settings policy start? l₀ c m r l)
    (hclock : l₀.clock.NeverGoesBack p.evaluationTime) : Truthful settings m r := by
  refine h.rule (P := fun _ m r _ => Truthful settings m r) ?_ ?_ ?_ ?_ ?_ ?_
  · intro c r l hstep
    exact hstep.truthful
  · intro c again r o r' l l' h ih hgoes hstep
    have hstalled : r.stalled = false := by
      cases again with
      | true => exact ih.underway (by simp)
      | false =>
        simp only [RunState.isOver, Bool.not_false, Bool.and_true, Bool.or_eq_false_iff] at hgoes
        exact hgoes.2
    rw [← h.settings_eq]
    exact hstep.truthful hstalled
  · intro c r l h ih houtside
    exact ⟨ih.infeasible, ih.stalled, fun _ => ih.underway (by simp)⟩
  · intro c r r' l l' h ih hinside hstep
    obtain ⟨g?, solved, rfl⟩ := hstep.state
    exact ⟨ih.infeasible, ih.stalled, fun _ => ih.underway (by simp)⟩
  · intro c r l h ih hrests
    exact ⟨ih.infeasible, ih.stalled, fun hm => absurd rfl hm⟩
  · intro c r o r' l l' h ih hgoes hstep
    simp only [RunState.rests, Bool.or_eq_false_iff] at hgoes
    rw [← h.settings_eq]
    exact hstep.truthful hgoes.2 (h.neverGoesBack hclock)

/-- The status of a run that ends, with a clock that never goes back: of several reasons to end the
first is named, and each is named only with good cause. -/
theorem solveWithin_status {rounds : Nat} {res : RunResult K}
    (hclock : l₀.clock.NeverGoesBack p.evaluationTime)
    (h : Returns (solveWithin p settings policy start? rounds) l₀ (some res) l) :
    settings.tolerancesAt p (start?.getD p.start) = .ok res.tolerances ∧
      (res.status = .firstOrder ↔ res.Passes) ∧
      (¬ res.Passes →
        (res.status = .exhausted .evaluations ↔
          settings.maxEvaluations < (res.evaluations : Int)) ∧
        (¬ settings.maxEvaluations < (res.evaluations : Int) →
          (res.status = .exhausted .time ↔ OutOfTime settings.maxTime l) ∧
          (¬ OutOfTime settings.maxTime l →
            (res.status = .infeasible ↔ EndsInfeasible res.history) ∧
            (¬ EndsInfeasible res.history →
              (res.status = .stalled ↔
                settings.tangentFailure = .abort ∧ EndsUnsuccessful res.history))))) ∧
      res.status ≠ .unknown := by
  obtain ⟨c, r, l₁, hr, hover, hres, hquiet⟩ := solveWithin_returns h
  have htruth := hr.truthful hclock
  have htold := hr.told.quiet hquiet
  obtain ⟨r₁, l₂, hstarts⟩ := hr.started
  have hsolved : r.solved = true ↔ res.Passes := by
    rw [hr.solved_iff (.inr rfl), RunResult.Passes, Iterate.Passes, hres.primalResidual,
      hres.tolerances, hres.dualResidual]
    simp
  have hevaluations : r.tired = some .evaluations ↔
      settings.maxEvaluations < (res.evaluations : Int) := by
    rw [htold.evaluations_iff, hstarts.budget.1, hres.evaluations]
  have htime : ¬ settings.maxEvaluations < (res.evaluations : Int) →
      (r.tired = some .time ↔ OutOfTime settings.maxTime l) := by
    rw [hres.evaluations, ← hstarts.budget.1, ← hstarts.budget.2]
    exact htold.time_iff
  rw [hres.status]
  refine ⟨?_, RunState.status_eq_firstOrder_iff.trans hsolved, fun hpasses => ?_,
    RunState.status_ne_unknown hover⟩
  · rw [hres.tolerances]
    exact hstarts.tolerancesAt
  have hunsolved : r.solved = false := by
    rw [← hsolved] at hpasses
    simpa using hpasses
  refine ⟨(RunState.status_eq_exhausted_iff hunsolved).trans hevaluations, fun hwithin => ?_⟩
  refine ⟨(RunState.status_eq_exhausted_iff hunsolved).trans (htime hwithin), fun hinTime => ?_⟩
  have hrested : r.tired = none := by
    cases htired : r.tired with
    | none => rfl
    | some limit =>
      cases limit with
      | evaluations => exact absurd (hevaluations.1 htired) hwithin
      | time => exact absurd ((htime hwithin).1 htired) hinTime
  rw [hres.history]
  refine ⟨(RunState.status_eq_infeasible_iff hunsolved hrested).trans htruth.infeasible,
    fun hfeasible => ?_⟩
  have hinfeasible : r.infeasible = false := by
    rw [← htruth.infeasible] at hfeasible
    simpa using hfeasible
  exact (RunState.status_eq_stalled_iff hunsolved hrested hinfeasible).trans
    (htruth.stalled hrested)

theorem flatLine_status : ∃ res l,
    Returns (solveWithin flatLine Settings.standard (.fixed .standard) none 5) .empty (some res) l ∧
      res.status = .firstOrder ∧ res.Passes := by
  obtain ⟨res, l, h, hstatus⟩ := flatLine_ends
  exact ⟨res, l, h, hstatus, (solveWithin_status flatLine_still.neverGoesBack h).2.1.1 hstatus⟩

end InfeasibilityControl
