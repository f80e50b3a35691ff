import InfeasibilityControl.Proofs.Run.Course

set_option autoImplicit false
set_option relaxedAutoImplicit false

/-!
How far a run exceeds its budget of evaluations.

Trials are made only while the count is within the budget. Past it go the last trial of a step, the
objective at a restored point and a second evaluation of the point that a tangent step accepted:
four evaluations at most. A run that has no budget at all still evaluates its starting point.
-/

namespace InfeasibilityControl

open Counted (Returns)
open RunState (Starts Restores Judges Descends)

variable {K : Type}

/-- The counts of evaluations before each trial point of a stage. -/
def StageWork.countsBeforeTrials : StageWork K → List Nat
  | .initial => []
  | .normal o => o.trials.map Trial.evaluationsBefore
  | .tangent o => o.trials.map LineTrial.evaluationsBefore

/-- No trial point is evaluated once the count exceeds the budget. -/
def TriesWithin (maxEvaluations : Int) (stages : List (Stage K)) : Prop :=
  ∀ s ∈ stages, ∀ count ∈ s.work.countsBeforeTrials, (count : Int) ≤ maxEvaluations

theorem triesWithin_append {maxEvaluations : Int} {stages : List (Stage K)} {s : Stage K} :
    TriesWithin maxEvaluations (stages ++ [s]) ↔ TriesWithin maxEvaluations stages ∧
      ∀ count ∈ s.work.countsBeforeTrials, (count : Int) ≤ maxEvaluations := by
  simp only [TriesWithin, List.mem_append, List.mem_singleton, or_imp, forall_and, forall_eq]

variable [Scalar K] {p : Problem K} {settings : Settings K} {policy : RegularizationPolicy K}
  {start? : Option (Vec K)} {l₀ l l' : Ledger K} {c : RunContext K} {m : Moment}
  {r r' : RunState K}

theorem RunState.Starts.evaluations (h : Starts p settings policy start? c r l l') :
    l'.counters.evaluations = 2 :=
  h.spent.evaluations

/-- A normal stage that begins within the budget exceeds it by two evaluations at most: its last
trial and the objective at the restored point. -/
theorem RunState.Restores.evaluations_le {o : NormalOutcome K} (h : Restores c r o r' l l')
    (hwithin : (l.counters.evaluations : Int) ≤ c.budget.maxEvaluations) :
    (l'.counters.evaluations : Int) ≤ c.budget.maxEvaluations + 2 := by
  obtain ⟨l₁, hfollows, hafter⟩ := h.follows
  have hspent := hfollows.spent
  have htrials := hspent.evaluations
  have hpoint := hafter.evaluations
  have hmoves := Vec.moves_le_one (u := r.iterate.point) (v := o.point)
  simp only [Work.evaluations] at htrials hpoint
  obtain hnone | hceiling := hfollows.ceiling
  · rw [hnone, List.length_nil] at htrials
    omega
  · omega

/-- A tangent stage that begins within the budget exceeds it by four evaluations at most: two for
its last trial and two for the point that it ends at. -/
theorem RunState.Descends.evaluations_le {o : TangentOutcome K} (h : Descends c r o r' l l')
    (hwithin : (l.counters.evaluations : Int) ≤ c.budget.maxEvaluations) :
    (l'.counters.evaluations : Int) ≤ c.budget.maxEvaluations + 4 := by
  obtain ⟨l₁, l₂, hrefreshed, hfollows, hafter⟩ := h.follows
  have hbefore := hrefreshed.evaluations
  have htrials := hfollows.spent.evaluations
  have hpoint := hafter.evaluations
  have hmoves := Vec.moves_le_one (u := r.iterate.point) (v := o.point)
  simp only [Work.evaluations] at hbefore htrials hpoint
  obtain hnone | hceiling := hfollows.ceiling
  · rw [hnone, List.length_nil] at htrials
    omega
  · omega

theorem Reaches.expense (h : Reaches p settings policy start? l₀ c m r l) :
    (l.counters.evaluations : Int) ≤ max 2 (settings.maxEvaluations + 4) ∧
      TriesWithin settings.maxEvaluations r.stages := by
  refine h.steadyRule (P := fun _ r l =>
    (l.counters.evaluations : Int) ≤ max 2 (settings.maxEvaluations + 4) ∧
      TriesWithin settings.maxEvaluations r.stages) ?_ ?_ ?_ ?_
  · intro c r l hstep
    obtain ⟨row, hrow, -⟩ := hstep.stages
    have htwo := hstep.evaluations
    refine ⟨by omega, ?_⟩
    rw [hrow]
    simp [TriesWithin, StageWork.countsBeforeTrials]
  · rintro c again r o r' l l' h ⟨-, htries⟩ hgoes hstep
    obtain ⟨row, hrow, -⟩ := hstep.stages
    obtain ⟨l₁, hfollows, -⟩ := hstep.follows
    have hwithin := h.evaluations_le (h.goes hgoes).1
    rw [← h.maxEvaluations_eq] at hwithin htries ⊢
    have hspent := hstep.evaluations_le hwithin
    refine ⟨by omega, ?_⟩
    rw [hrow, triesWithin_append]
    exact ⟨htries, List.forall_mem_map.2 hfollows.within⟩
  · rintro c r r' l l' ⟨hspent, htries⟩ hstep
    obtain ⟨g?, solved, rfl⟩ := hstep.state
    rw [hstep.quiet.evaluations]
    exact ⟨hspent, htries⟩
  · rintro c r o r' l l' h ⟨-, htries⟩ hgoes hstep
    obtain ⟨s, row, hrow, -⟩ := hstep.stages
    obtain ⟨l₁, l₂, -, hfollows, -⟩ := hstep.follows
    have hwithin := h.evaluations_le (RunState.tired_of_rests hgoes)
    rw [← h.maxEvaluations_eq] at hwithin htries ⊢
    have hspent := hstep.evaluations_le hwithin
    refine ⟨by omega, ?_⟩
    rw [hrow, triesWithin_append]
    exact ⟨htries, List.forall_mem_map.2 hfollows.within⟩

/-- A run that ends has exceeded its budget by four evaluations at most, and no trial was made past
the budget. -/
theorem solveWithin_expense {rounds : Nat} {res : RunResult K}
    (h : Returns (solveWithin p settings policy start? rounds) l₀ (some res) l) :
    (res.evaluations : Int) ≤ max 2 (settings.maxEvaluations + 4) ∧
      TriesWithin settings.maxEvaluations res.stages := by
  obtain ⟨c, r, l₁, hr, -, hres, hquiet⟩ := solveWithin_returns h
  rw [hres.evaluations, hquiet.evaluations, hres.stages]
  exact hr.expense

/-- The start and not one evaluation more is within the budget. -/
def Settings.frugal : Settings Float := { standard with maxEvaluations := 2 }

/-- A tangent step whose first trial is accepted takes all four evaluations past the budget. -/
theorem parabola_expense : ∃ res l,
    Returns (solveWithin parabola .frugal (.fixed .standard) none 5) .empty (some res) l ∧
      res.evaluations = Settings.frugal.maxEvaluations + 4 ∧
      (res.evaluations : Int) ≤ max 2 (Settings.frugal.maxEvaluations + 4) ∧
      TriesWithin Settings.frugal.maxEvaluations res.stages := by
  obtain ⟨res, l, h, hcount⟩ := exists_run parabola .frugal (.fixed .standard) none .empty 5
    (fun res => decide (res.evaluations = 6)) (by decide +kernel)
  have hcount : res.evaluations = 6 := of_decide_eq_true hcount
  exact ⟨res, l, h, by rw [hcount]; rfl, solveWithin_expense h⟩

end InfeasibilityControl
