import InfeasibilityControl.Proofs.Order.Float
import InfeasibilityControl.Proofs.Run.Verdict

set_option autoImplicit false
set_option relaxedAutoImplicit false

/-!
The history of a run.

With a clock that never goes back no normal step is repeated: a round writes one row for its normal
step and, unless the run ends there, one for its tangent step, both under the number of the round. A
status other than those of a completed step ends the run, so only the last row may show one. Counts
and times are read row by row while the run goes on, and the last row shows what the result tells.
-/

namespace InfeasibilityControl

open Counted (Returns)
open Ledger (Spends Quiet)
open RunState (Starts Restores Judges Descends)

variable {K : Type} [Scalar K]

/-- The stage and the number of a row. -/
def ProgressRow.mark (row : ProgressRow K) : String × Int := (row.stage, row.iteration)

/-- The row of a completed step. -/
def ProgressRow.IsComplete (row : ProgressRow K) : Prop :=
  (row.stage = "N" → row.status = "success") ∧
    (row.stage = "T" → row.status = "success" ∨ row.status = "unsuccessful")

/-- The marks of the start and of so many rounds. -/
def marks (rounds : Nat) : List (String × Int) :=
  ("init", 0) :: (List.range rounds).flatMap fun k : Nat => [("N", (k : Int)), ("T", (k : Int))]

theorem marks_succ (rounds : Nat) :
    marks (rounds + 1) = marks rounds ++ [("N", (rounds : Int))] ++ [("T", (rounds : Int))] := by
  simp [marks, List.range_succ]

/-- The rows of a run are read in order, and so are the counts and times that they show. -/
structure Chronicle (dt : K) (b : Budget K) (rows : List (ProgressRow K)) (l₁ l : Ledger K) :
    Prop where
  counted : ∀ row ∈ rows, row.evaluations ≤ l.counters.evaluations
  clocked : ∀ row ∈ rows, b.Clocked dt row.elapsed l₁ l
  ordered : rows.Pairwise fun a b => a.evaluations ≤ b.evaluations ∧ ¬ b.elapsed < a.elapsed

section

variable {p : Problem K} {settings : Settings K} {policy : RegularizationPolicy K}
  {start? : Option (Vec K)} {l₀ l l' : Ledger K} {c : RunContext K} {m : Moment}
  {r r' : RunState K}

theorem Chronicle.append [ComparableScalar K] {dt : K} {b : Budget K}
    {rows : List (ProgressRow K)} {row : ProgressRow K} {l₁ : Ledger K} {v w : Work}
    (h : Chronicle dt b rows l₁ l) (hbefore : Spends dt v l₁ l) (hspent : Spends dt w l l')
    (hclock : l₁.clock.NeverGoesBack dt) (hcount : row.evaluations = l'.counters.evaluations)
    (htime : b.Clocked dt row.elapsed l l') : Chronicle dt b (rows ++ [row]) l₁ l' := by
  have hevaluations := hspent.evaluations
  refine ⟨?_, ?_, List.pairwise_append.2 ⟨h.ordered, List.pairwise_singleton _ _, ?_⟩⟩
  · intro row' hmem
    obtain hmem | hmem := List.mem_append.1 hmem
    · have hcounted := h.counted row' hmem
      omega
    · rw [List.mem_singleton.1 hmem]
      exact Int.le_of_eq hcount
  · intro row' hmem
    obtain hmem | hmem := List.mem_append.1 hmem
    · exact (h.clocked row' hmem).trans hspent
    · rw [List.mem_singleton.1 hmem]
      exact htime.after hbefore
  · intro earlier hmem later hlater
    rw [List.mem_singleton.1 hlater]
    have hcounted := h.counted earlier hmem
    refine ⟨by omega, fun hback => ?_⟩
    exact ComparableScalar.lt_irrefl _ ((h.clocked earlier hmem).lt_self htime hclock hback)

/-- The record of a run goes on by a row that was read between two ledgers and shows the iterate of
the run. -/
structure RunState.Records (c : RunContext K) (r r' : RunState K) (l l' : Ledger K) : Prop where
  spends : ∃ w, Spends c.problem.evaluationTime w l l'
  row : ∃ row stage iteration status,
    r'.stages.map Stage.row = r.stages.map Stage.row ++ [row] ∧
    r'.iterate.IsShownBy row stage iteration status l'.counters.evaluations ∧
    c.budget.Clocked c.problem.evaluationTime row.elapsed l l'

theorem RunState.Restores.records {o : NormalOutcome K} (h : Restores c r o r' l l') :
    r.Records c r' l l' := by
  obtain ⟨row, hrow⟩ := h.row
  exact ⟨h.spends, row, _, _, _, hrow⟩

theorem RunState.Descends.records {o : TangentOutcome K} (h : Descends c r o r' l l') :
    r.Records c r' l l' := by
  obtain ⟨row, hrow⟩ := h.row
  exact ⟨h.spends, row, _, _, _, hrow⟩

theorem Reaches.shown (h : Reaches p settings policy start? l₀ c m r l) :
    ∃ row ∈ (r.stages.map Stage.row).getLast?, ∃ stage iteration status,
      r.iterate.IsShownBy row stage iteration status l.counters.evaluations := by
  refine h.steadyRule (P := fun _ r l =>
    ∃ row ∈ (r.stages.map Stage.row).getLast?, ∃ stage iteration status,
      r.iterate.IsShownBy row stage iteration status l.counters.evaluations) ?_ ?_ ?_ ?_
  · intro c r l hstep
    obtain ⟨row, hrow, hshown⟩ := hstep.stages
    exact ⟨row, by simp [hrow], _, _, _, hshown⟩
  · intro c again r o r' l l' _ _ _ hstep
    obtain ⟨row, stage, iteration, status, hrow, hshown, -⟩ := hstep.records.row
    exact ⟨row, by simp [hrow], stage, iteration, status, hshown⟩
  · rintro c r r' l l' ⟨row, hrow, stage, iteration, status, hshown⟩ hstep
    obtain ⟨g?, solved, rfl⟩ := hstep.state
    rw [hstep.quiet.evaluations]
    exact ⟨row, hrow, stage, iteration, status, hshown.recalling g?⟩
  · intro c r o r' l l' _ _ _ hstep
    obtain ⟨row, stage, iteration, status, hrow, hshown, -⟩ := hstep.records.row
    exact ⟨row, by simp [hrow], stage, iteration, status, hshown⟩

theorem RunState.Records.chronicle [ComparableScalar K] {l₁ : Ledger K} {v : Work}
    (h : r.Records c r' l l')
    (hr : Chronicle c.problem.evaluationTime c.budget (r.stages.map Stage.row) l₁ l)
    (hbefore : Spends c.problem.evaluationTime v l₁ l)
    (hclock : l₁.clock.NeverGoesBack c.problem.evaluationTime) :
    Chronicle c.problem.evaluationTime c.budget (r'.stages.map Stage.row) l₁ l' := by
  obtain ⟨w, hspent⟩ := h.spends
  obtain ⟨row, stage, iteration, status, hrow, hshown, htime⟩ := h.row
  rw [hrow]
  exact hr.append hbefore hspent hclock hshown.evaluations htime

theorem Reaches.chronicle [ComparableScalar K] (h : Reaches p settings policy start? l₀ c m r l)
    (hclock : l₀.clock.NeverGoesBack p.evaluationTime) :
    Chronicle c.problem.evaluationTime c.budget (r.stages.map Stage.row) l₀.restart l := by
  refine h.steadyRule (P := fun c r l =>
    Chronicle c.problem.evaluationTime c.budget (r.stages.map Stage.row) l₀.restart l) ?_ ?_ ?_ ?_
  · intro c r l hstep
    obtain ⟨row, hrow, hshown⟩ := hstep.stages
    have hrows : r.stages.map Stage.row = [] ++ [row] := by rw [hrow]; rfl
    have hnone : Chronicle p.evaluationTime c.budget [] l₀.restart l₀.restart :=
      ⟨by simp, by simp, .nil⟩
    have htime := hstep.timed ⟨.initial, r.iterate, row⟩ (by simp [hrow])
    rw [hrows, hstep.context.1]
    exact hnone.append Quiet.refl.toRests.spends hstep.spent hclock hshown.evaluations htime
  · intro c again r o r' l l' h hr _ hstep
    obtain ⟨w, hw⟩ := h.spends
    rw [← h.problem_eq] at hw hclock
    exact hstep.records.chronicle hr hw hclock
  · intro c r r' l l' hr hstep
    obtain ⟨g?, solved, rfl⟩ := hstep.state
    have hrests : Spends c.problem.evaluationTime 0 l l' := hstep.quiet.toRests.spends
    refine ⟨?_, fun row hmem => (hr.clocked row hmem).trans hrests, hr.ordered⟩
    rw [hstep.quiet.evaluations]
    exact hr.counted
  · intro c r o r' l l' h hr _ hstep
    obtain ⟨w, hw⟩ := h.spends
    rw [← h.problem_eq] at hw hclock
    exact hstep.records.chronicle hr hw hclock

/-- The rows of a run alternate: between two rounds every step has its row, within a round the
tangent step lacks one. -/
theorem Reaches.alternates (h : Reaches p settings policy start? l₀ c m r l)
    (hclock : l₀.clock.NeverGoesBack p.evaluationTime) :
    ∃ rounds : Nat, r.iterate.iteration = rounds ∧
      ((m = .before false ∧ (r.stages.map Stage.row).map ProgressRow.mark = marks rounds) ∨
        ((m = .before false → r.isOver = true) ∧
          (r.stages.map Stage.row).map ProgressRow.mark =
            marks rounds ++ [("N", (rounds : Int))])) := by
  refine h.rule (P := fun _ m r _ => ∃ rounds : Nat, r.iterate.iteration = rounds ∧
    ((m = .before false ∧ (r.stages.map Stage.row).map ProgressRow.mark = marks rounds) ∨
      ((m = .before false → r.isOver = true) ∧
        (r.stages.map Stage.row).map ProgressRow.mark =
          marks rounds ++ [("N", (rounds : Int))]))) ?_ ?_ ?_ ?_ ?_ ?_
  · intro c r l hstep
    obtain ⟨row, hrow, hshown⟩ := hstep.stages
    refine ⟨0, hstep.iteration, .inl ⟨rfl, ?_⟩⟩
    simp [hrow, ProgressRow.mark, hshown.stage, hshown.iteration, marks]
  · rintro c again r o r' l l' h ⟨rounds, hiteration, hmarks⟩ hgoes hstep
    obtain ⟨row, hrows, hshown, -⟩ := hstep.row
    cases again with
    | true => exact absurd h (Reaches.not_again hclock)
    | false =>
      have hover : r.isOver = false := by simpa using hgoes
      refine ⟨rounds, hstep.iterate.iteration.trans hiteration, .inr ⟨nofun, ?_⟩⟩
      obtain ⟨-, hmarks⟩ | ⟨hends, -⟩ := hmarks
      · simp [hrows, ← hmarks, ProgressRow.mark, hshown.stage, hshown.iteration, hiteration]
      · rw [hends rfl] at hover
        cases hover
  · intro c r l h _ houtside
    rw [h.settles hclock] at houtside
    cases houtside
  · rintro c r r' l l' - ⟨rounds, hiteration, hmarks⟩ - hstep
    obtain ⟨g?, solved, rfl⟩ := hstep.state
    obtain ⟨hm, -⟩ | ⟨-, hmarks⟩ := hmarks
    · cases hm
    · exact ⟨rounds, hiteration, .inr ⟨nofun, hmarks⟩⟩
  · rintro c r l - ⟨rounds, hiteration, hmarks⟩ hrests
    obtain ⟨hm, -⟩ | ⟨-, hmarks⟩ := hmarks
    · cases hm
    · refine ⟨rounds, hiteration, .inr ⟨fun _ => ?_, hmarks⟩⟩
      rw [RunState.rests] at hrests
      rw [RunState.isOver, hrests, Bool.true_or]
  · rintro c r o r' l l' - ⟨rounds, hiteration, hmarks⟩ - hstep
    obtain ⟨row, hrows, hshown, -⟩ := hstep.row
    obtain ⟨hm, -⟩ | ⟨-, hmarks⟩ := hmarks
    · cases hm
    · refine ⟨rounds + 1, ?_, .inl ⟨rfl, ?_⟩⟩
      · rw [hstep.iterate.iteration, hiteration]
        rfl
      · rw [marks_succ, ← hmarks]
        simp [hrows, ProgressRow.mark, hshown.stage, hshown.iteration, hiteration]

theorem RunState.Restores.complete {o : NormalOutcome K} (h : Restores c r o r' l l')
    (hclock : l.clock.NeverGoesBack c.problem.evaluationTime) :
    ∃ row, r'.stages.map Stage.row = r.stages.map Stage.row ++ [row] ∧
      (r'.tired = none → r'.infeasible = false → row.IsComplete) := by
  obtain ⟨row, hrows, hshown, -⟩ := h.row
  refine ⟨row, hrows, fun htired hfeasible => ⟨fun _ => ?_, ?_⟩⟩
  · have hsuccess : o.status = .success := by
      cases hstatus : o.status with
      | success => rfl
      | infeasible => simp [h.infeasible, hstatus] at hfeasible
      | exhausted limit => exact absurd htired (h.exhausted hclock limit hstatus)
    rw [hshown.status, hsuccess]
    rfl
  · rw [hshown.stage]
    exact fun hstage => absurd hstage (by decide)

theorem RunState.Descends.complete {o : TangentOutcome K} (h : Descends c r o r' l l')
    (hclock : l.clock.NeverGoesBack c.problem.evaluationTime) :
    ∃ row, r'.stages.map Stage.row = r.stages.map Stage.row ++ [row] ∧
      (r'.tired = none → row.IsComplete) := by
  obtain ⟨row, hrows, hshown, -⟩ := h.row
  refine ⟨row, hrows, fun htired => ⟨?_, fun _ => ?_⟩⟩
  · rw [hshown.stage]
    exact fun hstage => absurd hstage (by decide)
  · have hbudget : ∀ limit, o.ending ≠ .exhausted limit := fun limit hlimit =>
      h.exhausted hclock limit hlimit htired
    rw [hshown.status]
    cases hending : o.ending.isSuccess with
    | true => exact .inl (TangentEnding.name_eq_success_iff.2 hending)
    | false => exact .inr ((TangentEnding.name_eq_unsuccessful_iff hbudget).2 hending)

/-- All rows but the last one are those of completed steps, and so is the last one unless it is to
end the run. -/
theorem Reaches.complete (h : Reaches p settings policy start? l₀ c m r l)
    (hclock : l₀.clock.NeverGoesBack p.evaluationTime) :
    (∀ row ∈ (r.stages.map Stage.row).dropLast, row.IsComplete) ∧
      (r.tired = none → r.infeasible = false →
        ∀ row ∈ r.stages.map Stage.row, row.IsComplete) := by
  refine h.steadyRule (P := fun _ r _ =>
    (∀ row ∈ (r.stages.map Stage.row).dropLast, row.IsComplete) ∧
      (r.tired = none → r.infeasible = false →
        ∀ row ∈ r.stages.map Stage.row, row.IsComplete)) ?_ ?_ ?_ ?_
  · intro c r l hstep
    obtain ⟨row, hrow, hshown⟩ := hstep.stages
    simp [hrow, ProgressRow.IsComplete, hshown.stage]
  · rintro c again r o r' l l' h ⟨-, hall⟩ hgoes hstep
    obtain ⟨row, hrows, hcomplete⟩ := hstep.complete (h.neverGoesBack hclock)
    obtain ⟨htired, hfeasible⟩ := h.goes hgoes
    have hearlier := hall htired hfeasible
    rw [hrows, List.dropLast_concat]
    refine ⟨hearlier, fun htired' hfeasible' => ?_⟩
    rw [List.forall_mem_append, List.forall_mem_singleton]
    exact ⟨hearlier, hcomplete htired' hfeasible'⟩
  · rintro c r r' l l' hr hstep
    obtain ⟨g?, solved, rfl⟩ := hstep.state
    exact hr
  · rintro c r o r' l l' h ⟨-, hall⟩ hgoes hstep
    obtain ⟨row, hrows, hcomplete⟩ := hstep.complete (h.neverGoesBack hclock)
    have hfeasible : r.infeasible = false := by
      simp only [RunState.rests, Bool.or_eq_false_iff] at hgoes
      exact hgoes.2
    have hearlier := hall (RunState.tired_of_rests hgoes) hfeasible
    rw [hrows, List.dropLast_concat]
    refine ⟨hearlier, fun htired' _ => ?_⟩
    rw [List.forall_mem_append, List.forall_mem_singleton]
    exact ⟨hearlier, hcomplete htired'⟩

omit [Scalar K] in
theorem length_ofStage_marks {rows : List (ProgressRow K)} {rounds : Nat}
    (tail : List (String × Int)) (hrows : rows.map ProgressRow.mark = marks rounds ++ tail)
    (htail : ∀ mark ∈ tail, mark.1 = "N") :
    (ProgressRow.ofStage rows "T").length = rounds := by
  have hcount : (ProgressRow.ofStage rows "T").length =
      (rows.map ProgressRow.mark).countP fun mark => mark.1 == "T" := by
    rw [ProgressRow.ofStage, List.countP_map, List.countP_eq_length_filter]
    rfl
  have hnone : (tail.countP fun mark => mark.1 == "T") = 0 := by
    rw [List.countP_eq_zero]
    intro mark hmem
    rw [htail mark hmem]
    decide
  rw [hcount, hrows, List.countP_append, hnone, Nat.add_zero]
  clear hcount hrows
  induction rounds with
  | zero => rfl
  | succ rounds ih => rw [marks_succ, List.countP_append, List.countP_append, ih]; rfl

/-- A result and its history are in order: after the start the rows alternate between normal and
tangent steps, each round under its number and only the last one perhaps without a tangent step. All
rows but the last one are those of completed steps, counts and times do not go back, and the last
row shows what the result tells. -/
structure RunResult.IsOrderly (res : RunResult K) : Prop where
  alternates : ∃ rounds : Nat, res.iterations = rounds ∧
    (ProgressRow.ofStage res.history "T").length = rounds ∧
    (res.history.map ProgressRow.mark = marks rounds ∨
      res.history.map ProgressRow.mark = marks rounds ++ [("N", (rounds : Int))])
  complete : ∀ row ∈ res.history.dropLast, row.IsComplete
  ordered : res.history.Pairwise fun a b =>
    a.evaluations ≤ b.evaluations ∧ ¬ b.elapsed < a.elapsed
  shown : ∃ row ∈ res.history.getLast?, row.objective = res.objective ∧
    row.primalResidual = res.primalResidual ∧ row.dualResidual = res.dualResidual ∧
    row.evaluations = res.evaluations

/-- The result of a run that ends, with a clock that never goes back, is in order. -/
theorem solveWithin_isOrderly [ComparableScalar K] {rounds : Nat} {res : RunResult K}
    (hclock : l₀.clock.NeverGoesBack p.evaluationTime)
    (h : Returns (solveWithin p settings policy start? rounds) l₀ (some res) l) :
    res.IsOrderly := by
  obtain ⟨c, r, l₁, hr, -, hres, hquiet⟩ := solveWithin_returns h
  obtain ⟨n, hiteration, hmarks⟩ := hr.alternates hclock
  obtain ⟨-, -, hordered⟩ := hr.chronicle hclock
  obtain ⟨row, hlast, stage, iteration, status, hshown⟩ := hr.shown
  obtain ⟨hcomplete, -⟩ := hr.complete hclock
  rw [← hres.history] at hmarks hordered hlast hcomplete
  refine ⟨⟨n, hres.iterations.trans hiteration, ?_, ?_⟩, hcomplete, hordered, row, hlast,
    ?_, ?_, ?_, ?_⟩
  · obtain ⟨-, hmarks⟩ | ⟨-, hmarks⟩ := hmarks
    · exact length_ofStage_marks [] (by rw [hmarks, List.append_nil]) (by simp)
    · exact length_ofStage_marks _ hmarks (by simp)
  · exact hmarks.imp And.right And.right
  · rw [hshown.objective, hres.objective]
  · rw [hshown.primalResidual, hres.primalResidual]
  · have hdual := hshown.dualResidual
    rw [hres.dualResidual] at hdual
    exact (Except.ok.inj hdual).symm
  · rw [hshown.evaluations, hres.evaluations, hquiet.evaluations]

/-- From its start the parabola is minimized in one round. -/
theorem parabola_isOrderly :
    (Ledger.empty : Ledger Float).clock.NeverGoesBack parabola.evaluationTime ∧ ∃ res l,
    Returns (solveWithin parabola Settings.standard (.fixed .standard) none 5) .empty (some res) l ∧
      res.iterations = 1 ∧ res.IsOrderly := by
  have hstill : (Ledger.empty : Ledger Float).clock.IsStill parabola.evaluationTime :=
    ⟨rfl, fun _ => rfl⟩
  obtain ⟨res, l, h, hrounds⟩ := exists_run parabola .standard (.fixed .standard) none .empty 5
    (fun res => decide (res.iterations = 1)) (by decide +kernel)
  exact ⟨hstill.neverGoesBack, res, l, h, of_decide_eq_true hrounds,
    solveWithin_isOrderly hstill.neverGoesBack h⟩

end

end InfeasibilityControl
