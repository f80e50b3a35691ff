import InfeasibilityControl.Proofs.Run.Expense
import InfeasibilityControl.Proofs.Run.History
import InfeasibilityControl.Proofs.Writing

set_option autoImplicit false
set_option relaxedAutoImplicit false

/-!
Two runs that are allowed different numbers of evaluations.

They do the same as long as the smaller allowance is not exceeded, for up to there every check of
the budget comes to the same verdict in both. The run with the smaller allowance ends with the stage
in which it exceeds it, and so it has at most this one row for itself.
-/

namespace InfeasibilityControl

open Counted (Returns Writes Agrees Foreruns writes_pure writes_except agrees_pure foreruns_pure
  outcome_bind_of_returns returns_iff_outcome)

variable {K : Type} {limit : Int}

/-- The budget with another limit of evaluations. -/
def Budget.allow (limit : Int) (b : Budget K) : Budget K := { b with maxEvaluations := limit }

/-- The settings with another limit of evaluations. -/
def Settings.allow (limit : Int) (settings : Settings K) : Settings K :=
  { settings with maxEvaluations := limit }

/-- The same run, but with another limit of evaluations. -/
def RunContext.allow (limit : Int) (c : RunContext K) : RunContext K :=
  { c with settings := c.settings.allow limit, budget := c.budget.allow limit }

variable [Scalar K] {p : Problem K} {b : Budget K} {l l' : Ledger K}

theorem Budget.exhausted_agrees (h : b.maxEvaluations ≤ limit) :
    Agrees b.maxEvaluations id b.exhausted (b.allow limit).exhausted l := by
  by_cases hspent : b.maxEvaluations < (l.counters.evaluations : Int)
  · exact .of_lt exhausted_writes hspent
  have hspent' : ¬ limit < (l.counters.evaluations : Int) := by omega
  have hcheck : Agrees b.maxEvaluations id b.check (b.allow limit).check l := by
    refine evaluations_writes.agrees_bind fun spent l₁ hread => ?_
    obtain ⟨rfl, rfl⟩ := evaluations_returns.1 hread
    rw [if_neg hspent, if_neg (show ¬ (b.allow limit).maxEvaluations < _ from hspent')]
    exact .refl (i := 0) (elapsed_writes.then fun _ => writes_pure)
  refine hcheck.bind fun k l₁ hk => ?_
  obtain ⟨rfl, -⟩ := check_returns hk
  have hverdict : (b.allow limit).verdict (b.look l) = b.verdict (b.look l) := by
    have hseen : (b.look l).evaluations = l.counters.evaluations := rfl
    simp only [verdict, hseen, if_neg hspent]
    rw [if_neg (show ¬ (b.allow limit).maxEvaluations < _ from hspent')]
    rfl
  simp only [id, hverdict]
  exact .refl (i := 0) (Writes.then
    (Counted.writes_modify fun _ => .of_rows_eq (Nat.le_refl _) rfl) fun _ => writes_pure)

theorem Budget.exhausted_isSome {t : Option Limit} (h : Returns b.exhausted l t l')
    (hspent : b.maxEvaluations < (l'.counters.evaluations : Int)) : t.isSome = true := by
  obtain ⟨rfl, -, hrests⟩ := exhausted_returns h
  rw [hrests.evaluations] at hspent
  rw [verdict_look_evaluations_iff.2 hspent]
  rfl

namespace NormalState

variable {options : NormalOptions K} {radius : K} {s : NormalState K}
  {solver : LeastSquares.Solver K}

theorem examine_agrees (h : b.maxEvaluations ≤ limit) :
    Agrees b.maxEvaluations id (s.examine options b radius)
      (s.examine options (b.allow limit) radius) l := by
  refine .ite (agrees_pure id _) ((Budget.exhausted_agrees h).bind fun t l₁ _ => ?_)
  cases t with
  | some limit => exact agrees_pure id _
  | none =>
    refine SparseMatrix.transposedProduct_writes.agrees_bind fun g _ _ => .ite (agrees_pure id _) ?_
    refine .refl (i := 0) (SparseMatrix.product_writes.then fun Jg => ?_)
    have hregion : Writes 0 (if s.trustRadius < options.minTrustRadius then
        pure (.inl .infeasible) else pure (.inr (g, Jg)) :
          Counted K (NormalStatus ⊕ Vec K × Vec K)) := .ite writes_pure writes_pure
    exact .ite (writes_except.then fun _ => .ite writes_pure hregion) hregion

theorem conclude_agrees (h : b.maxEvaluations ≤ limit) :
    Agrees b.maxEvaluations id (s.conclude b radius) (s.conclude (b.allow limit) radius) l := by
  refine .ite (agrees_pure id _) ((Budget.exhausted_agrees h).bind fun t _ _ => ?_)
  cases t <;> exact agrees_pure id _

theorem iterate_agrees {passes made : Nat} (h : b.maxEvaluations ≤ limit) :
    Agrees b.maxEvaluations id (iterate solver p options b radius passes made s)
      (iterate solver p options (b.allow limit) radius passes made s) l := by
  induction passes generalizing made s l with
  | zero => exact (conclude_agrees h).bind fun _ _ _ => agrees_pure id _
  | succ passes ih =>
    refine (examine_agrees h).bind fun x _ _ => ?_
    cases x with
    | inl status => exact agrees_pure id _
    | inr directions => exact attempt_writes.agrees_bind fun _ _ _ => ih

end NormalState

theorem Iterate.normalStep_agrees {s : Iterate K} {settings : Settings K}
    {primalTolerance dualTolerance : K} (h : b.maxEvaluations ≤ limit) :
    Agrees b.maxEvaluations id (s.normalStep p settings primalTolerance dualTolerance b)
      (s.normalStep p (settings.allow limit) primalTolerance dualTolerance (b.allow limit)) l :=
  readDualNorm_writes.agrees_bind fun _ _ _ =>
    Agrees.bind (g := id)
      ((writes_pure (i := 0)).agrees_bind fun _ _ _ =>
        (NormalState.iterate_agrees h).bind fun _ _ _ => agrees_pure id _)
      fun _ _ _ => agrees_pure id _

namespace LineSearch

variable {line : LineSearch K}

/-- Trials cost two evaluations each. Where there are more of them left than the smaller limit pays
for, their number does not show. -/
theorem iterate_agrees {remaining remaining' : Nat} {stepSize : K} {trials : List (LineTrial K)}
    (h : b.maxEvaluations ≤ limit) (hle : remaining ≤ remaining')
    (hpays : b.maxEvaluations < l.counters.evaluations + 2 * remaining) :
    Agrees b.maxEvaluations id (iterate p b line remaining stepSize trials)
      (iterate p (b.allow limit) line remaining' stepSize trials) l := by
  induction remaining generalizing remaining' stepSize trials l with
  | zero => exact .of_lt (i := 0) writes_pure (by omega)
  | succ remaining ih =>
    obtain ⟨remaining', rfl⟩ := Nat.exists_eq_succ_of_ne_zero (by omega : remaining' ≠ 0)
    refine (Budget.exhausted_agrees h).bind fun t l₁ hcheck => ?_
    cases t with
    | some limit => exact agrees_pure id _
    | none =>
      refine evaluate_writes.agrees_bind fun trial l₂ htrial => ?_
      refine .ite (agrees_pure id _) (.ite (agrees_pure id _) (ih (by omega) ?_))
      have hchecked := (Budget.exhausted_returns hcheck).2.2.evaluations
      have htried := (evaluate_returns htrial).2.2.2.evaluations
      simp only [Work.evaluations] at htried
      omega

end LineSearch

theorem tangentStep_agrees {kkt : KktSystem K} {options : TangentOptions K}
    {origin multipliers gradient : Vec K} {J : SparseMatrix K} {merit radius : K}
    (h : b.maxEvaluations ≤ limit) :
    Agrees b.maxEvaluations id
      (tangentStep p kkt options b origin multipliers gradient J merit radius)
      (tangentStep p kkt options (b.allow limit) origin multipliers gradient J merit radius) l := by
  refine KktSystem.searchDirection_writes.agrees_bind fun _ _ _ =>
    (writes_except (i := 0)).agrees_bind fun _ _ _ =>
      .ite (agrees_pure id _) (.ite (agrees_pure id _) ?_)
  refine Budget.evaluations_writes.agrees_bind fun spent l₁ hread => ?_
  obtain ⟨rfl, rfl⟩ := Budget.evaluations_returns.1 hread
  refine (LineSearch.iterate_agrees h ?_ ?_).bind fun x _ _ => .refl (i := 0) ?_
  · simp only [LineSearch.trialBound, Budget.allow]
    omega
  · simp only [LineSearch.trialBound]
    omega
  · split <;> exact writes_pure

namespace RunState

variable {c : RunContext K} {r r' : RunState K}

theorem restore_agrees (h : c.budget.maxEvaluations ≤ limit) :
    Agrees c.budget.maxEvaluations id (r.restore c) (r.restore (c.allow limit)) l :=
  (Iterate.normalStep_agrees h).bind fun _ _ _ => Iterate.restored_writes.agrees_bind fun _ _ _ =>
    close_writes.agrees_bind fun _ _ _ => (Budget.exhausted_agrees h).bind fun _ _ _ =>
    agrees_pure id _

theorem closeDescent_agrees (h : c.budget.maxEvaluations ≤ limit) {o : TangentOutcome K}
    {iteration : Int} :
    Agrees c.budget.maxEvaluations id (r.closeDescent c o iteration)
      (r.closeDescent (c.allow limit) o iteration) l :=
  close_writes.agrees_bind fun _ _ _ => isSolved_writes.agrees_bind fun _ _ _ =>
    (Budget.exhausted_agrees h).bind fun _ _ _ => agrees_pure id _

theorem descend_agrees (h : c.budget.maxEvaluations ≤ limit) :
    Agrees c.budget.maxEvaluations id (r.descend c) (r.descend (c.allow limit)) l := by
  refine (writes_except (i := 0)).agrees_bind fun _ _ _ =>
    KktSystem.refresh_writes.agrees_bind fun _ _ _ =>
    (writes_except (i := 0)).agrees_bind fun _ _ _ =>
    Iterate.readLagrangianGradient_writes.agrees_bind fun _ _ _ =>
    (writes_except (i := 0)).agrees_bind fun _ _ _ => (tangentStep_agrees h).bind fun _ _ _ => ?_
  exact .ite ((writes_pure (i := 0)).agrees_bind fun _ _ _ => closeDescent_agrees h)
    (Problem.evaluate_writes.agrees_bind fun _ _ _ => closeDescent_agrees h)

theorem restore_tired (h : Returns (r.restore c) l r' l')
    (hspent : c.budget.maxEvaluations < (l'.counters.evaluations : Int)) :
    r'.tired.isSome = true := by
  simp only [restore, Counted.returns_bind, Counted.returns_pure] at h
  obtain ⟨_, _, -, _, _, -, _, _, -, _, _, ht, rfl, rfl⟩ := h
  exact Budget.exhausted_isSome ht hspent

theorem descend_tired (h : Returns (r.descend c) l r' l')
    (hspent : c.budget.maxEvaluations < (l'.counters.evaluations : Int)) :
    r'.tired.isSome = true := by
  simp only [descend, Counted.returns_bind, Counted.returns_pure, Counted.returns_ite] at h
  obtain ⟨_, _, -, _, _, -, _, _, -, _, _, -, _, _, -, _, _, -,
    ⟨-, _, _, -, _, _, -, _, _, -, _, _, ht, rfl, rfl⟩ |
    ⟨-, _, _, -, _, _, -, _, _, -, _, _, ht, rfl, rfl⟩⟩ := h
  · exact Budget.exhausted_isSome ht hspent
  · exact Budget.exhausted_isSome ht hspent

theorem repeatRounds_tired (rounds : Nat) (h : r.tired.isSome = true) :
    repeatRounds c rounds r false = pure (some r) := by
  have hover : (r.isOver && !false) = true := by simp [isOver, h]
  cases rounds <;> simp only [repeatRounds, hover, if_true]

theorem resume_tired (rounds : Nat) (h : r.tired.isSome = true) :
    Writes 0 (r.resume c >>= fun x => repeatRounds c rounds x.1 x.2) := by
  have hsettles : r.settles = true := by simp [settles, h]
  rw [resume, if_pos hsettles, bind_assoc]
  refine isSolved_writes.then fun x => ?_
  have hrests : ({ r with iterate := x.2, solved := x.1 } : RunState K).rests = true := by
    simp [rests, h]
  simp only [proceed, hrests, if_true, pure_bind]
  rw [repeatRounds_tired rounds (by exact h)]
  exact writes_pure

theorem proceed_foreruns (h : c.budget.maxEvaluations ≤ limit) {rounds : Nat}
    (hrounds : ∀ (r : RunState K) (again : Bool) (l : Ledger K),
      Foreruns c.budget.maxEvaluations (repeatRounds c rounds r again)
        (repeatRounds (c.allow limit) rounds r again) l) :
    Foreruns c.budget.maxEvaluations (r.proceed c >>= fun x => repeatRounds c rounds x.1 x.2)
      (r.proceed (c.allow limit) >>= fun x => repeatRounds (c.allow limit) rounds x.1 x.2) l := by
  unfold proceed
  split
  · exact (writes_pure (i := 0)).foreruns_bind fun _ _ _ => hrounds _ _ _
  · simp only [bind_assoc, pure_bind]
    refine .bind (descend_agrees h) descend_writes
      (descend_writes.bind fun _ => repeatRounds_writes) (fun r' l₁ hdescend hspent => ?_)
      fun r' l₁ _ => hrounds r' false l₁
    rw [repeatRounds_tired rounds (descend_tired hdescend hspent)]
    exact writes_pure

theorem resume_foreruns (h : c.budget.maxEvaluations ≤ limit) {rounds : Nat}
    (hrounds : ∀ (r : RunState K) (again : Bool) (l : Ledger K),
      Foreruns c.budget.maxEvaluations (repeatRounds c rounds r again)
        (repeatRounds (c.allow limit) rounds r again) l) :
    Foreruns c.budget.maxEvaluations (r.resume c >>= fun x => repeatRounds c rounds x.1 x.2)
      (r.resume (c.allow limit) >>= fun x => repeatRounds (c.allow limit) rounds x.1 x.2) l := by
  unfold resume
  split
  · simp only [bind_assoc]
    exact isSolved_writes.foreruns_bind fun _ _ _ => proceed_foreruns h hrounds
  · exact (writes_pure (i := 0)).foreruns_bind fun _ _ _ => hrounds _ _ _

/-- Round by round the run with the smaller limit runs ahead of the one with the larger limit. -/
theorem repeatRounds_foreruns (h : c.budget.maxEvaluations ≤ limit) (rounds : Nat)
    (r : RunState K) (again : Bool) (l : Ledger K) :
    Foreruns c.budget.maxEvaluations (repeatRounds c rounds r again)
      (repeatRounds (c.allow limit) rounds r again) l := by
  induction rounds generalizing r again l with
  | zero => exact foreruns_pure _
  | succ rounds ih =>
    simp only [repeatRounds]
    split
    · exact foreruns_pure _
    · have hwrites : Writes (2 + 2 * rounds) (r.advance (c.allow limit) >>= fun x =>
          repeatRounds (c.allow limit) rounds x.1 x.2) :=
        advance_writes.bind fun _ => repeatRounds_writes
      simp only [advance_eq, bind_assoc] at hwrites ⊢
      exact .bind (restore_agrees h) restore_writes hwrites
        (fun r' l₁ hrestore hspent => resume_tired rounds (restore_tired hrestore hspent))
        fun r' l₁ _ => resume_foreruns h ih

/-- More rounds do not change a run that ended, and one that did not end has reported nothing that
more rounds would not report. -/
theorem repeatRounds_more {rounds rounds' : Nat} (hle : rounds ≤ rounds') (r : RunState K)
    (again : Bool) (l : Ledger K) :
    (repeatRounds c rounds' r again).outcome l = (repeatRounds c rounds r again).outcome l ∨
      ∃ l', Returns (repeatRounds c rounds r again) l none l' ∧
        l'.rows <+: ((repeatRounds c rounds' r again).after l).rows := by
  induction rounds generalizing rounds' r again l with
  | zero =>
    by_cases hover : (r.isOver && !again) = true
    · left
      cases rounds' <;> simp only [repeatRounds, hover, if_true]
    · exact .inr ⟨l, by simp [repeatRounds, hover], (repeatRounds_writes l).isPrefix⟩
  | succ rounds ih =>
    obtain ⟨rounds', rfl⟩ := Nat.exists_eq_succ_of_ne_zero (by omega : rounds' ≠ 0)
    simp only [repeatRounds]
    split
    · exact .inl rfl
    · obtain ⟨fault, hend⟩ | ⟨⟨r₁, again₁⟩, hend⟩ := Counted.outcome_cases (r.advance c) l
      · left
        rw [Counted.outcome_bind_of_error hend, Counted.outcome_bind_of_error hend]
      · rw [outcome_bind_of_returns hend, outcome_bind_of_returns hend,
          Counted.after_bind_of_returns hend]
        obtain hsame | ⟨l₁, hnone, hrows⟩ :=
          ih (Nat.le_of_succ_le_succ hle) r₁ again₁ ((r.advance c).after l)
        · exact .inl hsame
        · exact .inr ⟨l₁, hend.bind hnone, hrows⟩

/-- What was reported is put on record. -/
def Tells (r r' : RunState K) (l l' : Ledger K) : Prop :=
  ∃ row, l'.rows = l.rows ++ [row] ∧
    r'.stages.map Stage.row = r.stages.map Stage.row ++ [row]

omit [Scalar K] in
theorem Tells.rows_eq {before : List (ProgressRow K)} (h : Tells r r' l l')
    (hl : l.rows = before ++ r.stages.map Stage.row) :
    l'.rows = before ++ r'.stages.map Stage.row := by
  obtain ⟨row, hrow, hstages⟩ := h
  rw [hrow, hstages, hl, List.append_assoc]

omit [Scalar K] in
theorem Tells.between {l₁ l₂ : Ledger K} (h : Tells r r' l₁ l₂) (hl : l₁.rows = l.rows)
    (hl' : l'.rows = l₂.rows) : Tells r r' l l' := by
  obtain ⟨row, hrow, hstages⟩ := h
  exact ⟨row, by rw [hl', hrow, hl], hstages⟩

theorem close_tells {work : StageWork K} {stage status : String} {iteration : Int}
    (h : Returns (r.close c work stage iteration status) l r' l') : Tells r r' l l' := by
  simp only [close, Iterate.report, Counted.report, Counted.returns_bind, Counted.returns_pure,
    Counted.returns_modify] at h
  obtain ⟨_, _, ⟨_, l₁, hspent, _, l₂, hread, _, l₃, htime, _, _, rfl, rfl, rfl⟩, rfl, rfl⟩ := h
  refine ⟨_, ?_, List.map_append⟩
  rw [(Budget.elapsed_writes.extends htime).rows_eq,
    (Iterate.readDualNorm_writes.extends hread).rows_eq,
    (Budget.evaluations_writes.extends hspent).rows_eq]

theorem restore_tells (h : Returns (r.restore c) l r' l') : Tells r r' l l' := by
  simp only [restore, Counted.returns_bind, Counted.returns_pure] at h
  obtain ⟨_, l₁, hnormal, _, l₂, hrestored, r₁, l₃, hclose, _, l₄, htired, rfl, rfl⟩ := h
  refine (close_tells hclose).between ?_ (Budget.exhausted_writes.extends htired).rows_eq
  rw [(Iterate.restored_writes.extends hrestored).rows_eq,
    (Iterate.normalStep_writes.extends hnormal).rows_eq]

theorem descend_tells (h : Returns (r.descend c) l r' l') : Tells r r' l l' := by
  simp only [descend, Counted.returns_bind, Counted.returns_pure, Counted.returns_ite,
    Counted.returns_except] at h
  obtain ⟨_, l, ⟨-, rfl⟩, _, l₁, hrefresh, _, _, ⟨-, rfl⟩, _, l₂, hread, _, _, ⟨-, rfl⟩, o, l₃,
    htangent, h⟩ := h
  have hbefore : l₃.rows = l.rows := by
    rw [(tangentStep_writes.extends htangent).rows_eq,
      (Iterate.readLagrangianGradient_writes.extends hread).rows_eq,
      (KktSystem.refresh_writes.extends hrefresh).rows_eq]
  obtain ⟨-, s, _, ⟨-, rfl⟩, r₁, l₅, hclose, _, l₆, hsolved, _, _, htired, rfl, rfl⟩ |
    ⟨-, s, l₄, hs, r₁, l₅, hclose, _, l₆, hsolved, _, _, htired, rfl, rfl⟩ := h
  · exact (close_tells hclose).between hbefore
      ((Budget.exhausted_writes.extends htired).rows_eq.trans
        (isSolved_writes.extends hsolved).rows_eq)
  · exact (close_tells hclose).between
      ((Problem.evaluate_writes.extends hs).rows_eq.trans hbefore)
      ((Budget.exhausted_writes.extends htired).rows_eq.trans
        (isSolved_writes.extends hsolved).rows_eq)

end RunState

/-- The result of a run, if it has come to its end. -/
def finishRun? (c : RunContext K) : Option (RunState K) → Counted K (Option (RunResult K))
  | some last => return some (← finishRun c last)
  | none => return none

/-- What is left of a run after its start. -/
def runOn (rounds : Nat) (c : RunContext K) (r : RunState K) : Counted K (Option (RunResult K)) :=
  RunState.repeatRounds c rounds r false >>= finishRun? c

theorem finishRun?_writes {c : RunContext K} {last? : Option (RunState K)} :
    Writes 0 (finishRun? c last?) := by
  cases last? with
  | some last => exact finishRun_writes.then fun _ => writes_pure
  | none => exact writes_pure

theorem runOn_tired {c : RunContext K} {r : RunState K} (rounds : Nat)
    (h : r.tired.isSome = true) : Writes 0 (runOn rounds c r) := by
  rw [runOn, RunState.repeatRounds_tired rounds h, pure_bind]
  exact finishRun?_writes

theorem runOn_foreruns {c : RunContext K} (h : c.budget.maxEvaluations ≤ limit) (rounds : Nat)
    (r : RunState K) (l : Ledger K) :
    Foreruns c.budget.maxEvaluations (runOn rounds c r) (runOn rounds (c.allow limit) r) l :=
  (RunState.repeatRounds_foreruns h rounds r false l).then
    (fun last? _ => by cases last? <;> exact .refl finishRun?_writes)
    (fun _ => finishRun?_writes) fun _ => finishRun?_writes

theorem runOn_more {c : RunContext K} {rounds rounds' : Nat} (hle : rounds ≤ rounds')
    (r : RunState K) (l : Ledger K) :
    ((runOn rounds c r).after l).rows <+: ((runOn rounds' c r).after l).rows ∧
      ∀ res l', Returns (runOn rounds c r) l (some res) l' →
        Returns (runOn rounds' c r) l (some res) l' := by
  obtain hsame | ⟨l₁, hnone, hrows⟩ := RunState.repeatRounds_more (c := c) hle r false l
  · have hruns : (runOn rounds' c r).outcome l = (runOn rounds c r).outcome l := by
      simp only [runOn, Counted.outcome_bind, hsame]
    refine ⟨?_, fun res l' h => ?_⟩
    · simp only [Counted.after, hruns]
      exact List.prefix_rfl
    · rw [returns_iff_outcome, hruns]
      exact h
  · have hends : Returns (runOn rounds c r) l none l₁ := hnone.bind .pure
    refine ⟨?_, fun res l' h => ?_⟩
    · rw [hends.after_eq]
      refine hrows.trans ?_
      obtain ⟨fault, hend⟩ | ⟨last?, hend⟩ :=
        Counted.outcome_cases (RunState.repeatRounds c rounds' r false) l
      · rw [runOn, Counted.after_bind_of_error hend]
      · rw [runOn, Counted.after_bind_of_returns hend]
        exact (finishRun?_writes _).isPrefix
    · cases (hends.unique h).1

section

variable {settings : Settings K} {policy : RegularizationPolicy K} {start? : Option (Vec K)}
  {rounds rounds' : Nat} {l₀ : Ledger K}

theorem solveWithin_eq : solveWithin p settings policy start? rounds =
    (liftM p.check : Counted K Unit) >>= fun _ => (modify Ledger.restart : Counted K Unit) >>=
      fun _ => openRun p settings policy start? >>= fun x => runOn rounds x.1 x.2 := by
  simp only [solveWithin, startRun_eq, bind_assoc]
  rfl

theorem solveWithin_outcome (h : p.check = .ok ()) :
    (solveWithin p settings policy start? rounds).outcome l₀ =
      (openRun p settings policy start? >>= fun x => runOn rounds x.1 x.2).outcome l₀.restart := by
  rw [solveWithin_eq, outcome_bind_of_returns (Counted.returns_except.2 ⟨h, rfl⟩),
    outcome_bind_of_returns (Counted.returns_modify (u := ()).2 rfl)]

theorem openRun_agrees (h : settings.maxEvaluations ≤ limit) :
    Agrees settings.maxEvaluations (fun x => (x.1.allow limit, x.2))
      (openRun p settings policy start?) (openRun p (settings.allow limit) policy start?) l := by
  have hstart : Agrees settings.maxEvaluations (Budget.allow limit)
      (Budget.start settings.maxEvaluations settings.maxTime)
      (Budget.start limit settings.maxTime) l :=
    Counted.writes_time.agrees_bind fun _ _ _ => agrees_pure (Budget.allow limit) _
  refine .ite (hstart.bind fun b l₁ hb => ?_) (Counted.agrees_throw _)
  obtain ⟨rfl, rfl⟩ := Budget.start_returns.1 hb
  refine (writes_except (i := 0)).agrees_bind fun _ _ _ =>
    Problem.evaluate_writes.agrees_bind fun _ _ _ =>
    Iterate.readDualNorm_writes.agrees_bind fun _ _ _ =>
    RunState.isSolved_writes.agrees_bind fun _ _ _ =>
    (Budget.exhausted_agrees (b := ⟨settings.maxEvaluations, settings.maxTime, l.time⟩) h).bind
      fun _ _ _ => RunState.close_writes.agrees_bind fun _ _ _ => agrees_pure _ _

theorem openRun_returns {c : RunContext K} {r : RunState K} (hcheck : p.check = .ok ())
    (h : Returns (openRun p settings policy start?) l₀.restart (c, r) l) :
    RunState.Starts p settings policy start? c r l₀ l := by
  refine startRun_returns ?_
  rw [startRun_eq]
  have hchecked : Returns (liftM p.check : Counted K Unit) l₀ () l₀ :=
    Counted.returns_except.2 ⟨hcheck, rfl⟩
  have hcleared : Returns (modify Ledger.restart : Counted K Unit) l₀ () l₀.restart :=
    Counted.returns_modify.2 rfl
  exact hchecked.bind (hcleared.bind h)

theorem openRun_foreruns (hcheck : p.check = .ok ()) (h : settings.maxEvaluations ≤ limit) :
    Foreruns settings.maxEvaluations
      (openRun p settings policy start? >>= fun x => runOn rounds x.1 x.2)
      (openRun p (settings.allow limit) policy start? >>= fun x => runOn rounds x.1 x.2)
      l₀.restart := by
  refine .bind (openRun_agrees h) openRun_writes
    (openRun_writes.bind fun _ => RunState.repeatRounds_writes.bind fun _ => finishRun?_writes)
    (fun x l₁ hopen hspent => ?_) fun x l₁ hopen => ?_
  · obtain ⟨c, r⟩ := x
    have hstart := openRun_returns hcheck hopen
    obtain ⟨w, l₂, -, -, htired, hrests⟩ := hstart.told
    refine runOn_tired rounds ?_
    rw [hrests.evaluations, ← hstart.budget.1] at hspent
    rw [← htired, Budget.verdict_look_evaluations_iff.2 hspent]
    rfl
  · obtain ⟨c, r⟩ := x
    have hbudget := (openRun_returns hcheck hopen).budget.1
    rw [← hbudget] at h ⊢
    exact runOn_foreruns h rounds r l₁

theorem startRun_rows {c : RunContext K} {r : RunState K}
    (h : Returns (startRun p settings policy start?) l₀ (c, r) l) :
    l.rows = l₀.rows ++ r.stages.map Stage.row := by
  simp only [startRun, Counted.returns_bind, Counted.returns_pure, Counted.returns_except,
    Counted.returns_ite, Counted.returns_modify, Counted.not_returns_throw, and_false, or_false,
    Prod.mk.injEq] at h
  obtain ⟨_, _, ⟨-, rfl⟩, _, _, rfl, -, b, l₁, hb, kkt, _, ⟨-, rfl⟩, s, l₂, hs, _, l₃, hread, _,
    l₄, hsolved, tired, l₅, htired, r, _, hclose, ⟨rfl, rfl⟩, rfl⟩ := h
  refine (RunState.close_tells hclose).rows_eq ?_
  rw [(Budget.exhausted_writes.extends htired).rows_eq,
    (RunState.isSolved_writes.extends hsolved).rows_eq,
    (Iterate.readDualNorm_writes.extends hread).rows_eq,
    (Problem.evaluate_writes.extends hs).rows_eq, (Budget.start_writes.extends hb).rows_eq]
  exact (List.append_nil _).symm

theorem Reaches.rows_eq {c : RunContext K} {m : Moment} {r : RunState K}
    (h : Reaches p settings policy start? l₀ c m r l) :
    l.rows = l₀.rows ++ r.stages.map Stage.row := by
  induction h with
  | begun step => exact startRun_rows step
  | restored h goes step ih => rw [(RunState.restore_tells step).rows_eq ih]
  | repeated h outside ih => exact ih
  | judged h inside step ih =>
    rw [(RunState.isSolved_writes.extends step).rows_eq]
    exact ih
  | ended h stays ih => exact ih
  | descended h goes step ih => rw [(RunState.descend_tells step).rows_eq ih]

theorem solveWithin_rows {res : RunResult K}
    (h : Returns (solveWithin p settings policy start? rounds) l₀ (some res) l) :
    l.rows = l₀.rows ++ res.history := by
  obtain ⟨c, r, l₁, hreaches, -, hfinish⟩ := solveWithin_finishes h
  rw [(finishRun_writes.extends hfinish).rows_eq, hreaches.rows_eq,
    (finishRun_returns hfinish hreaches.coherent).1.history]

/-- A larger limit of evaluations never changes the past. A run that stays within its limit is the
run with any larger limit; one that exceeds it has only its last row for itself. -/
theorem solveWithin_allow {res : RunResult K} (hlimit : settings.maxEvaluations ≤ limit)
    (hrounds : rounds ≤ rounds')
    (h : Returns (solveWithin p settings policy start? rounds) l₀ (some res) l) :
    ((res.evaluations : Int) ≤ settings.maxEvaluations →
      Returns (solveWithin p (settings.allow limit) policy start? rounds') l₀ (some res) l) ∧
    (settings.maxEvaluations < (res.evaluations : Int) →
      l₀.rows ++ res.history.dropLast <+:
        ((solveWithin p (settings.allow limit) policy start? rounds').after l₀).rows) := by
  have hcheck : p.check = .ok () := by
    rw [solveWithin_eq] at h
    obtain ⟨_, _, hcheck, -⟩ := Counted.returns_bind.1 h
    exact (Counted.returns_except.1 hcheck).1
  have hrows := solveWithin_rows h
  obtain ⟨_, _, _, hreaches, -, hreports, -⟩ := solveWithin_returns h
  have hspent : res.evaluations = l.counters.evaluations := hreports.evaluations
  have hsome : res.history ≠ [] := by
    obtain ⟨row, hrow, -⟩ := hreaches.shown
    rw [hreports.history]
    intro hnil
    rw [hnil] at hrow
    cases hrow
  have hforeruns : Foreruns settings.maxEvaluations
      (openRun p settings policy start? >>= fun x => runOn rounds x.1 x.2)
      (openRun p (settings.allow limit) policy start? >>= fun x => runOn rounds x.1 x.2)
      l₀.restart := openRun_foreruns hcheck hlimit
  rw [returns_iff_outcome, solveWithin_outcome hcheck, ← returns_iff_outcome] at h
  refine ⟨fun hwithin => ?_, fun hexceeds => ?_⟩
  · rw [hspent] at hwithin
    obtain ⟨⟨c, r⟩, l₁, hopen, hrest⟩ := Counted.returns_bind.1 (hforeruns.agrees.returns h hwithin)
    rw [returns_iff_outcome, solveWithin_outcome hcheck, ← returns_iff_outcome]
    exact Counted.returns_bind.2 ⟨_, _, hopen, (runOn_more hrounds r l₁).2 _ _ hrest⟩
  · have hprefix := hforeruns.rows
    rw [h.after_eq, hrows, List.dropLast_append_of_ne_nil hsome] at hprefix
    refine hprefix.trans ?_
    simp only [Counted.after, solveWithin_outcome hcheck]
    obtain ⟨fault, hend⟩ | ⟨⟨c, r⟩, hend⟩ :=
      Counted.outcome_cases (openRun p (settings.allow limit) policy start?) l₀.restart
    · rw [Counted.outcome_bind_of_error hend, Counted.outcome_bind_of_error hend]
    · rw [outcome_bind_of_returns hend, outcome_bind_of_returns hend]
      exact (runOn_more hrounds r _).1

end

/-- The flat line is found within the budget, so that a larger one makes no difference. On the
parabola two evaluations are exceeded, and all but the last row is seen again with a thousand. -/
theorem flatLine_parabola_allow :
    (∃ res l, Returns (solveWithin flatLine .standard (.fixed .standard) none 5) .empty
        (some res) l ∧
      Returns (solveWithin flatLine (Settings.standard.allow 2000) (.fixed .standard) none 9) .empty
        (some res) l) ∧
    ∃ res l, Returns (solveWithin parabola .frugal (.fixed .standard) none 5) .empty
        (some res) l ∧
      res.history.length = 3 ∧ Settings.frugal.maxEvaluations < res.evaluations ∧
      res.history.dropLast <+: ((solveWithin parabola (Settings.frugal.allow 1000)
        (.fixed .standard) none 5).after .empty).rows := by
  constructor
  · obtain ⟨res, l, h, hcount⟩ := exists_run flatLine .standard (.fixed .standard) none .empty 5
      (fun res => decide (res.evaluations ≤ 1000)) (by decide +kernel)
    have hcount : res.evaluations ≤ 1000 := of_decide_eq_true hcount
    exact ⟨res, l, h, (solveWithin_allow (by decide) (by decide) h).1
      (show (res.evaluations : Int) ≤ 1000 by omega)⟩
  · obtain ⟨res, l, h, hcount⟩ := exists_run parabola .frugal (.fixed .standard) none .empty 5
      (fun res => decide (res.history.length = 3 ∧ res.evaluations = 6)) (by decide +kernel)
    obtain ⟨hlength, hcount⟩ : res.history.length = 3 ∧ res.evaluations = 6 :=
      of_decide_eq_true hcount
    have hexceeds : Settings.frugal.maxEvaluations < (res.evaluations : Int) := by
      rw [hcount]
      decide
    exact ⟨res, l, h, hlength, hexceeds,
      (solveWithin_allow (show Settings.frugal.maxEvaluations ≤ 1000 by decide) (Nat.le_refl 5)
        h).2 hexceeds⟩

end InfeasibilityControl
