import InfeasibilityControl.Proofs.Run.Course
import InfeasibilityControl.Proofs.Solves

set_option autoImplicit false
set_option relaxedAutoImplicit false

/-!
The least-squares solves of a run, stage by stage.

The solves on record can be read off the stages: the start makes a multiplier estimate, a normal
stage one solve for each trial and then an estimate, a tangent stage a projection if it goes along
the projected gradient. The limit of the settings reaches the estimates and nothing else, so that it
holds of all solves exactly where the standard limit happens to be the same.
-/

namespace InfeasibilityControl

open Counted (Returns Solves solves_pure)

variable {K : Type}

/-- What the solves of a stage are allowed, on a problem with so many constraints and variables. -/
def StageWork.allowances (settings : Settings K) (rows columns : Nat) :
    StageWork K → List (Nat × Int)
  | .initial => [settings.estimateAllowance rows]
  | .normal o => (o.trials.map fun _ => standardAllowance columns) ++
      [settings.estimateAllowance rows]
  | .tangent o => if o.direction = .projectedGradient then [standardAllowance rows] else []

/-- The solves that the stage makes under the standard limit are none, or that limit is the given
one. -/
def StageWork.Obeys (limit : Int) (rows columns : Nat) : StageWork K → Prop
  | .initial => True
  | .normal o => o.trials = [] ∨ limit = 2 * columns
  | .tangent o => o.direction = .kkt ∨ limit = 2 * rows

variable [Scalar K] {p : Problem K} {settings : Settings K} {policy : RegularizationPolicy K}
  {start? : Option (Vec K)} {l₀ l l' : Ledger K} {c : RunContext K} {m : Moment}
  {r r' : RunState K} {rows : Nat}

namespace RunState

theorem close_solves {work : StageWork K} {stage status : String} {iteration : Int} :
    Solves [] (r.close c work stage iteration status) :=
  Iterate.report_solves.then fun _ => solves_pure

theorem close_stages {work : StageWork K} {stage status : String} {iteration : Int}
    (h : Returns (r.close c work stage iteration status) l r' l') :
    ∃ s, r'.stages = r.stages ++ [s] ∧ s.work = work := by
  simp only [close, Counted.returns_bind, Counted.returns_pure] at h
  obtain ⟨_, _, -, rfl, -⟩ := h
  exact ⟨_, rfl, rfl⟩

theorem isSolved_solves {s : Iterate K} {t : RunTolerances K} : Solves [] (isSolved s t) :=
  Solves.ite (Iterate.readDualNorm_solves.then fun _ => solves_pure) solves_pure

theorem closeDescent_solves {o : TangentOutcome K} {iteration : Int} :
    Solves [] (r.closeDescent c o iteration) :=
  close_solves.then fun _ => isSolved_solves.then fun _ => Budget.exhausted_solves.then fun _ =>
    solves_pure

theorem closeDescent_stages {o : TangentOutcome K} {iteration : Int}
    (h : Returns (r.closeDescent c o iteration) l r' l') :
    ∃ s, r'.stages = r.stages ++ [s] ∧ s.work = .tangent o := by
  simp only [closeDescent, Counted.returns_bind, Counted.returns_pure] at h
  obtain ⟨r₁, _, hclose, _, _, -, _, _, -, rfl, -⟩ := h
  obtain ⟨s, hstages, hwork⟩ := close_stages hclose
  exact ⟨s, hstages, hwork⟩

theorem restore_solves (h : Returns (r.restore c) l r' l') (hs : r.iterate.IsCoherent)
    (hJ : c.problem.HasJacobian r.iterate.jacobian) (hshape : c.problem.rowCount = .ok rows)
    (hrows : rows ≠ 0) :
    ∃ s, r'.stages = r.stages ++ [s] ∧
      l.Solves (s.work.allowances c.settings rows c.problem.variableCount) l' := by
  simp only [restore, Counted.returns_bind, Counted.returns_pure] at h
  obtain ⟨⟨o, s⟩, l₁, hnormal, s', l₂, hrestored, r₁, l₃, hclose, tired, _, htired, rfl, rfl⟩ := h
  obtain ⟨htrials, hlast⟩ := Iterate.normalStep_solves hnormal hJ hs
  obtain rfl : o.jacobian.rowCount = rows := Except.ok.inj (hlast.shape.1.symm.trans hshape)
  have hestimate := Iterate.restored_solves hrows _ _ _ hrestored
  have hrest := (close_solves _ _ _ hclose).trans (Budget.exhausted_solves _ _ _ htired)
  obtain ⟨stage, hstage, hwork⟩ := close_stages hclose
  refine ⟨stage, hstage, ?_⟩
  rw [hwork]
  exact (htrials.trans hestimate).rests hrest

theorem descend_solves (h : Returns (r.descend c) l r' l') (hs : r.iterate.IsCoherent)
    (hJ : c.problem.HasJacobian r.iterate.jacobian) (hshape : c.problem.rowCount = .ok rows)
    (hrows : rows ≠ 0) :
    ∃ s, r'.stages = r.stages ++ [s] ∧
      l.Solves (s.work.allowances c.settings rows c.problem.variableCount) l' := by
  obtain rfl : r.iterate.jacobian.rowCount = rows := Except.ok.inj (hJ.shape.1.symm.trans hshape)
  obtain ⟨_, kkt, l₁, g, s, l₂, merit, o, l₃, s', l₄, -, hrefresh, hg, -, htangent, hs', hclose⟩ :=
    descend_cases h
  have hread := Iterate.readLagrangianGradient_solves _ _ _ hg
  obtain ⟨-, rfl, -⟩ := Iterate.readLagrangianGradient_returns hg hs
  have hbefore := ((KktSystem.refresh_solves hrefresh).trans hread).trans
    (tangentStep_solves htangent hrows)
  have hpoint : l₃.Solves [] l₄ := by
    obtain ⟨-, -, rfl⟩ | ⟨-, hs'⟩ := hs'
    · exact .refl
    · exact Problem.evaluate_solves_known _ _ _ hs'
  obtain ⟨stage, hstage, hwork⟩ := closeDescent_stages hclose
  refine ⟨stage, hstage, ?_⟩
  rw [hwork]
  exact hbefore.rests (hpoint.trans (closeDescent_solves _ _ _ hclose))

end RunState

omit [Scalar K] in
theorem Problem.rowCount_ne_zero {u : Unit} (hcheck : p.check = .ok u) : p.rowCount ≠ .ok 0 := by
  intro hrows
  unfold check at hcheck
  unfold rowCount at hrows
  split at hrows
  · rename_i count hcount
    cases hrows
    rw [if_pos (.inl hcount)] at hcheck
    cases hcheck
  · cases hrows

theorem startRun_solves (h : Returns (startRun p settings policy start?) l (c, r) l') :
    ∃ rows, p.rowCount = .ok rows ∧ rows ≠ 0 ∧ ∃ s, r.stages = [s] ∧
      l.restart.Solves (s.work.allowances settings rows p.variableCount) l' := by
  simp only [startRun, Counted.returns_bind, Counted.returns_pure, Counted.returns_except,
    Counted.returns_ite, Counted.returns_modify, Counted.not_returns_throw, Budget.start_returns,
    and_false, or_false, Prod.mk.injEq] at h
  obtain ⟨_, _, ⟨hcheck, rfl⟩, _, _, rfl, -, _, _, ⟨-, rfl⟩, _, _, ⟨-, rfl⟩, s, l₁, hs, ⟨d, s'⟩, l₂,
    hd, x, l₃, hsolved, tired, l₄, htired, r, _, hclose, ⟨rfl, rfl⟩, rfl⟩ := h
  have hmatrix : p.HasJacobian s.jacobian := ⟨_, (Problem.evaluate_returns hs).1.jacobian⟩
  have hrows : s.jacobian.rowCount ≠ 0 := by
    intro hzero
    have hshape := hmatrix.shape.1
    rw [hzero] at hshape
    exact Problem.rowCount_ne_zero hcheck hshape
  obtain ⟨stage, hstage, hwork⟩ := RunState.close_stages hclose
  refine ⟨_, hmatrix.shape.1, hrows, stage, hstage, ?_⟩
  rw [hwork]
  have hpoint := Problem.evaluate_solves hs hmatrix.shape.1 hrows
  exact (hpoint.rests ((Iterate.readDualNorm_solves _ _ _ hd).trans
    (RunState.isSolved_solves _ _ _ hsolved))).rests
      ((Budget.exhausted_solves _ _ _ htired).trans (RunState.close_solves _ _ _ hclose))

namespace Reaches

theorem hasJacobian (h : Reaches p settings policy start? l₀ c m r l) :
    p.jacobian r.iterate.point = .ok r.iterate.jacobian := by
  refine h.steadyRule (P := fun _ r _ => p.jacobian r.iterate.point = .ok r.iterate.jacobian)
    ?_ ?_ ?_ ?_
  · intro c r l hstep
    exact hstep.exact.jacobian
  · intro c again r o r' l l' h hr _ hstep
    obtain ⟨l₁, hfollows, -⟩ := hstep.follows
    rw [hstep.iterate.point, hstep.iterate.jacobian, ← h.problem_eq]
    rw [← h.problem_eq] at hr
    exact hfollows.jacobian_eq hr
  · intro c r r' l l' hr hstep
    obtain ⟨g?, solved, rfl⟩ := hstep.state
    exact hr
  · intro c r o r' l l' h hr _ hstep
    by_cases hsame : Vec.coincides o.point r.iterate.point = true
    · obtain ⟨hpoint, -, -, -, hjacobian⟩ := hstep.iterate.kept hsame
      rw [hpoint, hjacobian, hr]
    · have hexact := (hstep.iterate.evaluated hsame).2
      rw [h.problem_eq] at hexact
      exact hexact.jacobian

/-- The solves that a run has made since its start are those of its stages. -/
theorem solves (h : Reaches p settings policy start? l₀ c m r l) :
    ∃ rows, p.rowCount = .ok rows ∧ rows ≠ 0 ∧ l₀.restart.Solves
      (r.stages.flatMap fun s => s.work.allowances settings rows p.variableCount) l := by
  induction h with
  | begun step =>
    obtain ⟨rows, hshape, hrows, s, hstages, hsolves⟩ := startRun_solves step
    refine ⟨rows, hshape, hrows, ?_⟩
    rw [hstages, List.flatMap_singleton]
    exact hsolves
  | restored h goes step ih =>
    obtain ⟨rows, hshape, hrows, hsolves⟩ := ih
    obtain ⟨s, hstages, hstep⟩ := RunState.restore_solves step h.coherent
      (h.problem_eq ▸ ⟨_, h.hasJacobian⟩) (h.problem_eq ▸ hshape) hrows
    rw [h.problem_eq, h.settings_eq] at hstep
    refine ⟨rows, hshape, hrows, ?_⟩
    rw [hstages, List.flatMap_append, List.flatMap_singleton]
    exact hsolves.trans hstep
  | repeated h outside ih => exact ih
  | judged h inside step ih =>
    obtain ⟨rows, hshape, hrows, hsolves⟩ := ih
    exact ⟨rows, hshape, hrows, hsolves.rests (RunState.isSolved_solves _ _ _ step)⟩
  | ended h stays ih => exact ih
  | descended h goes step ih =>
    obtain ⟨rows, hshape, hrows, hsolves⟩ := ih
    obtain ⟨s, hstages, hstep⟩ := RunState.descend_solves step h.coherent
      (h.problem_eq ▸ ⟨_, h.hasJacobian⟩) (h.problem_eq ▸ hshape) hrows
    rw [h.problem_eq, h.settings_eq] at hstep
    refine ⟨rows, hshape, hrows, ?_⟩
    rw [hstages, List.flatMap_append, List.flatMap_singleton]
    exact hsolves.trans hstep

end Reaches

theorem finishRun_solves : Solves [] (finishRun c r) :=
  Budget.elapsed_solves.then fun _ => Iterate.readDualNorm_solves.then fun _ =>
    Counted.solves_counters.then fun _ => solves_pure

section

omit [Scalar K]

variable {work : StageWork K} {columns : Nat}

theorem StageWork.allowances_unlimited (h : settings.leastSquaresLimit = none) :
    ∀ a ∈ work.allowances settings rows columns, a.2 = 2 * a.1 := by
  have hestimate :
      (settings.estimateAllowance rows).2 = 2 * (settings.estimateAllowance rows).1 := by
    rw [Settings.estimateAllowance, h, Option.getD_none]
  have hstandard : ∀ n, (standardAllowance n).2 = 2 * (standardAllowance n).1 := fun _ => rfl
  intro a ha
  cases work with
  | initial =>
    rw [List.mem_singleton.1 ha]
    exact hestimate
  | normal o =>
    obtain ha | ha := List.mem_append.1 ha
    · obtain ⟨t, -, rfl⟩ := List.mem_map.1 ha
      exact hstandard _
    · rw [List.mem_singleton.1 ha]
      exact hestimate
  | tangent o =>
    simp only [allowances] at ha
    split at ha
    · rw [List.mem_singleton.1 ha]
      exact hstandard _
    · cases ha

/-- A limit in the settings is that of all solves of a stage exactly where the standard limit of the
solves that are no estimates is the same. -/
theorem StageWork.allowances_limited {limit : Int} (h : settings.leastSquaresLimit = some limit) :
    (∀ a ∈ work.allowances settings rows columns, a.2 = limit) ↔ work.Obeys limit rows columns := by
  have hestimate : (settings.estimateAllowance rows).2 = limit := by
    rw [Settings.estimateAllowance, h, Option.getD_some]
  cases work with
  | initial => simp [allowances, Obeys, hestimate]
  | normal o =>
    simp only [allowances, Obeys, List.forall_mem_append, List.forall_mem_map,
      List.forall_mem_singleton, hestimate, and_true, standardAllowance, eq_comm (b := limit)]
    cases o.trials with
    | nil => simp
    | cons t trials =>
      exact ⟨fun hall => .inr (hall t List.mem_cons_self),
        fun hlimit _ _ => hlimit.resolve_left (List.cons_ne_nil t trials)⟩
  | tangent o =>
    cases hdirection : o.direction with
    | kkt => simp [allowances, Obeys, hdirection]
    | projectedGradient =>
      simp [allowances, Obeys, hdirection, standardAllowance, eq_comm]

end

/-- The limits of the solves that a run has made. -/
structure RunResult.SolvesUnder (settings : Settings K) (rows columns : Nat) (res : RunResult K)
    (solves : List SolveRecord) : Prop where
  /-- The solves on record are those of the stages. -/
  record : solves.map SolveRecord.allowance =
    res.stages.flatMap fun s => s.work.allowances settings rows columns
  /-- No solve takes more steps than it is allowed. -/
  within : ∀ s ∈ solves, s.iterations ≤ s.limit.toNat
  /-- Without a limit in the settings, each solve is allowed two steps for each of its columns. -/
  unlimited : settings.leastSquaresLimit = none → ∀ s ∈ solves, s.limit = 2 * s.columns
  /-- A limit in the settings is that of all solves only by coincidence: the trials of the normal
  steps and the projected gradients have it only where it is the standard limit. -/
  limited : ∀ limit, settings.leastSquaresLimit = some limit →
    ((∀ s ∈ solves, s.limit = limit) ↔ ∀ s ∈ res.stages, s.work.Obeys limit rows columns)

/-- The limits of the solves of a run that ends. -/
theorem solveWithin_solves {rounds : Nat} {res : RunResult K}
    (h : Returns (solveWithin p settings policy start? rounds) l₀ (some res) l) :
    ∃ rows, p.rowCount = .ok rows ∧ res.SolvesUnder settings rows p.variableCount l.solves := by
  obtain ⟨c, r, l₁, hr, -, hfinish⟩ := solveWithin_finishes h
  obtain ⟨rows, hshape, -, hsolves⟩ := hr.solves
  obtain ⟨made, hmade, hrecord, hwithin⟩ := hsolves.rests (finishRun_solves _ _ _ hfinish)
  -- At the start the record is empty.
  obtain rfl : l.solves = made := hmade
  rw [← (finishRun_returns hfinish hr.coherent).1.stages] at hrecord
  have hall : ∀ Q : Nat × Int → Prop, (∀ s ∈ l.solves, Q s.allowance) ↔
      ∀ s ∈ res.stages, ∀ a ∈ s.work.allowances settings rows p.variableCount, Q a := by
    intro Q
    rw [← List.forall_mem_map, hrecord, List.forall_mem_flatMap]
  refine ⟨rows, hshape, hrecord, hwithin, fun hnone => ?_, fun limit hlimit => ?_⟩
  · exact (hall fun a => a.2 = 2 * a.1).2 fun s _ => StageWork.allowances_unlimited hnone
  · refine (hall fun a => a.2 = limit).trans ?_
    exact forall₂_congr fun s _ => StageWork.allowances_limited hlimit

/-- The standard settings with a limit of one step on each least-squares solve. -/
def Settings.singleStep : Settings Float := { Settings.standard with leastSquaresLimit := some 1 }

/-- On the flat line a limit of one step does not reach the solve of the normal step. -/
theorem flatLine_solves : ∃ res l,
    Returns (solveWithin flatLine .singleStep (.fixed .standard) none 5) .empty (some res) l ∧
      res.SolvesUnder .singleStep 1 1 l.solves ∧ ∃ s ∈ l.solves, s.limit ≠ 1 := by
  obtain ⟨res, l, h, htrials⟩ := exists_run flatLine .singleStep (.fixed .standard) none .empty 5
    (fun res => res.stages.any fun s => match s.work with
      | .normal o => !o.trials.isEmpty
      | .initial | .tangent _ => false) (by decide +kernel)
  obtain ⟨rows, hshape, hsolves⟩ := solveWithin_solves h
  obtain rfl : 1 = rows := Except.ok.inj hshape
  refine ⟨res, l, h, hsolves, ?_⟩
  by_contra hnone
  have hall : ∀ s ∈ l.solves, s.limit = 1 := by
    intro s hs
    by_contra hne
    exact hnone ⟨s, hs, hne⟩
  have hobeys := (hsolves.limited 1 rfl).1 hall
  obtain ⟨s, hs, hmade⟩ := List.any_eq_true.1 htrials
  have hstage := hobeys s hs
  split at hmade
  · rename_i o hwork
    rw [hwork] at hstage
    obtain htrials | hlimit := hstage
    · rw [htrials] at hmade
      cases hmade
    · cases hlimit
  · cases hmade
  · cases hmade

end InfeasibilityControl
