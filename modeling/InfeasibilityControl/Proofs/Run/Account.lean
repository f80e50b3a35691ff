import Mathlib
import InfeasibilityControl.Proofs.Run.Course

set_option autoImplicit false
set_option relaxedAutoImplicit false

/-!
What a run evaluates, step by step.

A normal step evaluates the constraints at each trial and the Jacobian at each accepted one; if it
has moved the point, the objective and its gradient are evaluated there once. A tangent step
evaluates the Hessian and the Jacobian at its origin and objective and constraints at each trial;
if it has moved the point, everything but the Hessian is evaluated there anew. Nothing else is
evaluated after the start, so that the counters of a run can be read off its record.
-/

namespace InfeasibilityControl

open Counted (Returns)
open Ledger (Spends Rests)
open RunState (Starts Restores Judges Descends)

variable {K : Type}

/-- The stages after the start, each with the point that it began at. -/
def departures (stages : List (Stage K)) : List (Vec K × StageWork K) :=
  (stages.zip stages.tail).map fun s => (s.1.iterate.point, s.2.work)

/-- The normal steps of a run, each with the point that it began at. -/
def normalSteps (stages : List (Stage K)) : List (Vec K × NormalOutcome K) :=
  (departures stages).filterMap fun
    | (origin, .normal o) => some (origin, o)
    | (_, .initial) | (_, .tangent _) => none

/-- The tangent steps of a run, each with the point that it began at. -/
def tangentSteps (stages : List (Stage K)) : List (Vec K × TangentOutcome K) :=
  (departures stages).filterMap fun
    | (origin, .tangent o) => some (origin, o)
    | (_, .initial) | (_, .normal _) => none

/-- A quantity, added up over the normal steps. -/
def normalTotal (f : Vec K → NormalOutcome K → Nat) (stages : List (Stage K)) : Nat :=
  ((normalSteps stages).map fun s => f s.1 s.2).sum

/-- A quantity, added up over the tangent steps. -/
def tangentTotal (f : Vec K → TangentOutcome K → Nat) (stages : List (Stage K)) : Nat :=
  ((tangentSteps stages).map fun s => f s.1 s.2).sum

section

variable {stages : List (Stage K)} {last s : Stage K}

theorem departures_append (h : last ∈ stages.getLast?) :
    departures (stages ++ [s]) = departures stages ++ [(last.iterate.point, s.work)] := by
  induction stages with
  | nil => cases h
  | cons first rest ih =>
    cases rest with
    | nil =>
      cases h
      rfl
    | cons second rest =>
      rw [List.getLast?_cons_cons] at h
      exact congrArg (List.cons _) (ih h)

variable {o : NormalOutcome K} {o' : TangentOutcome K}

theorem normalSteps_normal (h : last ∈ stages.getLast?) (hwork : s.work = .normal o) :
    normalSteps (stages ++ [s]) = normalSteps stages ++ [(last.iterate.point, o)] := by
  simp [normalSteps, departures_append h, hwork]

theorem normalSteps_tangent (h : last ∈ stages.getLast?) (hwork : s.work = .tangent o') :
    normalSteps (stages ++ [s]) = normalSteps stages := by
  simp [normalSteps, departures_append h, hwork]

theorem tangentSteps_normal (h : last ∈ stages.getLast?) (hwork : s.work = .normal o) :
    tangentSteps (stages ++ [s]) = tangentSteps stages := by
  simp [tangentSteps, departures_append h, hwork]

theorem tangentSteps_tangent (h : last ∈ stages.getLast?) (hwork : s.work = .tangent o') :
    tangentSteps (stages ++ [s]) = tangentSteps stages ++ [(last.iterate.point, o')] := by
  simp [tangentSteps, departures_append h, hwork]

theorem normalTotal_normal (f : Vec K → NormalOutcome K → Nat) (h : last ∈ stages.getLast?)
    (hwork : s.work = .normal o) :
    normalTotal f (stages ++ [s]) = normalTotal f stages + f last.iterate.point o := by
  simp [normalTotal, normalSteps_normal h hwork]

theorem normalTotal_tangent (f : Vec K → NormalOutcome K → Nat) (h : last ∈ stages.getLast?)
    (hwork : s.work = .tangent o') : normalTotal f (stages ++ [s]) = normalTotal f stages := by
  rw [normalTotal, normalSteps_tangent h hwork, normalTotal]

theorem tangentTotal_normal (f : Vec K → TangentOutcome K → Nat) (h : last ∈ stages.getLast?)
    (hwork : s.work = .normal o) : tangentTotal f (stages ++ [s]) = tangentTotal f stages := by
  rw [tangentTotal, tangentSteps_normal h hwork, tangentTotal]

theorem tangentTotal_tangent (f : Vec K → TangentOutcome K → Nat) (h : last ∈ stages.getLast?)
    (hwork : s.work = .tangent o') :
    tangentTotal f (stages ++ [s]) = tangentTotal f stages + f last.iterate.point o' := by
  simp [tangentTotal, tangentSteps_tangent h hwork]

end

variable [Scalar K]

/-- The counters show the start and what the steps on record have evaluated. -/
structure Counters.Accounts (k : Counters) (stages : List (Stage K)) : Prop where
  objective : k.objective = 1 + normalTotal (fun x o => Vec.moves x o.point) stages +
    tangentTotal (fun x o => o.trials.length + Vec.moves x o.point) stages
  constraints : k.constraints = 1 + normalTotal (fun _ o => o.trials.length) stages +
    tangentTotal (fun x o => o.trials.length + Vec.moves x o.point) stages
  gradient : k.gradient = 1 + normalTotal (fun x o => Vec.moves x o.point) stages +
    tangentTotal (fun x o => Vec.moves x o.point) stages
  jacobian : k.jacobian = 1 + normalTotal (fun _ o => o.trials.countP Trial.accepted) stages +
    (tangentSteps stages).length + tangentTotal (fun x o => Vec.moves x o.point) stages
  hessian : k.hessian = (tangentSteps stages).length

section

variable {stages : List (Stage K)} {last s : Stage K} {dt : K} {l l₁ l₂ l' : Ledger K}

theorem Counters.Accounts.start {l₀ : Ledger K} (h : Spends dt ⟨1, 1, 1, 1, 0⟩ l₀.restart l) :
    l.counters.Accounts [s] :=
  ⟨h.objective, h.constraints, h.gradient, h.jacobian, h.hessian⟩

theorem Counters.Accounts.normal {o : NormalOutcome K} (h : l.counters.Accounts stages)
    (hlast : last ∈ stages.getLast?) (hwork : s.work = .normal o)
    (hstep : Spends dt ⟨0, 0, o.trials.length, o.trials.countP Trial.accepted, 0⟩ l l₁)
    (hpoint : Spends dt ⟨Vec.moves last.iterate.point o.point,
      Vec.moves last.iterate.point o.point, 0, 0, 0⟩ l₁ l') :
    l'.counters.Accounts (stages ++ [s]) := by
  refine ⟨?_, ?_, ?_, ?_, ?_⟩
  · rw [hpoint.objective, hstep.objective, h.objective, normalTotal_normal _ hlast hwork,
      tangentTotal_normal _ hlast hwork]
    dsimp only
    omega
  · rw [hpoint.constraints, hstep.constraints, h.constraints, normalTotal_normal _ hlast hwork,
      tangentTotal_normal _ hlast hwork]
    dsimp only
    omega
  · rw [hpoint.gradient, hstep.gradient, h.gradient, normalTotal_normal _ hlast hwork,
      tangentTotal_normal _ hlast hwork]
    dsimp only
    omega
  · rw [hpoint.jacobian, hstep.jacobian, h.jacobian, normalTotal_normal _ hlast hwork,
      tangentTotal_normal _ hlast hwork, tangentSteps_normal hlast hwork]
    dsimp only
    omega
  · rw [hpoint.hessian, hstep.hessian, h.hessian, tangentSteps_normal hlast hwork]
    rfl

theorem Counters.Accounts.tangent {o : TangentOutcome K} (h : l.counters.Accounts stages)
    (hlast : last ∈ stages.getLast?) (hwork : s.work = .tangent o)
    (hrefresh : Spends dt ⟨0, 0, 0, 1, 1⟩ l l₁)
    (hstep : Spends dt ⟨o.trials.length, 0, o.trials.length, 0, 0⟩ l₁ l₂)
    (hpoint : Spends dt ⟨Vec.moves last.iterate.point o.point,
      Vec.moves last.iterate.point o.point, Vec.moves last.iterate.point o.point,
      Vec.moves last.iterate.point o.point, 0⟩ l₂ l') :
    l'.counters.Accounts (stages ++ [s]) := by
  refine ⟨?_, ?_, ?_, ?_, ?_⟩
  · rw [hpoint.objective, hstep.objective, hrefresh.objective, h.objective,
      normalTotal_tangent _ hlast hwork, tangentTotal_tangent _ hlast hwork]
    dsimp only
    omega
  · rw [hpoint.constraints, hstep.constraints, hrefresh.constraints, h.constraints,
      normalTotal_tangent _ hlast hwork, tangentTotal_tangent _ hlast hwork]
    dsimp only
    omega
  · rw [hpoint.gradient, hstep.gradient, hrefresh.gradient, h.gradient,
      normalTotal_tangent _ hlast hwork, tangentTotal_tangent _ hlast hwork]
    dsimp only
    omega
  · rw [hpoint.jacobian, hstep.jacobian, hrefresh.jacobian, h.jacobian,
      normalTotal_tangent _ hlast hwork, tangentTotal_tangent _ hlast hwork,
      tangentSteps_tangent hlast hwork, List.length_append, List.length_singleton]
    dsimp only
    omega
  · rw [hpoint.hessian, hstep.hessian, hrefresh.hessian, h.hessian,
      tangentSteps_tangent hlast hwork, List.length_append, List.length_singleton]
    rfl

theorem Counters.Accounts.rests (h : l.counters.Accounts stages) (hrests : Rests l l') :
    l'.counters.Accounts stages :=
  ⟨hrests.objective.trans h.objective, hrests.constraints.trans h.constraints,
    hrests.gradient.trans h.gradient, hrests.jacobian.trans h.jacobian,
    hrests.hessian.trans h.hessian⟩

end

/-- A run is accounted for: its counters show the steps on record, each tangent step has a number
of its own, and the record goes on from the point that the run stands at. -/
structure RunState.IsAccounted (settings : Settings K) (r : RunState K) (k : Counters) :
    Prop where
  counters : k.Accounts r.stages
  iterations : r.iterate.iteration = (tangentSteps r.stages).length
  passes : 0 ≤ settings.maxNormalTrials →
    ∀ s ∈ normalSteps r.stages, s.2.passes = s.2.trials.length
  stands : ∃ last ∈ r.stages.getLast?, last.iterate.point = r.iterate.point

variable {p : Problem K} {settings : Settings K} {policy : RegularizationPolicy K}
  {start? : Option (Vec K)} {l₀ l l' : Ledger K} {c : RunContext K} {m : Moment}
  {r r' : RunState K}

theorem RunState.Starts.isAccounted (h : Starts p settings policy start? c r l₀ l) :
    r.IsAccounted settings l.counters := by
  obtain ⟨row, hrow, -⟩ := h.stages
  refine ⟨?_, ?_, ?_, ?_⟩
  · rw [hrow]
    exact .start h.spent
  · rw [hrow, h.iteration]
    rfl
  · rw [hrow]
    intro _ s hs
    cases hs
  · rw [hrow]
    exact ⟨_, rfl, rfl⟩

theorem RunState.Restores.isAccounted {o : NormalOutcome K} (h : Restores c r o r' l l')
    (hr : r.IsAccounted c.settings l.counters) : r'.IsAccounted c.settings l'.counters := by
  obtain ⟨row, hrow, -⟩ := h.stages
  obtain ⟨last, hlast, hstands⟩ := hr.stands
  obtain ⟨l₁, hfollows, hpoint⟩ := h.follows
  rw [← hstands] at hpoint
  refine ⟨?_, ?_, ?_, ?_⟩
  · rw [hrow]
    exact hr.counters.normal hlast rfl hfollows.spent hpoint
  · rw [hrow, tangentSteps_normal hlast rfl, h.iterate.iteration]
    exact hr.iterations
  · rw [hrow, normalSteps_normal hlast rfl]
    intro hmax s hs
    obtain hs | hs := List.mem_append.1 hs
    · exact hr.passes hmax s hs
    · rw [List.mem_singleton.1 hs]
      exact h.passes hmax
  · rw [hrow]
    exact ⟨_, List.getLast?_concat, rfl⟩

theorem RunState.Descends.isAccounted {o : TangentOutcome K} (h : Descends c r o r' l l')
    (hr : r.IsAccounted c.settings l.counters) : r'.IsAccounted c.settings l'.counters := by
  obtain ⟨s, row, hrow, ⟨g?, hkept⟩, -⟩ := h.stages
  obtain ⟨last, hlast, hstands⟩ := hr.stands
  obtain ⟨l₁, l₂, hrefresh, hfollows, hpoint⟩ := h.follows
  rw [← hstands] at hpoint
  refine ⟨?_, ?_, ?_, ?_⟩
  · rw [hrow]
    exact hr.counters.tangent hlast rfl hrefresh hfollows.spent hpoint
  · rw [hrow, tangentSteps_tangent hlast rfl, h.iterate.iteration, hr.iterations,
      List.length_append, List.length_singleton]
    rfl
  · rw [hrow, normalSteps_tangent hlast rfl]
    exact hr.passes
  · rw [hrow, hkept]
    exact ⟨_, List.getLast?_concat, rfl⟩

theorem Reaches.isAccounted (h : Reaches p settings policy start? l₀ c m r l) :
    r.IsAccounted settings l.counters := by
  refine h.steadyRule (P := fun _ r l => r.IsAccounted settings l.counters) ?_ ?_ ?_ ?_
  · intro c r l hstep
    exact hstep.isAccounted
  · intro c again r o r' l l' h hr _ hstep
    rw [← h.settings_eq] at hr ⊢
    exact hstep.isAccounted hr
  · intro c r r' l l' hr hstep
    obtain ⟨g?, solved, rfl⟩ := hstep.state
    exact ⟨hr.counters.rests hstep.quiet.toRests, hr.iterations, hr.passes, hr.stands⟩
  · intro c r o r' l l' h hr _ hstep
    rw [← h.settings_eq] at hr ⊢
    exact hstep.isAccounted hr

/-- The account of a run that has ended: its counters show the steps on record, its iterations are
the tangent steps, and each pass of a normal step is a trial. -/
structure RunResult.IsAccounted (settings : Settings K) (res : RunResult K) : Prop where
  counters : res.counters.Accounts res.stages
  iterations : res.iterations = (tangentSteps res.stages).length
  passes : 0 ≤ settings.maxNormalTrials →
    ∀ s ∈ normalSteps res.stages, s.2.passes = s.2.trials.length

/-- Whatever was evaluated before, the counters of a run that ends are what its steps account
for. -/
theorem solveWithin_isAccounted {rounds : Nat} {res : RunResult K}
    (h : Returns (solveWithin p settings policy start? rounds) l₀ (some res) l) :
    res.IsAccounted settings := by
  obtain ⟨c, r, l₁, hr, -, hreports, hquiet⟩ := solveWithin_returns h
  have hrun := hr.isAccounted
  refine ⟨?_, ?_, ?_⟩
  · rw [hreports.counters, hreports.stages]
    exact hrun.counters.rests hquiet.toRests
  · rw [hreports.iterations, hreports.stages]
    exact hrun.iterations
  · rw [hreports.stages]
    exact hrun.passes

/-- On the parabola one tangent step is taken, and its first trial is evaluated twice. -/
theorem parabola_isAccounted : ∃ res l,
    Returns (solveWithin parabola .standard (.fixed .standard) none 5) .empty (some res) l ∧
      (tangentSteps res.stages).map (fun s => (s.2.trials.length, Vec.moves s.1 s.2.point)) =
        [(1, 1)] ∧
      res.counters.objective = 3 ∧ res.counters.constraints = 3 ∧ res.counters.gradient = 2 ∧
      res.counters.jacobian = 3 ∧ res.counters.hessian = 1 ∧ res.IsAccounted .standard := by
  obtain ⟨res, l, h, hcount⟩ := exists_run parabola .standard (.fixed .standard) none .empty 5
    (fun res => decide ((tangentSteps res.stages).map
        (fun s => (s.2.trials.length, Vec.moves s.1 s.2.point)) = [(1, 1)] ∧
      res.counters.objective = 3 ∧ res.counters.constraints = 3 ∧ res.counters.gradient = 2 ∧
      res.counters.jacobian = 3 ∧ res.counters.hessian = 1)) (by decide +kernel)
  obtain ⟨hsteps, hf, hc, hg, hJ, hH⟩ := of_decide_eq_true hcount
  exact ⟨res, l, h, hsteps, hf, hc, hg, hJ, hH, solveWithin_isAccounted h⟩

end InfeasibilityControl
