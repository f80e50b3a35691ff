import InfeasibilityControl.Proofs.Run.Radius
import InfeasibilityControl.Proofs.Run.Verdict

set_option autoImplicit false
set_option relaxedAutoImplicit false

/-!
The verdict that a problem may be locally infeasible.

A normal step judges by the radius, a run by the primal tolerance. The radius never drops below both
its bound and the tolerance, so the verdict is sound for the tolerance as long as the tolerance does
not exceed the bound of the radius. Above the bound it is not: the run then gives up at points that
are feasible to the tolerance, but outside the bound.
-/

namespace InfeasibilityControl

open Counted (Returns)
open RunState (Starts Restores Judges Descends)

section

variable {K : Type} [Scalar K] {p : Problem K} {settings : Settings K}
  {policy : RegularizationPolicy K} {start? : Option (Vec K)} {l₀ l : Ledger K} {c : RunContext K}
  {m : Moment} {r : RunState K}

/-- The radius of a run is not below both its bound and the primal tolerance, whatever becomes of
failed tangent steps. -/
theorem Reaches.isFloored [SignedScalar K] (h : Reaches p settings policy start? l₀ c m r l)
    (hbound : ¬ settings.radiusBound ≤ 0) :
    IsFloored settings.radiusBound c.tolerances.primal r.iterate.radius := by
  refine h.steadyRule (P := fun c r _ =>
    IsFloored settings.radiusBound c.tolerances.primal r.iterate.radius) ?_ ?_ ?_ ?_
  · intro c r l hstep
    rw [hstep.radius]
    have hlawful := isLawful_bound hbound c.tolerances.primal
    exact ⟨hlawful.number, hlawful.floored⟩
  · intro c again r o r' l l' h hr _ hstep
    obtain ⟨rel, hrel, hradius⟩ := hstep.updates
    rw [hradius, h.settings_eq]
    exact hr.update hrel fun hneg => hbound (ComparableScalar.le_of_lt hneg)
  · intro c r r' l l' hr hstep
    obtain ⟨g?, solved, rfl⟩ := hstep.state
    exact hr
  · intro c r o r' l l' h hr _ hstep
    have hradius : r'.iterate.radius =
        (RunState.afterTangent c.settings c.tolerances.primal r.iterate.radius o.ending).1 :=
      congrArg Prod.fst hstep.radius
    rw [hradius]
    obtain ⟨-, -, hlow⟩ | ⟨-, hsame⟩ := RunState.afterTangent_radius c.settings
      c.tolerances.primal r.iterate.radius o.ending
    · rw [hlow]
      exact hr.halve
    · rw [hsame]
      exact hr

theorem IsFloored.outside [ComparableScalar K] {bound floor radius primal : K}
    (h : IsFloored bound floor radius) (hradius : ¬ primal ≤ radius) (hbelow : primal < floor) :
    ¬ primal ≤ bound := by
  intro hinside
  have hnumber : bound ≤ bound := ComparableScalar.le_refl_right hinside
  have hradiusNumber : radius ≤ radius := ComparableScalar.le_refl_right (h.number hnumber)
  have hfloorNumber : floor ≤ floor :=
    ComparableScalar.le_refl_right (ComparableScalar.le_of_lt hbelow)
  by_cases hlow : radius < bound
  · have hfloor : floor ≤ radius := ComparableScalar.le_of_not_lt hradiusNumber hfloorNumber
      fun hlower => h.floored ⟨hlow, hlower⟩
    exact hradius (ComparableScalar.le_trans (ComparableScalar.le_of_lt hbelow) hfloor)
  · have hbound : bound ≤ radius := ComparableScalar.le_of_not_lt hradiusNumber hnumber hlow
    exact hradius (ComparableScalar.le_trans hinside hbound)

/-- The last row reports a normal step that gave up outside the radius, with this residual. -/
def GaveUp (primal radius : K) (rows : List (ProgressRow K)) : Prop :=
  ∃ row ∈ rows.getLast?, row.stage = "N" ∧ row.status = "infeasible" ∧
    row.primalResidual = primal ∧ row.radius = radius ∧ ¬ primal ≤ radius

theorem Reaches.gaveUp (h : Reaches p settings policy start? l₀ c m r l)
    (hinfeasible : r.infeasible = true) :
    GaveUp r.iterate.primalNorm r.iterate.radius (r.stages.map Stage.row) := by
  refine h.steadyRule (P := fun _ r _ => r.infeasible = true →
    GaveUp r.iterate.primalNorm r.iterate.radius (r.stages.map Stage.row)) ?_ ?_ ?_ ?_ hinfeasible
  · intro c r l hstep hflag
    rw [hstep.flags.1] at hflag
    exact absurd hflag (by decide)
  · intro c again r o r' l l' _ _ _ hstep hflag
    obtain ⟨row, hrows, hshown, -⟩ := hstep.row
    obtain ⟨l₁, hfollows, -⟩ := hstep.follows
    rw [hstep.infeasible, decide_eq_true_iff] at hflag
    have houtside : ¬ o.primalNorm ≤ o.radius := by
      rw [← hfollows.success_iff, hflag]
      decide
    refine ⟨row, by simp [hrows], hshown.stage, ?_, hshown.primalResidual, hshown.radius, ?_⟩
    · rw [hshown.status, hflag]
      rfl
    · rw [Iterate.primalNorm, hstep.iterate.constraints, hstep.iterate.radius]
      exact houtside
  · intro c r r' l l' hr hstep
    obtain ⟨g?, solved, rfl⟩ := hstep.state
    exact hr
  · intro c r o r' l l' _ _ hgoes hstep hflag
    rw [RunState.rests, Bool.or_eq_false_iff] at hgoes
    rw [hstep.infeasible, hgoes.2] at hflag
    exact absurd hflag (by decide)

omit [Scalar K] in
theorem RunState.infeasible_of_status (h : r.status = .infeasible) : r.infeasible = true := by
  unfold status at h
  cases hsolved : r.solved <;> cases htired : r.tired <;> cases hinfeasible : r.infeasible <;>
    cases hstalled : r.stalled <;> simp_all

/-- A run that ends as infeasible ends outside the radius that its last row shows. It is outside the
primal tolerance, too, if the tolerance does not exceed the bound of the radius; in any case it is
outside one of the two. -/
theorem solveWithin_infeasible [SignedScalar K] {rounds : Nat} {res : RunResult K}
    (hbound : ¬ settings.radiusBound ≤ 0)
    (h : Returns (solveWithin p settings policy start? rounds) l₀ (some res) l)
    (hstatus : res.status = .infeasible) :
    settings.tolerancesAt p (start?.getD p.start) = .ok res.tolerances ∧
      (∃ radius, GaveUp res.primalResidual radius res.history) ∧
      (res.primalResidual < res.tolerances.primal →
        ¬ res.primalResidual ≤ settings.radiusBound) ∧
      (res.tolerances.primal ≤ settings.radiusBound →
        ¬ res.primalResidual < res.tolerances.primal) := by
  obtain ⟨c, r, l₁, hr, -, hres, -⟩ := solveWithin_returns h
  obtain ⟨r₁, l₂, hstarts⟩ := hr.started
  rw [hres.status] at hstatus
  have hgave := hr.gaveUp (RunState.infeasible_of_status hstatus)
  rw [hres.tolerances, hres.primalResidual, hres.history]
  have houtside : r.iterate.primalNorm < c.tolerances.primal →
      ¬ r.iterate.primalNorm ≤ settings.radiusBound := by
    obtain ⟨row, -, -, -, -, -, hradius⟩ := hgave
    exact (hr.isFloored hbound).outside hradius
  refine ⟨hstarts.tolerancesAt, ⟨_, hgave⟩, houtside, fun htolerance hbelow => ?_⟩
  exact houtside hbelow
    (ComparableScalar.le_trans (ComparableScalar.le_of_lt hbelow) htolerance)

end

/-- A function of the only coordinate of a point. -/
private def onLine {α : Type} (f : Float → α) (x : Vec Float) : Except Fault α :=
  match x with
  | [a] => .ok (f a)
  | _ => .error .shapeMismatch

/-- A valley on a line next to the point where the constraints are smallest, but not zero. -/
def valley : Problem Float where
  name := "valley"
  start := [0]
  constraintCount := 1
  inequalityCount := 0
  bounded := false
  evaluationTime := 0
  objective := onLine fun a => 50 * (a * a) + 50 * a + 12.5
  gradient := onLine fun a => [100 * a + 50]
  constraints := onLine fun a => [a * a + 1.25]
  jacobianPattern := [⟨0, 0⟩]
  jacobianValues := onLine fun a => [2 * a]
  hessianPattern := [⟨0, 0⟩]
  hessianValues := fun x y _ => onLine (fun _ => [100 + 2 * Vec.dot y [1]]) x

/-- A primal tolerance far above the bound of the radius. -/
def Settings.lenient : Settings Float := { standard with absolute := 10, relative := 0 }

/-- At the start of the valley the constraints are within the tolerance, but the run gives up. -/
theorem valley_infeasible : ¬ Settings.lenient.radiusBound ≤ 0 ∧ ∃ res l,
    Returns (solveWithin valley .lenient (.fixed .standard) none 5) .empty (some res) l ∧
      res.status = .infeasible ∧ res.primalResidual < res.tolerances.primal ∧
      ¬ res.primalResidual ≤ Settings.lenient.radiusBound := by
  have hbound : ¬ Settings.lenient.radiusBound ≤ 0 := by decide +kernel
  obtain ⟨res, l, h, hres⟩ := exists_run valley .lenient (.fixed .standard) none .empty 5
    (fun res => decide (res.status = .infeasible) &&
      decide (res.primalResidual < res.tolerances.primal)) (by decide +kernel)
  obtain ⟨hstatus, hbelow⟩ := Bool.and_eq_true_iff.1 hres
  have hstatus : res.status = .infeasible := of_decide_eq_true hstatus
  have hbelow : res.primalResidual < res.tolerances.primal := of_decide_eq_true hbelow
  obtain ⟨-, -, houtside, -⟩ := solveWithin_infeasible hbound h hstatus
  exact ⟨hbound, res, l, h, hstatus, hbelow, houtside hbelow⟩

end InfeasibilityControl
