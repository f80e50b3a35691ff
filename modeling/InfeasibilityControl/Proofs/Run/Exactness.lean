import InfeasibilityControl.Proofs.Order.Float
import InfeasibilityControl.Proofs.Run.Verdict

set_option autoImplicit false
set_option relaxedAutoImplicit false

/-!
Every iterate of a run belongs to its point.

Objective, constraints, gradient and Jacobian of an iterate are those at its own point, also where
they were taken over because the point compares equal to the last one. A normal step ends at a point
that compares equal to its start only if it stayed there: each trial that it accepts has brought the
norm of the constraints down.
-/

namespace InfeasibilityControl

open Counted (Returns)
open RunState (Starts Restores Judges Descends)

variable {K : Type} [Scalar K]

/-- At points that compare equal the constraints are equal or compare equal. -/
def Problem.IsPointwise (p : Problem K) : Prop :=
  ∀ x y u v, Vec.coincides x y = true → p.constraints x = .ok u → p.constraints y = .ok v →
    u = v ∨ Vec.coincides u v = true

/-- The point of the last normal step, or the start if there was none. -/
def lastRestored (start : Vec K) (stages : List (Stage K)) : Vec K :=
  stages.foldl (fun z s => match s.work with
    | .normal o => o.point
    | .initial | .tangent _ => z) start

omit [Scalar K] in
theorem lastRestored_append {start : Vec K} {stages : List (Stage K)} {s : Stage K} :
    lastRestored start (stages ++ [s]) = match s.work with
      | .normal o => o.point
      | .initial | .tangent _ => lastRestored start stages := by
  rw [lastRestored, List.foldl_append]
  rfl

/-- An iterate is exact, and its multipliers are the least-squares multipliers at the last restored
point. -/
structure Iterate.IsTrue (p : Problem K) (settings : Settings K) (start : Vec K)
    (stages : List (Stage K)) (s : Iterate K) : Prop where
  exact : s.IsExact p
  multipliers : settings.multipliersAt p (lastRestored start stages) = .ok s.multipliers

theorem Iterate.IsTrue.recalling {p : Problem K} {settings : Settings K} {start : Vec K}
    {stages : List (Stage K)} {s : Iterate K} (h : s.IsTrue p settings start stages)
    (g? : Option (Vec K)) : (s.recalling g?).IsTrue p settings start stages :=
  ⟨h.exact.recalling g?, h.multipliers⟩

theorem Iterate.IsTrue.of_recalling {p : Problem K} {settings : Settings K} {start : Vec K}
    {stages : List (Stage K)} {s : Iterate K} {g? : Option (Vec K)}
    (h : (s.recalling g?).IsTrue p settings start stages) : s.IsTrue p settings start stages :=
  ⟨⟨h.exact.objective, h.exact.constraints, h.exact.gradient, h.exact.jacobian⟩, h.multipliers⟩

variable {p : Problem K} {settings : Settings K} {policy : RegularizationPolicy K}
  {start? : Option (Vec K)} {l₀ l l' : Ledger K} {c : RunContext K} {m : Moment}
  {r r' : RunState K}

theorem NormalOutcome.Follows.point_eq [ComparableScalar K] (hp : p.IsPointwise) {b : Budget K}
    {x u : Vec K} {J : SparseMatrix K} {o : NormalOutcome K} (h : o.Follows p b x u J l l')
    (hx : p.constraints x = .ok u) (hsame : Vec.coincides o.point x = true) : o.point = x := by
  obtain hpoint | hdescent := h.descent
  · exact hpoint
  exfalso
  have : IsTrans K fun a b : K => a < b := ⟨fun _ _ _ => ComparableScalar.lt_trans⟩
  rw [Relation.transGen_eq_self] at hdescent
  have hnorm : o.primalNorm = Vec.norm u := by
    obtain heq | heq := hp _ _ _ _ hsame (h.constraints_eq hx) hx
    · rw [NormalOutcome.primalNorm, heq]
    · exact Vec.norm_eq_of_coincides heq
  rw [hnorm] at hdescent
  exact ComparableScalar.lt_irrefl _ hdescent

theorem RunState.Restores.isExact [ComparableScalar K] {o : NormalOutcome K}
    (h : Restores c r o r' l l') (hp : c.problem.IsPointwise) (hr : r.iterate.IsExact c.problem) :
    r'.iterate.IsExact c.problem := by
  obtain ⟨l₁, hfollows, -⟩ := h.follows
  have hs := h.iterate
  have hconstraints := hfollows.constraints_eq hr.constraints
  have hjacobian := hfollows.jacobian_eq hr.jacobian
  rw [← hs.point] at hconstraints hjacobian
  by_cases hsame : Vec.coincides o.point r.iterate.point = true
  · obtain ⟨hobjective, hgradient⟩ := hs.kept hsame
    have hpoint : r'.iterate.point = r.iterate.point :=
      hs.point.trans (hfollows.point_eq hp hr.constraints hsame)
    refine ⟨?_, by rw [hconstraints, hs.constraints], ?_, by rw [hjacobian, hs.jacobian]⟩
    · rw [hpoint, hobjective, hr.objective]
    · rw [hpoint, hgradient, hr.gradient]
  · obtain ⟨hobjective, hgradient⟩ := hs.evaluated hsame
    exact ⟨hobjective, by rw [hconstraints, hs.constraints], hgradient,
      by rw [hjacobian, hs.jacobian]⟩

theorem Iterate.IsDescended.isExact {s s' : Iterate K} {o : TangentOutcome K}
    (h : s.IsDescended p o s') (hs : s.IsExact p) : s'.IsExact p := by
  by_cases hsame : Vec.coincides o.point s.point = true
  · obtain ⟨hpoint, hobjective, hconstraints, hgradient, hjacobian⟩ := h.kept hsame
    refine ⟨?_, ?_, ?_, ?_⟩
    · rw [hpoint, hobjective, hs.objective]
    · rw [hpoint, hconstraints, hs.constraints]
    · rw [hpoint, hgradient, hs.gradient]
    · rw [hpoint, hjacobian, hs.jacobian]
  · exact (h.evaluated hsame).2

theorem RunState.Starts.isTrue (h : Starts p settings policy start? c r l l') :
    r.iterate.IsTrue p settings (start?.getD p.start) r.stages := by
  obtain ⟨row, hrow, -⟩ := h.stages
  refine ⟨h.exact, ?_⟩
  rw [hrow, ← h.point]
  exact h.multipliers

theorem RunState.Restores.isTrue [ComparableScalar K] {o : NormalOutcome K} (start : Vec K)
    (h : Restores c r o r' l l') (hp : c.problem.IsPointwise)
    (hr : r.iterate.IsTrue c.problem c.settings start r.stages) :
    r'.iterate.IsTrue c.problem c.settings start r'.stages := by
  obtain ⟨row, hrow, -⟩ := h.stages
  have hexact := h.isExact hp hr.exact
  refine ⟨hexact, ?_⟩
  rw [hrow, lastRestored_append, ← h.iterate.multipliers]
  change c.settings.multipliersAt c.problem o.point = _
  rw [← h.iterate.point]
  simp only [Settings.multipliersAt, hexact.jacobian, hexact.gradient, bind, Except.bind]

theorem RunState.Descends.isTrue {o : TangentOutcome K} (start : Vec K)
    (h : Descends c r o r' l l') (hr : r.iterate.IsTrue c.problem c.settings start r.stages) :
    r'.iterate.IsTrue c.problem c.settings start r'.stages := by
  obtain ⟨s, row, hrow, -⟩ := h.stages
  refine ⟨h.iterate.isExact hr.exact, ?_⟩
  rw [hrow, lastRestored_append, h.iterate.multipliers]
  exact hr.multipliers

/-- Every iterate of a run is true to the problem: the one it stands at and those on record. -/
theorem Reaches.isTrue [ComparableScalar K] (h : Reaches p settings policy start? l₀ c m r l)
    (hp : p.IsPointwise) :
    r.iterate.IsTrue p settings (start?.getD p.start) r.stages ∧
      EachStage (fun before s =>
        s.iterate.IsTrue p settings (start?.getD p.start) (before ++ [s])) r.stages := by
  refine h.rule (P := fun _ _ r _ => r.iterate.IsTrue p settings (start?.getD p.start) r.stages ∧
    EachStage (fun before s =>
      s.iterate.IsTrue p settings (start?.getD p.start) (before ++ [s])) r.stages) ?_ ?_ ?_ ?_ ?_ ?_
  · intro c r l hstep
    obtain ⟨row, hrow, -⟩ := hstep.stages
    have htrue := hstep.isTrue
    refine ⟨htrue, ?_⟩
    rw [hrow] at htrue ⊢
    exact eachStage_append.2 ⟨eachStage_nil, htrue⟩
  · rintro c again r o r' l l' h ⟨htrue, heach⟩ - hstep
    obtain ⟨row, hrow, -⟩ := hstep.stages
    have htrue' : r'.iterate.IsTrue p settings (start?.getD p.start) r'.stages := by
      have hkept := hstep.isTrue (start?.getD p.start) (h.problem_eq ▸ hp)
      rw [h.problem_eq, h.settings_eq] at hkept
      exact hkept htrue
    refine ⟨htrue', ?_⟩
    rw [hrow] at htrue' ⊢
    exact eachStage_append.2 ⟨heach, htrue'⟩
  · rintro c r l - hr -
    exact hr
  · rintro c r r' l l' - ⟨htrue, heach⟩ - hstep
    obtain ⟨g?, solved, rfl⟩ := hstep.state
    exact ⟨htrue.recalling g?, heach⟩
  · rintro c r l - hr -
    exact hr
  · rintro c r o r' l l' h ⟨htrue, heach⟩ - hstep
    obtain ⟨s, row, hrow, ⟨g?, hs⟩, -⟩ := hstep.stages
    have htrue' : r'.iterate.IsTrue p settings (start?.getD p.start) r'.stages := by
      have hkept := hstep.isTrue (start?.getD p.start)
      rw [h.problem_eq, h.settings_eq] at hkept
      exact hkept htrue
    refine ⟨htrue', ?_⟩
    rw [hrow, hs] at htrue'
    rw [hrow]
    exact eachStage_append.2 ⟨heach, htrue'.of_recalling⟩

/-- What a run tells is true: at every state that it reaches, whether or not it comes to an end, and
of the result if it does. A first-order point passes both tests when the residuals are computed
anew. -/
theorem run_isTrue [ComparableScalar K] (hp : p.IsPointwise) :
    (∀ c m r l, Reaches p settings policy start? l₀ c m r l →
      r.iterate.IsTrue p settings (start?.getD p.start) r.stages ∧
        EachStage (fun before s =>
          s.iterate.IsTrue p settings (start?.getD p.start) (before ++ [s])) r.stages) ∧
    ∀ rounds res l, Returns (solveWithin p settings policy start? rounds) l₀ (some res) l →
      p.objective res.solution = .ok res.objective ∧
      p.primalNorm res.solution = .ok res.primalResidual ∧
      p.dualNorm res.solution res.multipliers = .ok res.dualResidual ∧
      settings.multipliersAt p (lastRestored (start?.getD p.start) res.stages) =
        .ok res.multipliers ∧
      EachStage (fun before s =>
        s.iterate.IsTrue p settings (start?.getD p.start) (before ++ [s])) res.stages ∧
      (res.status = .firstOrder →
        ∃ t, settings.tolerancesAt p (start?.getD p.start) = .ok t ∧
          res.primalResidual < t.primal ∧ res.dualResidual < t.dual) := by
  refine ⟨fun c m r l h => h.isTrue hp, fun rounds res l h => ?_⟩
  obtain ⟨c, r, l₁, hr, hover, hres, hquiet⟩ := solveWithin_returns h
  obtain ⟨htrue, heach⟩ := hr.isTrue hp
  obtain ⟨r₁, l₂, hstarts⟩ := hr.started
  have hexact := htrue.exact
  rw [hres.solution, hres.objective, hres.primalResidual, hres.multipliers, hres.stages]
  refine ⟨hexact.objective, hexact.primalNorm, ?_, htrue.multipliers, heach, fun hstatus => ?_⟩
  · rw [hexact.dualNorm, hres.dualResidual]
  · rw [hres.status, RunState.status_eq_firstOrder_iff, hr.solved_iff (.inr rfl)] at hstatus
    obtain ⟨hprimal, d, hd, hdual⟩ := hstatus
    rw [hres.dualResidual] at hd
    cases hd
    exact ⟨c.tolerances, hstarts.tolerancesAt, hprimal, hdual⟩

theorem flatLine_isTrue : flatLine.IsPointwise ∧ ∃ res l,
    Returns (solveWithin flatLine Settings.standard (.fixed .standard) none 5) .empty (some res) l ∧
      flatLine.objective res.solution = .ok res.objective ∧
      flatLine.primalNorm res.solution = .ok res.primalResidual ∧
      flatLine.dualNorm res.solution res.multipliers = .ok res.dualResidual ∧
      ∃ t, Settings.standard.tolerancesAt flatLine [1] = .ok t ∧
        res.primalResidual < t.primal ∧ res.dualResidual < t.dual := by
  have hp : flatLine.IsPointwise := by
    intro x y u v hxy hu hv
    cases hu
    cases hv
    exact .inr hxy
  obtain ⟨res, l, h, hstatus⟩ := flatLine_ends
  obtain ⟨-, hres⟩ := run_isTrue hp
  obtain ⟨hobjective, hprimal, hdual, -, -, hpasses⟩ := hres _ _ _ h
  exact ⟨hp, res, l, h, hobjective, hprimal, hdual, hpasses hstatus⟩

end InfeasibilityControl
