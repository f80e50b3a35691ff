import InfeasibilityControl.Proofs.Run.Course
import Mathlib.Order.OrderIsoNat

set_option autoImplicit false
set_option relaxedAutoImplicit false

/-!
Runs that never end.

A round of a run ends the run, makes an evaluation or rests: the point is inside the radius already,
no decrease is to be had along the constraints, and all that is known at the point is kept. The
budget pays for finitely many evaluations only, so a run that never ends rests from some round on.
-/

namespace InfeasibilityControl

open Counted (Returns)
open Ledger (Spends Rests Quiet)
open RunState (isSolved Starts Restores Judges Descends afterTangent)

variable {K : Type} [Scalar K]

/-- Two iterates are at one point, with all that is known there; multipliers and radius may
differ. -/
structure Iterate.SharesPoint (s s' : Iterate K) : Prop where
  point : s'.point = s.point
  objective : s'.objective = s.objective
  constraints : s'.constraints = s.constraints
  gradient : s'.gradient = s.gradient
  jacobian : s'.jacobian = s.jacobian

omit [Scalar K] in
theorem Iterate.SharesPoint.trans {s s' s'' : Iterate K} (h : s.SharesPoint s')
    (h' : s'.SharesPoint s'') : s.SharesPoint s'' :=
  ⟨h'.point.trans h.point, h'.objective.trans h.objective, h'.constraints.trans h.constraints,
    h'.gradient.trans h.gradient, h'.jacobian.trans h.jacobian⟩

/-- An iterate with other multipliers, another radius and another memory. -/
def Iterate.settled (s : Iterate K) (multipliers : Vec K) (radius : K) (g? : Option (Vec K)) :
    Iterate K :=
  { s with multipliers, radius, lagrangianGradient? := g? }

omit [Scalar K] in
theorem Iterate.SharesPoint.eq_settled {s s' : Iterate K} (h : s.SharesPoint s')
    (hiteration : s'.iteration = s.iteration) :
    s' = s.settled s'.multipliers s'.radius s'.lagrangianGradient? := by
  cases s'
  obtain ⟨rfl, rfl, rfl, rfl, rfl⟩ := h
  cases hiteration
  rfl

/-- The tangent step from an iterate finds no descent along the constraints, ends in this way and
leaves this KKT system. -/
def Iterate.IsFlat (c : RunContext K) (kkt kkt' : KktSystem K) (ending : TangentEnding K)
    (s : Iterate K) : Prop :=
  ∃ regularization gradient merit d kind slope, c.policy s = .ok regularization ∧
    kkt.loaded c.problem s.point s.multipliers regularization.gamma regularization.delta =
      .ok kkt' ∧
    s.freshLagrangianGradient = .ok gradient ∧ s.lagrangian = .ok merit ∧
    Counted.Always (kkt'.searchDirection gradient s.jacobian c.settings.tolerances) (d, kind) ∧
    Vec.inner gradient d = .ok slope ∧ flatEnding? d slope = some ending

/-- A round that rests: the point is inside the radius and passes no test, neither step tries
another, and the tangent step finds no descent. -/
structure RunState.Idles (c : RunContext K) (r r' : RunState K) (l l' : Ledger K) : Prop where
  evaluations : l'.counters.evaluations = l.counters.evaluations
  shares : r.iterate.SharesPoint r'.iterate
  iteration : r'.iterate.iteration = r.iterate.iteration + 1
  coincides : Vec.coincides r.iterate.point r.iterate.point
  multipliers : c.settings.leastSquaresMultipliers r.iterate.jacobian r.iterate.gradient =
    .ok r'.iterate.multipliers
  fails : ¬ r'.iterate.Passes c.tolerances
  flat : ∃ d rho ending g, r.iterate.freshDualNorm = .ok d ∧
    rho = updateRadius r.iterate.radius c.settings.radiusBound
      (relativeDual d r.iterate.gradientNorm c.tolerances.dual) c.tolerances.primal ∧
    r.iterate.primalNorm ≤ rho ∧
    (r.iterate.settled r'.iterate.multipliers rho (some g)).freshLagrangianGradient = .ok g ∧
    (r.iterate.settled r'.iterate.multipliers rho (some g)).IsFlat c r.kkt r'.kkt ending ∧
    (r'.iterate.radius, false) = afterTangent c.settings c.tolerances.primal rho ending

variable {p : Problem K} {settings : Settings K} {policy : RegularizationPolicy K}
  {start? : Option (Vec K)} {l₀ l l' : Ledger K} {c : RunContext K} {r r' : RunState K}

theorem RunState.Restores.evaluations {o : NormalOutcome K} (h : Restores c r o r' l l') :
    l.counters.evaluations < l'.counters.evaluations ∨
      (l'.counters.evaluations = l.counters.evaluations ∧ r.iterate.SharesPoint r'.iterate ∧
        Vec.coincides r.iterate.point r.iterate.point) := by
  obtain ⟨l₁, hfollows, hafter⟩ := h.follows
  have hspent := hfollows.spent
  have hfirst := hspent.evaluations
  have hsecond := hafter.evaluations
  simp only [Work.evaluations] at hfirst hsecond
  by_cases hnothing : o.trials.length = 0 ∧ Vec.moves r.iterate.point o.point = 0
  · right
    obtain ⟨hpoint, hconstraints, hjacobian⟩ :=
      hfollows.unmoved (List.length_eq_zero_iff.1 hnothing.1)
    have hsame := Vec.moves_eq_zero_iff.1 hnothing.2
    obtain ⟨hobjective, hgradient⟩ := h.iterate.kept hsame
    rw [hpoint] at hsame
    refine ⟨by omega, ⟨?_, hobjective, ?_, hgradient, ?_⟩, hsame⟩
    · rw [h.iterate.point, hpoint]
    · rw [h.iterate.constraints, hconstraints]
    · rw [h.iterate.jacobian, hjacobian]
  · left
    omega

theorem RunState.Descends.evaluations {o : TangentOutcome K} (h : Descends c r o r' l l')
    (hclock : l.clock.NeverGoesBack c.problem.evaluationTime) (hover : r'.isOver = false) :
    l.counters.evaluations < l'.counters.evaluations ∨
      (l'.counters.evaluations = l.counters.evaluations ∧ r.iterate.SharesPoint r'.iterate ∧
        r.iterate.IsFlat c r.kkt r'.kkt o.ending) := by
  obtain ⟨l₁, l₂, hrefreshed, hfollows, hafter⟩ := h.follows
  have hfirst := hrefreshed.evaluations
  have hsecond := hfollows.spent.evaluations
  have hthird := hafter.evaluations
  simp only [Work.evaluations] at hfirst hsecond hthird
  by_cases hnothing : o.trials.length = 0 ∧ Vec.moves r.iterate.point o.point = 0
  · right
    have hnone : o.trials = [] := List.length_eq_zero_iff.1 hnothing.1
    obtain ⟨hpoint, hobjective, hconstraints, hgradient, hjacobian⟩ :=
      h.iterate.kept (Vec.moves_eq_zero_iff.1 hnothing.2)
    have hbudget : ∀ limit, o.ending ≠ .exhausted limit := by
      intro limit hlimit
      have htired := h.exhausted hclock limit hlimit
      simp [isOver, htired] at hover
    obtain ⟨regularization, gradient, merit, l₃, l₄, hpolicy, hloaded, hfresh, hmerit, htangent⟩ :=
      h.sought
    obtain ⟨d, kind, slope, hd, hslope, hflat⟩ := tangentStep_flat htangent hnone hbudget
    exact ⟨by omega, ⟨hpoint, hobjective, hconstraints, hgradient, hjacobian⟩, regularization,
      gradient, merit, d, kind, slope, hpolicy, hloaded, hfresh, hmerit, hd, hslope, hflat⟩
  · left
    omega

theorem RunState.Restores.idles {o : NormalOutcome K} {o' : TangentOutcome K} {r₁ : RunState K}
    {solved : Bool} {l₁ l₂ : Ledger K} (h : Restores c r o r₁ l l₁)
    (h' : Descends c { r₁ with solved } o' r' l₂ l')
    (hevaluations : l'.counters.evaluations = l.counters.evaluations)
    (hshares : r.iterate.SharesPoint r₁.iterate) (hshares' : r₁.iterate.SharesPoint r'.iterate)
    (hsame : Vec.coincides r.iterate.point r.iterate.point)
    (hinside : r₁.iterate.primalNorm ≤ r₁.iterate.radius)
    (hflat : r₁.iterate.IsFlat c r₁.kkt r'.kkt o'.ending) (hover : r'.isOver = false) :
    r.Idles c r' l l' := by
  obtain ⟨d, hd, hradius⟩ := h.radius
  obtain ⟨g, hknown⟩ := h.remembers
  have hy : r'.iterate.multipliers = r₁.iterate.multipliers := h'.iterate.multipliers
  have hsettled : r₁.iterate = r.iterate.settled r'.iterate.multipliers o.radius (some g) := by
    rw [hy, ← h.iterate.radius, ← hknown]
    exact hshares.eq_settled h.iterate.iteration
  simp only [isOver, Bool.or_eq_false_iff] at hover
  refine ⟨hevaluations, hshares.trans hshares', ?_, hsame, ?_, ?_, d, o.radius, o'.ending, g, hd,
    hradius, ?_, ?_, ?_, ?_⟩
  · rw [h'.iterate.iteration, ← h.iterate.iteration]
  · have hmultipliers := h.iterate.multipliers
    rw [hshares.jacobian, hshares.gradient] at hmultipliers
    rw [hmultipliers, hy]
  · rw [← h'.solved]
    simp [hover]
  · rw [← h.iterate.radius, Iterate.primalNorm, ← hshares.constraints]
    exact hinside
  · rw [← hsettled]
    exact h.coherent g hknown
  · rw [← hsettled, ← h.kept.1]
    exact hflat
  · have hafter := h'.radius
    rw [hover.2] at hafter
    rw [← h.iterate.radius]
    exact hafter

/-- A round that does not end the run makes an evaluation or rests, and the normal step is not
repeated. -/
theorem RunState.advance_rests {again again' : Bool}
    (hr : Reaches p settings policy start? l₀ c (.before again) r l)
    (goes : (r.isOver && !again) = false) (hclock : l₀.clock.NeverGoesBack p.evaluationTime)
    (h : Returns (r.advance c) l (r', again') l') :
    again' = false ∧ (r'.isOver = false →
      l.counters.evaluations < l'.counters.evaluations ∨ r.Idles c r' l l') := by
  obtain ⟨r₁, l₁, hrestore, h⟩ := advance_cases h
  have hrestored := hr.restored goes hrestore
  obtain ⟨o, hrestore⟩ := restore_returns hrestore hr.coherent
  have hsettles := hrestore.settles (hr.neverGoesBack hclock)
  obtain ⟨hopen, -⟩ | ⟨-, rfl, solved, s, l₂, hsolved, h⟩ := h
  · rw [hsettles] at hopen
    cases hopen
  refine ⟨rfl, fun hgoes' => ?_⟩
  have hjudged := hrestored.judged hsettles hsolved
  obtain ⟨-, -, -, hquiet⟩ := isSolved_returns hsolved hrestored.coherent
  obtain ⟨g, hknown⟩ := hrestore.remembers
  obtain rfl := isSolved_keeps hsolved hknown
  obtain ⟨hrests, rfl, rfl⟩ | ⟨hgoes, hdescend⟩ := h
  · simp [isOver] at hgoes'
    simp [rests, hgoes'] at hrests
  · obtain ⟨o', hdescend⟩ := descend_returns hdescend hjudged.coherent
    have hsecond := hquiet.evaluations
    obtain hmore | ⟨hsame, hshares, hcoincides⟩ := hrestore.evaluations
    · have hthird := hdescend.evaluations (hjudged.neverGoesBack hclock) hgoes'
      exact .inl (by omega)
    obtain hmore | ⟨hsame', hshares', hflat⟩ :=
      hdescend.evaluations (hjudged.neverGoesBack hclock) hgoes'
    · exact .inl (by omega)
    have hinside : r₁.iterate.primalNorm ≤ r₁.iterate.radius := by
      simp only [settles, Bool.or_eq_true, decide_eq_true_eq] at hsettles
      simp only [rests, Bool.or_eq_false_iff] at hgoes
      simpa [hgoes] using hsettles
    exact .inr (hrestore.idles hdescend (by omega) hshares hshares' hcoincides hinside hflat hgoes')

/-- A run that never ends: the states and ledgers before its rounds. -/
structure RunsForEver (p : Problem K) (settings : Settings K) (policy : RegularizationPolicy K)
    (start? : Option (Vec K)) (l₀ : Ledger K) (c : RunContext K)
    (course : Nat → RunState K × Ledger K) : Prop where
  start : Returns (startRun p settings policy start?) l₀ (c, (course 0).1) (course 0).2
  goes : ∀ n, (course n).1.isOver = false
  round : ∀ n, Returns ((course n).1.advance c) (course n).2 ((course (n + 1)).1, false)
    (course (n + 1)).2

namespace RunsForEver

variable {course : Nat → RunState K × Ledger K}

theorem reaches (h : RunsForEver p settings policy start? l₀ c course) (n : Nat) :
    Reaches p settings policy start? l₀ c (.before false) (course n).1 (course n).2 := by
  induction n with
  | zero => exact .begun h.start
  | succ n ih => exact RunState.advance_reaches ih (by simp [h.goes n]) (h.round n)

theorem idles (h : RunsForEver p settings policy start? l₀ c course)
    (hclock : l₀.clock.NeverGoesBack p.evaluationTime) :
    ∃ N, ∀ n, N ≤ n →
      (course n).1.Idles c (course (n + 1)).1 (course n).2 (course (n + 1)).2 := by
  have hround : ∀ n, (course n).2.counters.evaluations <
      (course (n + 1)).2.counters.evaluations ∨
        (course n).1.Idles c (course (n + 1)).1 (course n).2 (course (n + 1)).2 := fun n =>
    (RunState.advance_rests (h.reaches n) (by simp [h.goes n]) hclock (h.round n)).2
      (h.goes (n + 1))
  have hmono : Monotone fun n => (course n).2.counters.evaluations := by
    refine monotone_nat_of_le_succ fun n => ?_
    obtain hmore | hidles := hround n
    · exact hmore.le
    · exact hidles.evaluations.ge
  have hbound : ∀ n, (course n).2.counters.evaluations ≤ settings.maxEvaluations.toNat := by
    intro n
    have hle := (h.reaches n).evaluations_le (RunState.tired_of_isOver (h.goes n))
    omega
  have hbounded : BddAbove (Set.range fun n => (course n).2.counters.evaluations) :=
    ⟨_, Set.forall_mem_range.2 hbound⟩
  obtain ⟨N, hN⟩ := Nat.sSup_mem (Set.range_nonempty _) hbounded
  refine ⟨N, fun n hn => (hround n).resolve_left fun hmore => ?_⟩
  have hmost := le_csSup hbounded (Set.mem_range_self (n + 1))
  have hleast := hmono hn
  simp only [← hN] at hmost hleast
  omega

end RunsForEver

/-- No number of rounds is enough for the run to end, and no fault ends it. -/
def NeverEnds (p : Problem K) (settings : Settings K) (policy : RegularizationPolicy K)
    (start? : Option (Vec K)) (l₀ : Ledger K) : Prop :=
  ∀ rounds, ∃ l, Returns (solveWithin p settings policy start? rounds) l₀ none l

/-- From a state before a round no number of rounds is enough. -/
private def GoesOn (c : RunContext K) (x : RunState K × Ledger K) : Prop :=
  ∀ rounds, ∃ l, Returns (RunState.repeatRounds c rounds x.1 false) x.2 none l

private theorem GoesOn.isOver {x : RunState K × Ledger K} (h : GoesOn c x) :
    x.1.isOver = false := by
  obtain ⟨l, h⟩ := h 0
  by_contra hover
  simp [RunState.repeatRounds, hover] at h

private theorem GoesOn.next {x : RunState K × Ledger K} (h : GoesOn c x)
    (hr : Reaches p settings policy start? l₀ c (.before false) x.1 x.2)
    (hclock : l₀.clock.NeverGoesBack p.evaluationTime) :
    ∃ y : RunState K × Ledger K, Returns (x.1.advance c) x.2 (y.1, false) y.2 ∧ GoesOn c y := by
  have hopen : ∀ rounds, ∃ (y : RunState K × Ledger K) (l : Ledger K),
      Returns (x.1.advance c) x.2 (y.1, false) y.2 ∧
      Returns (RunState.repeatRounds c rounds y.1 false) y.2 none l := by
    intro rounds
    obtain ⟨l, hrounds⟩ := h (rounds + 1)
    simp only [RunState.repeatRounds, h.isOver, Counted.returns_ite,
      Counted.returns_bind] at hrounds
    obtain ⟨hover, -⟩ | ⟨-, ⟨r, again⟩, l₁, hround, hrounds⟩ := hrounds
    · simp at hover
    · obtain ⟨rfl, -⟩ := RunState.advance_rests hr (by simp [h.isOver]) hclock hround
      exact ⟨(r, l₁), l, hround, hrounds⟩
  obtain ⟨y, -, hround, -⟩ := hopen 0
  refine ⟨y, hround, fun rounds => ?_⟩
  obtain ⟨z, l, hround', hrounds⟩ := hopen rounds
  obtain ⟨hstate, hledger⟩ := hround.unique hround'
  have hyz : y = z := Prod.ext (Prod.mk.inj hstate).1 hledger
  exact ⟨l, hyz ▸ hrounds⟩

theorem NeverEnds.runsForEver (h : NeverEnds p settings policy start? l₀)
    (hclock : l₀.clock.NeverGoesBack p.evaluationTime) :
    ∃ c course, RunsForEver p settings policy start? l₀ c course := by
  have hopen : ∀ rounds, ∃ x l₁ l, Returns (startRun p settings policy start?) l₀ x l₁ ∧
      Returns (RunState.repeatRounds x.1 rounds x.2 false) l₁ none l := by
    intro rounds
    obtain ⟨l, h⟩ := h rounds
    simp only [solveWithin, Counted.returns_bind] at h
    obtain ⟨x, l₁, hstart, last?, l₂, hrounds, h⟩ := h
    cases last? with
    | none => exact ⟨x, l₁, l₂, hstart, hrounds⟩
    | some last => simp at h
  obtain ⟨⟨c, r⟩, l₁, -, hstart, -⟩ := hopen 0
  have hgoes : GoesOn c (r, l₁) := by
    intro rounds
    obtain ⟨x, l₁', l, hstart', hrounds⟩ := hopen rounds
    obtain ⟨rfl, rfl⟩ := hstart.unique hstart'
    exact ⟨l, hrounds⟩
  have hnext : ∀ x : { x : RunState K × Ledger K //
        Reaches p settings policy start? l₀ c (.before false) x.1 x.2 ∧ GoesOn c x },
      ∃ y : { x : RunState K × Ledger K //
        Reaches p settings policy start? l₀ c (.before false) x.1 x.2 ∧ GoesOn c x },
        Returns (x.1.1.advance c) x.1.2 (y.1.1, false) y.1.2 := by
    rintro ⟨x, hreaches, hgoes⟩
    obtain ⟨y, hround, hgoes'⟩ := hgoes.next hreaches hclock
    exact ⟨⟨y, RunState.advance_reaches hreaches (by simp [hgoes.isOver]) hround, hgoes'⟩, hround⟩
  choose next hround using hnext
  refine ⟨c, fun n => (next^[n] ⟨(r, l₁), .begun hstart, hgoes⟩).1, hstart, ?_, ?_⟩
  · intro n
    exact (next^[n] _).2.2.isOver
  · intro n
    rw [Function.iterate_succ_apply']
    exact hround _

end InfeasibilityControl
