import Mathlib
import InfeasibilityControl.Proofs.Order.Exact
import InfeasibilityControl.Proofs.Run.Replay

set_option autoImplicit false
set_option relaxedAutoImplicit false

/-!
Runs in exact arithmetic that never end.

In exact arithmetic a radius that is halved again and again meets its floor. So a run that rests
from some round on comes to a standstill, and a run never ends exactly if it reaches one.
-/

namespace InfeasibilityControl

open RunState (afterTangent)

section

variable {F : Type} [Field F] [LinearOrder F] [IsStrictOrderedRing F] {floor bound : F} {b : ℕ → F}

private theorem le_of_halving (hfloor : 0 < floor)
    (h : ∀ n, b (n + 1) = b n ∨ b (n + 1) = max (b n / 2) floor) (hbound : floor ≤ bound)
    (hstart : b 0 ≤ bound) (n : ℕ) : b n ≤ bound := by
  induction n with
  | zero => exact hstart
  | succ n ih =>
    obtain hsame | hhalved := h n
    · rw [hsame]
      exact ih
    · rw [hhalved]
      exact max_le (by linarith) hbound

omit [IsStrictOrderedRing F] in
private theorem constant_or_halved
    (h : ∀ n, b (n + 1) = b n ∨ b (n + 1) = max (b n / 2) floor) :
    (∀ n, b n = b 0) ∨ ∃ n, b (n + 1) = max (b n / 2) floor := by
  by_cases hsame : ∀ n, b (n + 1) = b n
  · left
    intro n
    induction n with
    | zero => rfl
    | succ n ih => rw [hsame, ih]
  · right
    obtain ⟨n, hn⟩ := not_forall.1 hsame
    exact ⟨n, (h n).resolve_left hn⟩

/-- What is kept or halved at each step, but not below a positive floor, is constant from some step
on. -/
theorem constant_of_halving [Archimedean F] (hfloor : 0 < floor)
    (h : ∀ n, b (n + 1) = b n ∨ b (n + 1) = max (b n / 2) floor) :
    ∃ N, ∀ n, N ≤ n → b n = b N := by
  obtain ⟨k, hk⟩ := pow_unbounded_of_one_lt (b 0 / floor) one_lt_two
  have hstart : b 0 ≤ 2 ^ k * floor := (div_le_iff₀ hfloor).1 hk.le
  clear hk
  -- The number of halvings that lead from the first value to the floor decreases.
  induction k generalizing b with
  | zero =>
    obtain hconst | ⟨m, hm⟩ := constant_or_halved h
    · exact ⟨0, fun n _ => hconst n⟩
    have hlow := le_of_halving hfloor h (by simp) hstart m
    have hmet : b (m + 1) = floor := by
      rw [hm]
      exact max_eq_right (by linarith)
    refine ⟨m + 1, fun n hn => ?_⟩
    induction n, hn using Nat.le_induction with
    | base => rfl
    | succ n _ ih =>
      obtain hsame | hhalved := h n
      · rw [hsame, ih]
      · rw [hhalved, ih, hmet]
        exact max_eq_right (by linarith)
  | succ k ih =>
    obtain hconst | ⟨m, hm⟩ := constant_or_halved h
    · exact ⟨0, fun n _ => hconst n⟩
    have hfloor' : floor ≤ 2 ^ k * floor := le_mul_of_one_le_left hfloor.le (one_le_pow₀ one_le_two)
    have hlow := le_of_halving hfloor h (by rw [pow_succ]; linarith) hstart m
    have hnext : b (m + 1) ≤ 2 ^ k * floor := by
      rw [hm]
      refine max_le ?_ hfloor'
      rw [pow_succ] at hlow
      linarith
    obtain ⟨N, hN⟩ := ih (b := fun n => b (m + 1 + n)) (fun n => h (m + 1 + n)) hnext
    refine ⟨m + 1 + N, fun n hn => ?_⟩
    have hrest := hN (n - (m + 1)) (by omega)
    rwa [Nat.add_sub_cancel' (by omega : m + 1 ≤ n)] at hrest

end

variable {p : Problem ℝ} {settings : Settings ℝ} {policy : RegularizationPolicy ℝ}
  {start? : Option (Vec ℝ)} {l₀ l : Ledger ℝ} {c : RunContext ℝ} {m : Moment} {r : RunState ℝ}
  {x : ℕ → RunState ℝ}

theorem updateRadius_caps (bound rel floor : ℝ) : ∃ cap, floor ≤ cap ∧
    ∀ radius, updateRadius radius bound rel floor = min radius cap := by
  refine ⟨Scalar.max (Scalar.min rel 0.75 * bound) floor, ?_, fun radius => Scalar.real_min _ _⟩
  rw [Scalar.real_max]
  exact le_max_right _ _

theorem updateRadius_zero {floor : ℝ} (hfloor : 0 ≤ floor) (radius bound : ℝ) :
    updateRadius radius bound 0 floor = min radius floor := by
  have hmin : min (0 : ℝ) 0.75 = 0 := min_eq_left (by norm_num)
  rw [updateRadius, Scalar.real_min, Scalar.real_max, Scalar.real_min, hmin, zero_mul,
    max_eq_right hfloor]

theorem IdlesOn.radius_settles (h : IdlesOn c x)
    (hy : c.settings.leastSquaresMultipliers (x 0).iterate.jacobian (x 0).iterate.gradient =
      .ok (x 0).iterate.multipliers) (hfloor : 0 < c.tolerances.primal) :
    ∃ N, ∀ n, N ≤ n → (x n).iterate.radius = (x N).iterate.radius := by
  obtain ⟨g, -, hround⟩ := h.round hy
  choose rho kkt ending hrho hinside hflat hafter using hround
  obtain ⟨cap, hcap, hupdate⟩ := updateRadius_caps c.settings.radiusBound
    (relativeDual (Vec.norm g) (x 0).iterate.gradientNorm c.tolerances.dual) c.tolerances.primal
  have hrho : ∀ n, rho n = min (x n).iterate.radius cap := fun n => (hrho n).trans (hupdate _)
  have hle : ∀ n, rho n ≤ cap := fun n => (hrho n).trans_le (min_le_right _ _)
  have hstep : ∀ n, (x (n + 1)).iterate.radius = rho n ∨
      (x (n + 1)).iterate.radius = max (rho n / 2) c.tolerances.primal := by
    intro n
    have hradius := congrArg Prod.fst (hafter n)
    obtain ⟨-, -, hlow⟩ | ⟨-, hsame⟩ :=
      RunState.afterTangent_radius c.settings c.tolerances.primal (rho n) (ending n)
    · right
      rw [hlow, Scalar.real_max] at hradius
      have hhalf : (0.5 : ℝ) * rho n = rho n / 2 := by ring
      rw [← hhalf]
      exact hradius
    · left
      exact hradius.trans hsame
  -- A radius that a round leaves lies within the cap of the next one.
  have hkept : ∀ n, rho (n + 1) = (x (n + 1)).iterate.radius := by
    intro n
    rw [hrho]
    refine min_eq_left ?_
    have hwithin := hle n
    obtain hsame | hhalved := hstep n
    · rw [hsame]
      exact hwithin
    · rw [hhalved]
      exact max_le (by linarith) hcap
  obtain ⟨N, hN⟩ := constant_of_halving hfloor fun n => (hkept n).symm ▸ hstep n
  refine ⟨N + 1, fun n hn => ?_⟩
  obtain ⟨n, rfl⟩ := Nat.exists_eq_add_of_le' (by omega : 1 ≤ n)
  rw [← hkept, ← hkept, hN (n + 1) (by omega), hN (N + 1) (by omega)]

theorem Reaches.primalTolerance_pos (h : Reaches p settings policy start? l₀ c m r l)
    (habsolute : 0 < settings.absolute) (hrelative : 0 ≤ settings.relative) :
    0 < c.tolerances.primal := by
  obtain ⟨r₁, l₁, hstarts⟩ := h.started
  obtain ⟨d, -, htolerances⟩ := hstarts.tolerances
  have hnorm : 0 ≤ r₁.iterate.primalNorm := Real.sqrt_nonneg _
  rw [htolerances]
  exact add_pos_of_pos_of_nonneg habsolute (mul_nonneg hrelative hnorm)

theorem IdlesOn.exists_standsStill (h : IdlesOn c x) (hfloor : 0 < c.tolerances.primal) :
    ∃ n g rho, (x n).iterate.StandsStill c (x n).kkt g rho := by
  have hshift : ∀ m, IdlesOn c fun n => x (m + n) := fun m n => h (m + n)
  -- The first round settles the multipliers.
  obtain ⟨l, l', hidles⟩ := h 0
  have hy := hidles.multipliers
  rw [← hidles.shares.jacobian, ← hidles.shares.gradient] at hy
  obtain ⟨N, hN⟩ := (hshift 1).radius_settles hy hfloor
  have hlater : IdlesOn c fun n => x (1 + N + n) := hshift (1 + N)
  have hy' : c.settings.leastSquaresMultipliers (x (1 + N)).iterate.jacobian
      (x (1 + N)).iterate.gradient = .ok (x (1 + N)).iterate.multipliers := by
    have hshares := ((hshift 1).shares N).1
    have hsame := (hshift 1).multipliers hy N
    rw [hshares.jacobian, hshares.gradient, hsame]
    exact hy
  obtain ⟨g, rho, hstill⟩ := hlater.standsStill hy' fun n => by
    have hradius := hN (N + n) (by omega)
    rw [← Nat.add_assoc] at hradius
    exact hradius
  exact ⟨1 + N, g, rho, hstill⟩

/-- A standstill where the dual residual is below its tolerance is on the boundary: the stopping
test asks for a smaller primal residual than the tolerance, and the radius puts up with just as
much. -/
theorem Iterate.StandsStill.primalNorm_eq {s : Iterate ℝ} {kkt : KktSystem ℝ} {g : Vec ℝ} {rho : ℝ}
    (h : s.StandsStill c kkt g rho) (hfloor : 0 < c.tolerances.primal)
    (hdual : Vec.norm g < c.tolerances.dual) : s.primalNorm = c.tolerances.primal := by
  have hradius : rho ≤ c.tolerances.primal := by
    have hrel : relativeDual (Vec.norm g) s.gradientNorm c.tolerances.dual = 0 := if_pos hdual
    rw [h.radius, hrel, updateRadius_zero hfloor.le]
    exact min_le_right _ _
  have hfails : ¬ s.primalNorm < c.tolerances.primal := fun hprimal =>
    h.fails ⟨hprimal, Vec.norm g, Iterate.freshDualNorm_eq h.gradient, hdual⟩
  exact le_antisymm (h.inside.trans hradius) (not_lt.1 hfails)

/-- In exact arithmetic, with positive tolerances and a clock that stands still, a run never ends
exactly if it reaches a standstill. -/
theorem neverEnds_iff_standsStill (hclock : l₀.clock.IsStill p.evaluationTime)
    (habsolute : 0 < settings.absolute) (hrelative : 0 ≤ settings.relative) :
    NeverEnds p settings policy start? l₀ ↔
      ∃ c r l g rho, Reaches p settings policy start? l₀ c (.before false) r l ∧
        r.isOver = false ∧ r.iterate.StandsStill c r.kkt g rho := by
  constructor
  · intro h
    obtain ⟨c, course, hcourse⟩ := h.runsForEver hclock.neverGoesBack
    obtain ⟨N, hN⟩ := hcourse.idles hclock.neverGoesBack
    have hidles : IdlesOn c fun n => (course (N + n)).1 := fun n =>
      ⟨_, _, hN (N + n) (Nat.le_add_right N n)⟩
    have hfloor := (hcourse.reaches 0).primalTolerance_pos habsolute hrelative
    obtain ⟨n, g, rho, hstill⟩ := hidles.exists_standsStill hfloor
    exact ⟨c, _, _, g, rho, hcourse.reaches (N + n), hcourse.goes (N + n), hstill⟩
  · rintro ⟨c, r, l, g, rho, hreaches, hover, hstill⟩
    exact hreaches.neverEnds hclock hover hstill

/-- The origin is to be found on a line, and all its points are equally good. -/
def realLine : Problem ℝ where
  name := "real_line"
  start := [1]
  constraintCount := 1
  inequalityCount := 0
  bounded := false
  evaluationTime := 0
  objective := fun _ => .ok 0
  gradient := fun _ => .ok [0]
  constraints := fun x => .ok x
  jacobianPattern := [⟨0, 0⟩]
  jacobianValues := fun _ => .ok [1]
  hessianPattern := []
  hessianValues := fun _ _ _ => .ok []

/-- The tolerances are one. -/
noncomputable def Settings.coarse : Settings ℝ := { standard with absolute := 1, relative := 0 }

namespace realLine

theorem still : (Ledger.empty : Ledger ℝ).clock.IsStill realLine.evaluationTime :=
  ⟨add_zero 0, fun _ => rfl⟩

/-- What is known at the start. -/
noncomputable def first : Iterate ℝ where
  point := [1]
  objective := 0
  constraints := [1]
  gradient := [0]
  jacobian := ⟨1, 1, [[some 1]]⟩
  multipliers := [0]
  radius := Settings.coarse.radiusBound
  iteration := 0
  lagrangianGradient? := none

/-- The KKT system at every point. -/
noncomputable def system (r : Regularization ℝ) (jacobianValues : List ℝ) : KktSystem ℝ where
  variableCount := 1
  constraintCount := 1
  hessianPattern := []
  jacobianPattern := [⟨0, 0⟩]
  hessianValues := []
  jacobianValues
  gamma := r.gamma
  delta := r.delta

theorem first_isExact : first.IsExact realLine := ⟨rfl, rfl, rfl, rfl⟩

theorem first_multipliers :
    Settings.coarse.leastSquaresMultipliers first.jacobian first.gradient =
      .ok first.multipliers := by
  simp [Settings.leastSquaresMultipliers, first, LeastSquares.solve, SparseMatrix.operator,
    Operator.transpose, Vec.negate, Vec.isNonzero, Vec.zeros, Except.map, Scalar.real_beq]

theorem first_gradient : first.freshLagrangianGradient = .ok [0] := by
  simp [Iterate.freshLagrangianGradient, first, SparseMatrix.applyTransposed, SparseMatrix.addRow,
    Vec.add, Vec.combine, Vec.zeros]

theorem norm_one : Vec.norm [(1 : ℝ)] = 1 := by
  have hnorm : Vec.norm [(1 : ℝ)] = Real.sqrt (0 + 1 * 1) := rfl
  rw [hnorm, zero_add, one_mul, Real.sqrt_one]

theorem norm_zero : Vec.norm [(0 : ℝ)] = 0 := by
  have hnorm : Vec.norm [(0 : ℝ)] = Real.sqrt (0 + 0 * 0) := rfl
  rw [hnorm, zero_add, zero_mul, Real.sqrt_zero]

theorem system_matrix (r : Regularization ℝ) : (system r [1]).matrix =
    .ok [[r.gamma + r.gamma - r.gamma, 0 + 1 - 0],
      [1 + 0 - 0, -r.delta + -r.delta - -r.delta]] := rfl

theorem system_solve : (system .standard [1]).solve [-0, 0] = .ok ([0], [0]) := by
  have hpivot : Scalar.abs (1e-8 : ℝ) < Scalar.abs 1 := by
    have hlt : |(1e-8 : ℝ)| < |1| := by norm_num
    exact hlt
  have hregular : ¬ (1 + 1e-8 * 1e-8 : ℝ) = 0 := by norm_num
  have hsolution : Equation.solve 2 [⟨[(1e-8 : ℝ), 1], 0⟩, ⟨[1, -1e-8], 0⟩] = some [0, 0] := by
    simp [Equation.solve, Equation.takePivot, Equation.leading, Equation.reduce, hpivot,
      hregular, Scalar.real_beq, Vec.minus, Vec.scale, Vec.dot]
  simp only [KktSystem.solve, KktSystem.dimension, system_matrix]
  simp [system, Regularization.standard, bind, Except.bind, Scalar.isFinite, hsolution, pure,
    Except.pure]

theorem coarse_radiusBound : Settings.coarse.radiusBound = 1 := by
  have hone : (1.0 : ℝ) = 1 := by norm_num
  exact hone

theorem isNonzero_zero : Vec.isNonzero [(0 : ℝ)] = false := by
  simp [Vec.isNonzero, Scalar.real_beq]

theorem system_searchDirection (J : SparseMatrix ℝ) (tolerances : LeastSquares.Tolerances ℝ) :
    Counted.Always ((system .standard [1]).searchDirection [0] J tolerances) ([0], .kkt) := by
  have hdirection : (system .standard [1]).descentDirection? [0] = .ok (some [0]) := by
    have hsolve : (system .standard [1]).solve
        ((system .standard [1]).directionRightSide [0]) = .ok ([0], [0]) := system_solve
    simp [KktSystem.descentDirection?, hsolve, Vec.inner, isNonzero_zero, bind, Except.bind, pure,
      Except.pure]
  intro l
  refine ⟨l, ?_⟩
  simp [KktSystem.searchDirection, hdirection]

theorem first_flat {c : RunContext ℝ} (hproblem : c.problem = realLine)
    (hpolicy : c.policy = .fixed .standard) (n : ℕ) :
    (((first.recalling (some [0])).settled first.multipliers 1 (some [0])).later n).IsFlat c
      (system ⟨0, 0⟩ [0]) (system .standard [1]) .stationary := by
  refine ⟨.standard, [0], 0 + Vec.dot [0] [1], [0], .kkt, Vec.dot [0] [0], ?_, ?_, first_gradient,
    rfl, system_searchDirection _ _, rfl, ?_⟩
  · rw [hpolicy]
    rfl
  · rw [hproblem]
    rfl
  · simp [flatEnding?, isNonzero_zero]

theorem first_standsStill {c : RunContext ℝ} (hproblem : c.problem = realLine)
    (hsettings : c.settings = .coarse) (hpolicy : c.policy = .fixed .standard)
    (htolerances : c.tolerances = ⟨1, 1⟩) :
    (first.recalling (some [0])).StandsStill c (system ⟨0, 0⟩ [0]) [0] 1 := by
  have hrel : relativeDual (Vec.norm [0]) (first.recalling (some [0])).gradientNorm 1 = 0 := by
    rw [norm_zero, relativeDual, if_pos]
    exact one_pos
  refine ⟨?_, first_gradient, ?_, ?_, ?_, ?_, fun n => ?_⟩
  · simp [first, Iterate.recalling, Vec.coincides, Scalar.real_beq]
  · rw [hsettings]
    exact first_multipliers
  · rw [htolerances]
    rintro ⟨hprimal, -⟩
    have hone : (first.recalling (some [0])).primalNorm = 1 := norm_one
    rw [hone] at hprimal
    exact lt_irrefl _ hprimal
  · have hradius : (first.recalling (some [0])).radius = 1 := coarse_radiusBound
    rw [hsettings, htolerances, hrel, coarse_radiusBound, updateRadius_zero zero_le_one, hradius,
      min_self]
  · exact norm_one.le
  · refine ⟨system .standard [1], .stationary, first_flat hproblem hpolicy n, ?_⟩
    exact Prod.ext coarse_radiusBound rfl

theorem starts : ∃ c r l,
    Reaches realLine .coarse (.fixed .standard) none .empty c (.before false) r l ∧
      r.isOver = false ∧ r.iterate.StandsStill c r.kkt [0] 1 := by
  obtain ⟨c, r, l, hstart, hiterate, hkkt, htime⟩ := startRun_of_exact (s := first)
    (p := realLine) (.fixed .standard) none rfl rfl rfl rfl rfl rfl rfl first_isExact
    first_multipliers first_gradient Ledger.empty
  have hreaches := Reaches.begun hstart
  have hstarts := startRun_returns hstart
  have htolerances : c.tolerances = ⟨1, 1⟩ := by
    obtain ⟨d, hd, htolerances⟩ := hstarts.tolerances
    have hzero : d = 0 := by
      rw [hiterate, Iterate.freshDualNorm_eq (s := first.recalling (some [0])) first_gradient,
        norm_zero] at hd
      exact (Except.ok.inj hd).symm
    have habsolute : Settings.coarse.absolute = 1 := rfl
    have hrelative : Settings.coarse.relative = 0 := rfl
    rw [htolerances, habsolute, hrelative, zero_mul, zero_mul, add_zero]
  have hstill : r.iterate.StandsStill c r.kkt [0] 1 := by
    rw [hiterate, hkkt]
    exact first_standsStill hstarts.context.1 hstarts.context.2.1 hstarts.context.2.2 htolerances
  have hsolved : r.solved = false := by
    have hfails := hstill.fails
    rwa [← hstarts.solved, Bool.not_eq_true] at hfails
  have htired : r.tired = none := by
    rw [← hreaches.told.verdict_eq still, Budget.verdict_look_eq_none_iff, hstarts.budget.1,
      hstarts.budget.2, hstarts.spent.evaluations, hstarts.spent.time_eq still, htime]
    have hrestart : (Ledger.empty : Ledger ℝ).restart.time = Ledger.empty.time := rfl
    have hmaxTime : (0 : ℝ) ≤ Settings.coarse.maxTime := by
      have hsixty : (0 : ℝ) ≤ 60.0 := by norm_num
      exact hsixty
    refine ⟨by decide, ?_⟩
    rw [hrestart, sub_self]
    exact not_lt.2 hmaxTime
  refine ⟨c, r, l, hreaches, ?_, hstill⟩
  simp [RunState.isOver, hsolved, htired, hstarts.flags]

end realLine

theorem realLine_neverEnds : (Ledger.empty : Ledger ℝ).clock.IsStill realLine.evaluationTime ∧
    0 < Settings.coarse.absolute ∧ 0 ≤ Settings.coarse.relative ∧
    NeverEnds realLine .coarse (.fixed .standard) none .empty := by
  obtain ⟨c, r, l, hreaches, hover, hstill⟩ := realLine.starts
  have habsolute : 0 < Settings.coarse.absolute := one_pos
  have hrelative : 0 ≤ Settings.coarse.relative := le_rfl
  exact ⟨realLine.still, habsolute, hrelative, (neverEnds_iff_standsStill realLine.still habsolute
    hrelative).2 ⟨c, r, l, [0], 1, hreaches, hover, hstill⟩⟩

end InfeasibilityControl
