import InfeasibilityControl.Proofs.LineSearch
import InfeasibilityControl.Proofs.Order.Float
import InfeasibilityControl.Proofs.Run.Course

set_option autoImplicit false
set_option relaxedAutoImplicit false

/-!
A tangent step takes the first acceptable step along its direction.

The search direction is found without reading the clock and without an evaluation that a budget
pays for, so the checks of the line search see the same as if the search had begun with the step.
-/

namespace InfeasibilityControl

open Counted (Returns Completes completes_pure completes_ite completes_ok completes_always)
open Ledger (Spends)

variable {K : Type} [Scalar K] {l l' : Ledger K} {p : Problem K} {b : Budget K}

theorem SparseMatrix.projectOntoNullSpace_clock {J : SparseMatrix K} {v w : Vec K}
    {tolerances : LeastSquares.Tolerances K} {limit? : Option Int}
    (h : Returns (J.projectOntoNullSpace v tolerances limit?) l w l') : l'.clock = l.clock := by
  simp only [projectOntoNullSpace, transposedLeastSquares, transposedProduct, Counted.count,
    Counted.recordSolve, Counted.returns_bind, Counted.returns_ite, Counted.returns_modify,
    Counted.returns_pure, Counted.returns_except, Counted.not_returns_throw, and_false,
    or_false] at h
  obtain ⟨_, _, ⟨_, _, ⟨-, rfl⟩, _, _, rfl, _, _, rfl, -, rfl⟩, _, _, ⟨-, _, _, rfl, -, rfl⟩, -,
    rfl⟩ := h
  rfl

theorem KktSystem.searchDirection_clock {kkt : KktSystem K} {gradient : Vec K} {J : SparseMatrix K}
    {tolerances : LeastSquares.Tolerances K} {x : Vec K × DirectionKind}
    (h : Returns (kkt.searchDirection gradient J tolerances) l x l') : l'.clock = l.clock := by
  obtain ⟨-, -, rfl⟩ | ⟨-, -, t, ht, -⟩ := searchDirection_cases h
  · rfl
  · exact SparseMatrix.projectOntoNullSpace_clock ht

theorem LineSearch.arrives_of_searchDirection {kkt : KktSystem K} {gradient : Vec K}
    {J : SparseMatrix K} {tolerances : LeastSquares.Tolerances K} {x : Vec K × DirectionKind}
    (h : Returns (kkt.searchDirection gradient J tolerances) l x l') : Arrives p l l' 0 where
  spent := (KktSystem.searchDirection_quiet h).toRests.spends
  readings := congrArg Clock.readings (KktSystem.searchDirection_clock h)

/-- A step size is acceptable if the merit at its point is finite and has decreased sufficiently and
the constraints there are at most the grown radius. -/
theorem tangentLine_isAcceptable_iff {options : TangentOptions K}
    {origin multipliers d x c : Vec K} {slope merit radius f : K} {k : Nat}
    (hx : Vec.add origin (Vec.scale
      ((tangentLine options origin multipliers d slope merit radius).stepAt k) d) = .ok x)
    (hf : p.objective x = .ok f) (hc : p.constraints x = .ok c)
    (hlength : multipliers.length = c.length) :
    (tangentLine options origin multipliers d slope merit radius).IsAcceptable p k ↔
      (Scalar.isFinite (f + Vec.dot multipliers c) = true ∧
        f + Vec.dot multipliers c ≤ merit + options.sufficient *
          (tangentLine options origin multipliers d slope merit radius).stepAt k * slope) ∧
      Vec.norm c ≤ options.growth * radius := by
  have htrial : (tangentLine options origin multipliers d slope merit radius).trialAt p 0 k =
      .ok ⟨_, 0, x, f + Vec.dot multipliers c, Vec.norm c⟩ :=
    LineSearch.trialAt_eq hx hf hc hlength
  rw [LineSearch.isAcceptable_iff htrial, LineSearch.accepts_iff]
  rfl

/-- The step is the first acceptable one along the line, if there is one before the search has to be
given up and before the budget is exhausted. -/
structure TangentOutcome.IsFirstAcceptable (p : Problem K) (b : Budget K) (line : LineSearch K)
    (o : TangentOutcome K) (l l' : Ledger K) : Prop where
  success_iff : ∀ k, o.ending.name = "success" ∧ o.trials.length = k + 1 ↔ line.Succeeds p b l k
  moves : ∀ k, line.Succeeds p b l k →
    Vec.add line.origin (Vec.scale (line.stepAt k) line.direction) = .ok o.point ∧
      o.stepSize = line.stepAt k
  unsuccessful_iff : ∀ k, o.ending.name = "unsuccessful" ∧ o.trials.length = k + 1 ↔
    line.GivesUp p b l k
  growth_iff : o.ending.name = "unsuccessful" →
    (o.ending.complaint.message = "Small steps did not keep infeasibility bounded." ↔
      ∃ t ∈ o.trials.getLast?, ¬ t.primalNorm ≤ line.allowed)
  otherwise : (∀ k, ¬ line.Succeeds p b l k) → (∀ k, ¬ line.GivesUp p b l k) →
    ∃ limit, o.ending.name = limit.name ∧
      b.verdict (b.lookAfter p.evaluationTime l o.trials.length) = some limit
  stays : o.ending.name ≠ "success" → o.point = line.origin ∧ o.stepSize = 0
  trial : ∀ k t, o.trials[k]? = some t →
    line.trialAt p (l.counters.evaluations + 2 * k) k = .ok t
  /-- The objective and the constraints are evaluated once a trial, and nothing else is. -/
  spent : Spends p.evaluationTime ⟨o.trials.length, 0, o.trials.length, 0, 0⟩ l l'
  within : (o.trials.length : Int) ≤ max 0 ((b.maxEvaluations - l.counters.evaluations) / 2 + 1)
  spends_all : o.ending.name = "max_eval" →
    (o.trials.length : Int) = max 0 ((b.maxEvaluations - l.counters.evaluations) / 2 + 1)

section

variable {kkt : KktSystem K} {options : TangentOptions K} {origin multipliers gradient : Vec K}
  {J : SparseMatrix K} {merit radius : K} {o : TangentOutcome K} {d : Vec K}
  {kind : DirectionKind} {slope : K}

/-- Along a direction of descent a tangent step is a line search: it ends as the search does and
moves to the last trial if that is acceptable. -/
theorem tangentStep_stops
    (h : Returns (tangentStep p kkt options b origin multipliers gradient J merit radius) l o l')
    (hd : Counted.Always (kkt.searchDirection gradient J options.tolerances) (d, kind))
    (hslope : Vec.inner gradient d = .ok slope) (hnonzero : Vec.isNonzero d = true)
    (hdescent : ¬ 0 ≤ slope) :
    (tangentLine options origin multipliers d slope merit radius).Stops p b l o.trials o.ending ∧
      (o.ending.name = "success" →
        ∃ t ∈ o.trials.getLast?, o.point = t.point ∧ o.stepSize = t.stepSize) ∧
      (o.ending.name ≠ "success" → o.point = origin ∧ o.stepSize = 0) := by
  obtain ⟨d', kind', slope', l₁, hd', hslope', hcases⟩ := tangentStep_cases h
  obtain ⟨l₀, hd₀⟩ := hd l
  obtain ⟨hsame, rfl⟩ := hd'.unique hd₀
  obtain ⟨rfl, rfl⟩ := Prod.mk.inj hsame
  obtain rfl : slope' = slope := Except.ok.inj (hslope'.symm.trans hslope)
  obtain ⟨ending, hflat, -, -⟩ | ⟨-, ending, trials, hsearch, hends⟩ := hcases
  · simp [flatEnding?, hnonzero, hdescent] at hflat
  have hstops : (tangentLine options origin multipliers d' slope' merit radius).Stops p b l
      trials.reverse ending := by
    refine LineSearch.iterate_one_stops hsearch (LineSearch.arrives_of_searchDirection hd') ?_
    rw [← (KktSystem.searchDirection_quiet hd').toRests.evaluations]
    exact LineSearch.trialBound_exceeds b _
  cases hends with
  | moves trial earlier =>
    refine ⟨hstops, fun _ => ⟨trial, ?_, rfl, rfl⟩, fun hname => absurd rfl hname⟩
    rw [List.reverse_cons, List.getLast?_concat]
    rfl
  | stays fruitless =>
    refine ⟨hstops, fun hname => ?_, fun _ => ⟨rfl, rfl⟩⟩
    obtain ⟨haccepted, htried⟩ := hstops.accepted_of_name hname
    exact absurd (List.reverse_eq_nil_iff.2 (fruitless haccepted)) htried

theorem completes_tangentStep (b : Budget K)
    (hd : Counted.Always (kkt.searchDirection gradient J options.tolerances) (d, kind))
    (hslope : Vec.inner gradient d = .ok slope)
    (hdefined : ∀ k, ∃ t,
      (tangentLine options origin multipliers d slope merit radius).trialAt p 0 k = .ok t) :
    Completes (tangentStep p kkt options b origin multipliers gradient J merit radius)
      fun _ => True := by
  refine Completes.bind (P := fun x => x = (d, kind)) (completes_always hd rfl) ?_
  rintro _ rfl
  refine Completes.bind (completes_ok hslope) ?_
  rintro _ rfl
  refine completes_ite (fun _ => completes_pure trivial) fun _ =>
    completes_ite (fun _ => completes_pure trivial) fun _ =>
      Budget.completes_evaluations.bind fun spent _ => ?_
  refine (LineSearch.completes_search hdefined _ []).bind ?_
  rintro ⟨ending, trials⟩ -
  split
  · exact completes_pure trivial
  · exact completes_pure trivial

theorem exists_fullStep
    (hd : Counted.Always (kkt.searchDirection gradient J options.tolerances) (d, kind))
    (hslope : Vec.inner gradient d = .ok slope) (hnonzero : Vec.isNonzero d = true)
    (hdescent : ¬ 0 ≤ slope)
    (hdefined : ∀ k, ∃ t,
      (tangentLine options origin multipliers d slope merit radius).trialAt p 0 k = .ok t)
    (hacceptable : (tangentLine options origin multipliers d slope merit radius).IsAcceptable p 0)
    (hwithin : LineSearch.InBudget p b l 0) :
    ∃ o l', Returns (tangentStep p kkt options b origin multipliers gradient J merit radius)
        l o l' ∧
      o.ending.name = "success" ∧ o.direction = kind ∧ o.trials.length = 1 ∧
      Vec.add origin (Vec.scale 1 d) = .ok o.point := by
  obtain ⟨o, l', ho, -⟩ := completes_tangentStep b hd hslope hdefined l
  obtain ⟨hstops, hmoves, -⟩ := tangentStep_stops ho hd hslope hnonzero hdescent
  have hsucceeds : (tangentLine options origin multipliers d slope merit radius).Succeeds p b l
      0 := by
    refine ⟨hacceptable, by simp, by simp, fun j hj => ?_⟩
    rwa [Nat.le_zero.1 hj]
  obtain ⟨hname, hone⟩ := (hstops.success_iff 0).2 hsucceeds
  obtain ⟨last, hlast, hmoved, -⟩ := hmoves hname
  rw [List.getLast?_eq_getElem?, hone] at hlast
  obtain ⟨hadd, -⟩ := LineSearch.of_trialAt (hstops.made.trial _ last hlast)
  refine ⟨o, l', ho, hname, tangentStep_direction ho hd, hone, ?_⟩
  rw [hmoved]
  exact hadd

theorem LineSearch.Stops.isFirstAcceptable {line : LineSearch K} {o : TangentOutcome K}
    (h : line.Stops p b l o.trials o.ending)
    (hmoves : o.ending.name = "success" →
      ∃ t ∈ o.trials.getLast?, o.point = t.point ∧ o.stepSize = t.stepSize)
    (hstays : o.ending.name ≠ "success" → o.point = line.origin ∧ o.stepSize = 0)
    (hspent : Spends p.evaluationTime ⟨o.trials.length, 0, o.trials.length, 0, 0⟩ l l') :
    o.IsFirstAcceptable p b line l l' where
  success_iff := h.success_iff
  moves k hsucceeds := by
    obtain ⟨hname, hlength⟩ := (h.success_iff k).2 hsucceeds
    obtain ⟨t, ht, hpoint, hstepSize⟩ := hmoves hname
    rw [List.getLast?_eq_getElem?, hlength, Nat.add_sub_cancel] at ht
    obtain ⟨hadd, hsize⟩ := LineSearch.of_trialAt (h.made.trial k t ht)
    exact ⟨by rw [hpoint, hadd], by rw [hstepSize, hsize]⟩
  unsuccessful_iff := h.unsuccessful_iff
  growth_iff := h.growth_iff
  otherwise := h.otherwise
  stays := hstays
  trial := h.made.trial
  spent := hspent
  within := h.made.length_le
  spends_all hname := by
    obtain ⟨-, hpast⟩ := h.exhausted_of_name hname
    have hlength := h.made.length_le
    omega

/-- Along a direction of descent the first acceptable step is taken. A step ends where the trials
along its line can be made, and however it ends, it is what the line, the budget and the clock
say it is to be. -/
theorem tangentStep_isFirstAcceptable [ComparableScalar K] (p : Problem K) (b : Budget K)
    (options : TangentOptions K) (origin multipliers : Vec K) (merit radius : K)
    (hd : Counted.Always (kkt.searchDirection gradient J options.tolerances) (d, kind))
    (hslope : Vec.inner gradient d = .ok slope) (hnonzero : Vec.isNonzero d = true)
    (hdescent : slope < 0) (l : Ledger K) :
    ((∀ k, ∃ t, (tangentLine options origin multipliers d slope merit radius).trialAt p 0 k =
        .ok t) →
      ∃ o l', Returns (tangentStep p kkt options b origin multipliers gradient J merit radius)
        l o l') ∧
    ∀ o l', Returns (tangentStep p kkt options b origin multipliers gradient J merit radius)
        l o l' →
      o.IsFirstAcceptable p b (tangentLine options origin multipliers d slope merit radius)
        l l' := by
  have hdownhill : ¬ 0 ≤ slope := fun huphill =>
    ComparableScalar.lt_irrefl _ (ComparableScalar.lt_of_le_of_lt huphill hdescent)
  constructor
  · intro hdefined
    obtain ⟨o, l', hreturns, -⟩ := completes_tangentStep b hd hslope hdefined l
    exact ⟨o, l', hreturns⟩
  · intro o l' h
    obtain ⟨hstops, hmoves, hstays⟩ := tangentStep_stops h hd hslope hnonzero hdownhill
    exact hstops.isFirstAcceptable hmoves hstays (tangentStep_returns h).spent

end

/-- The KKT system of the parabola at its start. -/
def parabolaKkt : KktSystem Float where
  variableCount := 1
  constraintCount := 1
  hessianPattern := parabola.hessianPattern
  jacobianPattern := parabola.jacobianPattern
  hessianValues := [2]
  jacobianValues := []
  gamma := 0
  delta := 1

/-- A search along the parabola that insists on three quarters of the linear decrease. -/
def TangentOptions.demanding : TangentOptions Float where
  growth := 2
  sufficient := 0.75
  reduction := 0.5
  minStep := 1e-10
  tolerances := .standard

/-- The full step to the least value is not enough of a decrease, half of it is. -/
theorem parabola_isFirstAcceptable :
    Counted.Always (parabolaKkt.searchDirection [2] ⟨1, 1, [[none]]⟩
      TangentOptions.demanding.tolerances) ([-1], .kkt) ∧
    Vec.inner [2] [(-1 : Float)] = .ok (-2) ∧ Vec.isNonzero [(-1 : Float)] = true ∧
    (-2 : Float) < 0 ∧
    (∀ k, ∃ t, (tangentLine .demanding [1] [0] [-1] (-2) 1 1).trialAt parabola 0 k = .ok t) ∧
    ∃ o l', Returns (tangentStep parabola parabolaKkt .demanding ⟨100, 60, 0⟩ [1] [0] [2]
        ⟨1, 1, [[none]]⟩ 1 1) .empty o l' ∧
      o.IsFirstAcceptable parabola ⟨100, 60, 0⟩ (tangentLine .demanding [1] [0] [-1] (-2) 1 1)
        .empty l' ∧
      o.ending.name = "success" ∧ o.trials.length = 2 := by
  have hd : Counted.Always (parabolaKkt.searchDirection [2] ⟨1, 1, [[none]]⟩
      TangentOptions.demanding.tolerances) ([-1], .kkt) := by
    have hvalue : Counted.value? (parabolaKkt.searchDirection [2] ⟨1, 1, [[none]]⟩
        TangentOptions.demanding.tolerances) .empty = some ([-1], .kkt) := by decide +kernel
    obtain ⟨l, hreturns⟩ := Counted.value?_eq_some_iff.1 hvalue
    exact KktSystem.searchDirection_isBlind _ _ _ hreturns
  have hslope : Vec.inner [2] [(-1 : Float)] = .ok (-2) := by
    have hdot : Vec.dot [2] [(-1 : Float)] = -2 := by decide +kernel
    have hlength : [(2 : Float)].length = [(-1 : Float)].length := rfl
    rw [Vec.inner_of_length hlength, hdot]
  have hnonzero : Vec.isNonzero [(-1 : Float)] = true := by decide +kernel
  have hdescent : (-2 : Float) < 0 := by decide +kernel
  have hdefined : ∀ k, ∃ t,
      (tangentLine .demanding [1] [0] [-1] (-2) 1 1).trialAt parabola 0 k = .ok t :=
    fun k => ⟨_, rfl⟩
  have hsteps : (Counted.value? (tangentStep parabola parabolaKkt .demanding ⟨100, 60, 0⟩ [1] [0]
      [2] ⟨1, 1, [[none]]⟩ 1 1) .empty).any
        (fun o => decide (o.ending.name = "success" ∧ o.trials.length = 2)) = true := by
    decide +kernel
  obtain ⟨o, hvalue, htwo⟩ := (Option.any_eq_true _ _).1 hsteps
  obtain ⟨l₁, hreturns₁⟩ := Counted.value?_eq_some_iff.1 hvalue
  obtain ⟨hends, hfirst⟩ := tangentStep_isFirstAcceptable parabola ⟨100, 60, 0⟩ .demanding [1] [0]
    1 1 hd hslope hnonzero hdescent .empty
  obtain ⟨o', l', hreturns⟩ := hends hdefined
  obtain ⟨rfl, -⟩ := hreturns₁.unique hreturns
  exact ⟨hd, hslope, hnonzero, hdescent, hdefined, o, l', hreturns, hfirst o l' hreturns,
    of_decide_eq_true htwo⟩

end InfeasibilityControl
