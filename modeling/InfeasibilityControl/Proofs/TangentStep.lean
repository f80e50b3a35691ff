import InfeasibilityControl.Proofs.Evaluation

set_option autoImplicit false
set_option relaxedAutoImplicit false

/-!
What a tangent step spends and how it ends.

Every trial of the line search costs an evaluation of the objective and one of the constraints, and
is made only while there are evaluations left. Without a trial the step stays where it is, at a
stationary point, for want of descent or for want of budget; and it claims to have run out of budget
only if a check of the budget says so. A step that moves ends where the constraints are within the
bound.
-/

namespace InfeasibilityControl

open Counted (Returns)
open Ledger (Spends Rests Quiet)

variable {K : Type} [Scalar K] {l l' : Ledger K} {p : Problem K} {b : Budget K}

theorem KktSystem.searchDirection_cases {kkt : KktSystem K} {gradient d : Vec K}
    {J : SparseMatrix K} {tolerances : LeastSquares.Tolerances K} {kind : DirectionKind}
    (h : Returns (kkt.searchDirection gradient J tolerances) l (d, kind) l') :
    (kkt.descentDirection? gradient = .ok (some d) ∧ kind = .kkt ∧ l' = l) ∨
      kkt.descentDirection? gradient = .ok none ∧ kind = .projectedGradient ∧
        ∃ t, Returns (J.projectOntoNullSpace gradient tolerances none) l t l' ∧
          d = Vec.negate t := by
  simp only [searchDirection, Counted.returns_bind, Counted.returns_except] at h
  obtain ⟨d?, _, ⟨hd?, rfl⟩, h⟩ := h
  cases d? with
  | some d =>
    simp only [Counted.returns_pure, Prod.mk.injEq] at h
    obtain ⟨⟨rfl, rfl⟩, rfl⟩ := h
    exact .inl ⟨hd?, rfl, rfl⟩
  | none =>
    simp only [Counted.returns_bind, Counted.returns_pure, Prod.mk.injEq] at h
    obtain ⟨t, _, ht, ⟨rfl, rfl⟩, rfl⟩ := h
    exact .inr ⟨hd?, rfl, t, ht, rfl⟩

theorem KktSystem.searchDirection_quiet {kkt : KktSystem K} {gradient : Vec K} {J : SparseMatrix K}
    {tolerances : LeastSquares.Tolerances K} {x : Vec K × DirectionKind}
    (h : Returns (kkt.searchDirection gradient J tolerances) l x l') : Quiet l l' := by
  obtain ⟨-, -, rfl⟩ | ⟨-, -, t, ht, -⟩ := searchDirection_cases h
  · exact .refl
  · exact SparseMatrix.projectOntoNullSpace_quiet ht

theorem KktSystem.searchDirection_isBlind {kkt : KktSystem K} {gradient : Vec K}
    {J : SparseMatrix K} {tolerances : LeastSquares.Tolerances K} :
    Counted.IsBlind (kkt.searchDirection gradient J tolerances) := by
  refine Counted.isBlind_bind Counted.isBlind_except fun d? => ?_
  cases d? with
  | some d => exact Counted.isBlind_pure
  | none =>
    exact Counted.isBlind_bind SparseMatrix.projectOntoNullSpace_isBlind fun _ =>
      Counted.isBlind_pure

namespace LineSearch

variable {line : LineSearch K}

theorem decreases_iff {t : LineTrial K} : line.decreases t = true ↔
    Scalar.isFinite t.merit = true ∧
      t.merit ≤ line.merit + line.options.sufficient * t.stepSize * line.slope := by
  rw [decreases, Bool.and_eq_true_iff, decide_eq_true_iff, required]

theorem bounds_iff {t : LineTrial K} : line.bounds t = true ↔ t.primalNorm ≤ line.allowed :=
  decide_eq_true_iff

theorem evaluate_returns {stepSize : K} {t : LineTrial K}
    (h : Returns (line.evaluate p stepSize) l t l') :
    t.stepSize = stepSize ∧ t.evaluationsBefore = l.counters.evaluations ∧
      (∃ c, p.constraints t.point = .ok c ∧ t.primalNorm = Vec.norm c) ∧
      Spends p.evaluationTime ⟨1, 0, 1, 0, 0⟩ l l' := by
  simp only [evaluate, Counted.returns_bind, Counted.returns_pure, Counted.returns_except,
    Budget.evaluations_returns] at h
  obtain ⟨point, _, ⟨-, rfl⟩, _, _, ⟨rfl, rfl⟩, f, _, hf, c, _, hc, _, _, ⟨-, rfl⟩, rfl, rfl⟩ := h
  obtain ⟨hc, hspent⟩ := Problem.constraintsAt_returns hc
  exact ⟨rfl, rfl, ⟨c, hc, rfl⟩, (Problem.objectiveAt_returns hf).2.trans hspent⟩

theorem failure_ne_exhausted (line : LineSearch K) (t : LineTrial K) (limit : Limit) :
    line.failure t ≠ .exhausted limit := by
  unfold failure
  split <;> simp

theorem failure_ne_accepted (line : LineSearch K) (t : LineTrial K) :
    line.failure t ≠ .accepted := by
  unfold failure
  split <;> simp

omit [Scalar K] in
theorem trialBound_exceeds (b : Budget K) (spent : Nat) :
    b.maxEvaluations < (spent + 2 * trialBound b spent : Int) := by
  simp only [trialBound]
  omega

/-- A search that makes these trials, the last one first, and ends in this way. -/
structure Ends (p : Problem K) (b : Budget K) (line : LineSearch K) (made : List (LineTrial K))
    (ending : TangentEnding K) (l l' : Ledger K) : Prop where
  spent : Spends p.evaluationTime ⟨made.length, 0, made.length, 0, 0⟩ l l'
  within : ∀ t ∈ made, (t.evaluationsBefore : Int) ≤ b.maxEvaluations
  /-- The last trial is the only one that may exceed the budget. -/
  ceiling : made = [] ∨ (l'.counters.evaluations : Int) ≤ b.maxEvaluations + 2
  accepted : ending = .accepted → ∀ t ∈ made.head?,
    ∃ c, p.constraints t.point = .ok c ∧ Vec.norm c ≤ line.allowed
  exhausted : ∀ limit, ending = .exhausted limit → b.RanOut p.evaluationTime l l'
  fruitless : made = [] → ∃ limit, ending = .exhausted limit

private theorem ends_exhausted {limit : Limit} (hv : b.verdict (b.look l) ≠ none)
    (hrests : Rests l l') : Ends p b line [] (.exhausted limit) l l' :=
  ⟨hrests.spends, by simp, .inl rfl, by simp,
    fun _ _ => ⟨0, 0, l, Quiet.refl.toRests.spends, hv, hrests.spends⟩, fun _ => ⟨_, rfl⟩⟩

private theorem ends_tried {stepSize : K} {t : LineTrial K} {ending : TangentEnding K}
    {l₁ : Ledger K} (hleft : (l.counters.evaluations : Int) ≤ b.maxEvaluations)
    (hrests : Rests l l₁) (h : Returns (line.evaluate p stepSize) l₁ t l')
    (haccepted : ending = .accepted → line.bounds t = true)
    (hending : ∀ limit, ending ≠ .exhausted limit) : Ends p b line [t] ending l l' := by
  obtain ⟨-, hbefore, ⟨c, hc, hnorm⟩, hspent⟩ := evaluate_returns h
  have hspent := hrests.spends_trans hspent
  have htwo := hspent.evaluations
  simp only [Work.evaluations] at htwo
  refine ⟨hspent, ?_, .inr (by omega), fun hend t' ht' => ?_, fun limit hlimit => ?_, by simp⟩
  · intro t' ht'
    rw [List.mem_singleton.1 ht', hbefore, hrests.evaluations]
    exact hleft
  · cases ht'
    refine ⟨c, hc, ?_⟩
    rw [← hnorm]
    exact bounds_iff.1 (haccepted hend)
  · exact absurd hlimit (hending limit)

private theorem Ends.after_trial {stepSize : K} {trial : LineTrial K} {made : List (LineTrial K)}
    {ending : TangentEnding K} {l₁ l₂ : Ledger K} (h : Ends p b line made ending l₂ l')
    (hleft : (l.counters.evaluations : Int) ≤ b.maxEvaluations) (hrests : Rests l l₁)
    (htrial : Returns (line.evaluate p stepSize) l₁ trial l₂) :
    Ends p b line (made ++ [trial]) ending l l' := by
  obtain ⟨-, hbefore, -, hspent⟩ := evaluate_returns htrial
  have hspent := hrests.spends_trans hspent
  refine ⟨?_, ?_, .inr ?_, fun hend => ?_, fun limit hlimit => ?_, by simp⟩
  · rw [List.length_append, List.length_singleton, Nat.add_comm]
    exact hspent.trans h.spent
  · intro t ht
    obtain ht | ht := List.mem_append.1 ht
    · exact h.within t ht
    · rw [List.mem_singleton.1 ht, hbefore, hrests.evaluations]
      exact hleft
  · obtain rfl | hceiling := h.ceiling
    · have htwo := hspent.evaluations
      have hnone := h.spent.evaluations
      simp only [Work.evaluations, List.length_nil] at htwo hnone
      omega
    · exact hceiling
  · cases made with
    | nil =>
      obtain ⟨limit, hlimit⟩ := h.fruitless rfl
      cases hend.symm.trans hlimit
    | cons last earlier => exact h.accepted hend
  · exact (h.exhausted limit hlimit).after hspent

/-- A search checks the budget and makes a trial, and ends there or goes on at a smaller step. -/
theorem iterate_succ_cases {remaining : Nat} {stepSize : K} {trials trials' : List (LineTrial K)}
    {ending : TangentEnding K}
    (h : Returns (iterate p b line (remaining + 1) stepSize trials) l (ending, trials') l') :
    (∃ limit, Returns b.exhausted l (some limit) l' ∧ ending = .exhausted limit ∧
        trials' = trials) ∨
      ∃ l₁ trial l₂, Returns b.exhausted l none l₁ ∧
        Returns (line.evaluate p stepSize) l₁ trial l₂ ∧
        (((line.decreases trial && line.bounds trial) = true ∧ ending = .accepted ∧
            trials' = trial :: trials ∧ l' = l₂) ∨
          ¬ (line.decreases trial && line.bounds trial) = true ∧
            ((stepSize < line.options.minStep ∧ ending = line.failure trial ∧
                trials' = trial :: trials ∧ l' = l₂) ∨
              ¬ stepSize < line.options.minStep ∧
                Returns (iterate p b line remaining (stepSize * line.options.reduction)
                  (trial :: trials)) l₂ (ending, trials') l')) := by
  simp only [iterate, Counted.returns_bind] at h
  obtain ⟨t, l₁, ht, h⟩ := h
  cases t with
  | some limit =>
    simp only [Counted.returns_pure, Prod.mk.injEq] at h
    obtain ⟨⟨rfl, rfl⟩, rfl⟩ := h
    exact .inl ⟨limit, ht, rfl, rfl⟩
  | none =>
    simp only [Counted.returns_bind, Counted.returns_ite, Counted.returns_pure,
      Prod.mk.injEq] at h
    obtain ⟨trial, l₂, htrial, h⟩ := h
    refine .inr ⟨l₁, trial, l₂, ht, htrial, ?_⟩
    obtain ⟨haccepted, ⟨rfl, rfl⟩, rfl⟩ | ⟨hrejected, ⟨hsmall, ⟨rfl, rfl⟩, rfl⟩ | hlarge⟩ := h
    · exact .inl ⟨haccepted, rfl, rfl, rfl⟩
    · exact .inr ⟨hrejected, .inl ⟨hsmall, rfl, rfl, rfl⟩⟩
    · exact .inr ⟨hrejected, .inr hlarge⟩

/-- The bound on the number of trials is met only when the evaluations are exhausted: each trial
takes two of them, and there are more trials left than the budget can pay for. -/
theorem iterate_returns {remaining : Nat} {stepSize : K} {trials trials' : List (LineTrial K)}
    {ending : TangentEnding K}
    (h : Returns (iterate p b line remaining stepSize trials) l (ending, trials') l')
    (hbound : b.maxEvaluations < (l.counters.evaluations + 2 * remaining : Int)) :
    ∃ made, trials' = made ++ trials ∧ Ends p b line made ending l l' := by
  induction remaining generalizing stepSize trials l with
  | zero =>
    simp only [iterate, Counted.returns_pure, Prod.mk.injEq] at h
    obtain ⟨⟨rfl, rfl⟩, rfl⟩ := h
    have hv : b.verdict (b.look l') = some .evaluations := by
      rw [Budget.verdict_look_evaluations_iff]
      omega
    exact ⟨[], rfl, ends_exhausted (by simp [hv]) Quiet.refl.toRests⟩
  | succ remaining ih =>
    obtain ⟨limit, ht, rfl, rfl⟩ | ⟨l₁, trial, l₂, ht, htrial, h⟩ := iterate_succ_cases h
    · obtain ⟨hlimit, -, hrests⟩ := Budget.exhausted_returns ht
      exact ⟨[], rfl, ends_exhausted (by simp [← hlimit]) hrests⟩
    obtain ⟨hwithin, -, hrests⟩ := Budget.exhausted_returns ht
    have hleft := Int.not_lt.1 (Budget.verdict_look_eq_none_iff.1 hwithin.symm).1
    obtain ⟨haccepted, rfl, rfl, rfl⟩ | ⟨-, ⟨-, rfl, rfl, rfl⟩ | ⟨-, h⟩⟩ := h
    · have hbounds := (Bool.and_eq_true_iff.1 haccepted).2
      exact ⟨[trial], rfl, ends_tried hleft hrests htrial (fun _ => hbounds) (by simp)⟩
    · exact ⟨[trial], rfl, ends_tried hleft hrests htrial
        (fun hend => absurd hend (failure_ne_accepted line trial))
        (failure_ne_exhausted line trial)⟩
    · have htwo := (hrests.spends_trans (evaluate_returns htrial).2.2.2).evaluations
      simp only [Work.evaluations] at htwo
      obtain ⟨made, rfl, hends⟩ := ih h (by omega)
      exact ⟨made ++ [trial], by simp, hends.after_trial hleft hrests htrial⟩

theorem search_returns {trials : List (LineTrial K)} {ending : TangentEnding K}
    (h : Returns (iterate p b line (trialBound b l.counters.evaluations) 1 []) l
      (ending, trials) l') : Ends p b line trials ending l l' := by
  obtain ⟨made, hmade, hends⟩ := iterate_returns h (trialBound_exceeds b _)
  rw [List.append_nil] at hmade
  rwa [hmade]

end LineSearch

/-- What a tangent step from a point has done, with a bound for the constraints. -/
structure TangentOutcome.Follows (p : Problem K) (b : Budget K) (origin : Vec K) (allowed : K)
    (o : TangentOutcome K) (l l' : Ledger K) : Prop where
  spent : Spends p.evaluationTime ⟨o.trials.length, 0, o.trials.length, 0, 0⟩ l l'
  within : ∀ t ∈ o.trials, (t.evaluationsBefore : Int) ≤ b.maxEvaluations
  /-- The last trial is the only one that may exceed the budget. -/
  ceiling : o.trials = [] ∨ (l'.counters.evaluations : Int) ≤ b.maxEvaluations + 2
  bounded : o.point = origin ∨ ∃ c, p.constraints o.point = .ok c ∧ Vec.norm c ≤ allowed
  exhausted : ∀ limit, o.ending = .exhausted limit → b.RanOut p.evaluationTime l l'
  fruitless : o.trials = [] → o.point = origin ∧
    (o.ending = .stationary ∨ (∃ slope, o.ending = .notDescent slope) ∨
      ∃ limit, o.ending = .exhausted limit)

theorem TangentOutcome.Follows.after {origin : Vec K} {allowed : K} {o : TangentOutcome K}
    {l₁ : Ledger K} (h : o.Follows p b origin allowed l₁ l') (hrests : Rests l l₁) :
    o.Follows p b origin allowed l l' :=
  ⟨hrests.spends_trans h.spent, h.within, h.ceiling, h.bounded,
    fun limit hlimit => (h.exhausted limit hlimit).after hrests.spends, h.fruitless⟩

/-- The line that a tangent step searches. -/
def tangentLine (options : TangentOptions K) (origin multipliers d : Vec K)
    (slope merit radius : K) : LineSearch K where
  origin
  direction := d
  slope
  multipliers
  merit
  allowed := options.growth * radius
  options

/-- How a tangent step ends without a search along its direction, if it does. -/
def flatEnding? (d : Vec K) (slope : K) : Option (TangentEnding K) :=
  if !Vec.isNonzero d then some .stationary
  else if 0 ≤ slope then some (.notDescent slope)
  else none

/-- What a tangent step makes of its search: it moves to an accepted trial and stays otherwise. -/
inductive TangentOutcome.Concludes (origin : Vec K) (kind : DirectionKind) :
    TangentEnding K → List (LineTrial K) → TangentOutcome K → Prop
  | moves (trial : LineTrial K) (earlier : List (LineTrial K)) :
      Concludes origin kind .accepted (trial :: earlier)
        ⟨trial.point, .accepted, trial.stepSize, kind, (trial :: earlier).reverse⟩
  | stays {ending : TangentEnding K} {trials : List (LineTrial K)}
      (fruitless : ending = .accepted → trials = []) :
      Concludes origin kind ending trials ⟨origin, ending, 0, kind, trials.reverse⟩

section

variable {kkt : KktSystem K} {options : TangentOptions K} {origin multipliers gradient : Vec K}
  {J : SparseMatrix K} {merit radius : K} {o : TangentOutcome K}

theorem tangentStep_cases
    (h : Returns (tangentStep p kkt options b origin multipliers gradient J merit radius) l o l') :
    ∃ d kind slope l₁,
      Returns (kkt.searchDirection gradient J options.tolerances) l (d, kind) l₁ ∧
      Vec.inner gradient d = .ok slope ∧
      ((∃ ending, flatEnding? d slope = some ending ∧ o = ⟨origin, ending, 0, kind, []⟩ ∧
          l' = l₁) ∨
        flatEnding? d slope = none ∧ ∃ ending trials,
          Returns ((tangentLine options origin multipliers d slope merit radius).iterate p b
            (LineSearch.trialBound b l₁.counters.evaluations) 1 []) l₁ (ending, trials) l' ∧
          o.Concludes origin kind ending trials) := by
  simp only [tangentStep, Counted.returns_bind, Counted.returns_ite, Counted.returns_pure,
    Counted.returns_except, Budget.evaluations_returns] at h
  obtain ⟨⟨d, kind⟩, l₁, hd, slope, _, ⟨hslope, rfl⟩, h⟩ := h
  refine ⟨d, kind, slope, _, hd, hslope, ?_⟩
  unfold flatEnding?
  obtain ⟨hzero, rfl, rfl⟩ | ⟨hnonzero, ⟨huphill, rfl, rfl⟩ |
    ⟨hdownhill, _, _, ⟨rfl, rfl⟩, ⟨ending, trials⟩, l₂, hsearch, h⟩⟩ := h
  · exact .inl ⟨_, if_pos hzero, rfl, rfl⟩
  · exact .inl ⟨_, (if_neg hnonzero).trans (if_pos huphill), rfl, rfl⟩
  · refine .inr ⟨(if_neg hnonzero).trans (if_neg hdownhill), ending, trials, ?_⟩
    split at h
    · rename_i trial earlier heq
      obtain ⟨rfl, rfl⟩ := Prod.mk.inj heq
      obtain ⟨rfl, rfl⟩ := Counted.returns_pure.1 h
      exact ⟨hsearch, .moves trial earlier⟩
    · rename_i hother heq
      obtain ⟨rfl, rfl⟩ := Prod.mk.inj heq
      obtain ⟨rfl, rfl⟩ := Counted.returns_pure.1 h
      refine ⟨hsearch, .stays fun haccepted => ?_⟩
      cases trials with
      | nil => rfl
      | cons trial earlier => exact (hother trial earlier haccepted rfl).elim

theorem tangentStep_direction {d : Vec K} {kind : DirectionKind}
    (h : Returns (tangentStep p kkt options b origin multipliers gradient J merit radius) l o l')
    (hd : Counted.Always (kkt.searchDirection gradient J options.tolerances) (d, kind)) :
    o.direction = kind := by
  obtain ⟨d', kind', slope, l₁, hd', -, hcases⟩ := tangentStep_cases h
  obtain ⟨l₀, hd₀⟩ := hd l
  obtain ⟨hsame, -⟩ := hd'.unique hd₀
  obtain ⟨-, rfl⟩ := Prod.mk.inj hsame
  obtain ⟨ending, -, rfl, -⟩ | ⟨-, ending, trials, -, hends⟩ := hcases
  · rfl
  · cases hends with
    | moves trial earlier => rfl
    | stays fruitless => rfl

theorem tangentStep_returns
    (h : Returns (tangentStep p kkt options b origin multipliers gradient J merit radius) l o l') :
    o.Follows p b origin (options.growth * radius) l l' := by
  obtain ⟨d, kind, slope, l₁, hd, -, hcases⟩ := tangentStep_cases h
  have hquiet := (KktSystem.searchDirection_quiet hd).toRests
  obtain ⟨ending, hflat, rfl, rfl⟩ | ⟨-, ending, trials, hsearch, hends⟩ := hcases
  · have hcause : ending = .stationary ∨ ∃ slope, ending = .notDescent slope := by
      unfold flatEnding? at hflat
      split at hflat
      · exact .inl (Option.some.inj hflat).symm
      · split at hflat
        · exact .inr ⟨slope, (Option.some.inj hflat).symm⟩
        · cases hflat
    refine ⟨hquiet.spends, by simp, .inl rfl, .inl rfl, ?_, fun _ => ⟨rfl, ?_⟩⟩
    · obtain rfl | ⟨_, rfl⟩ := hcause
      · simp
      · simp
    · exact hcause.imp_right .inl
  have hfound := LineSearch.search_returns hsearch
  have hspent := hquiet.spends_trans hfound.spent
  cases hends with
  | moves trial earlier =>
    refine ⟨by simpa using hspent, ?_, ?_, .inr (hfound.accepted rfl trial rfl), by simp,
      fun hnone => by simp at hnone⟩
    · exact fun t ht => hfound.within t (List.mem_reverse.1 ht)
    · exact .inr (hfound.ceiling.resolve_left (List.cons_ne_nil _ _))
  | stays fruitless =>
    refine ⟨by simpa using hspent, ?_, ?_, .inl rfl, fun limit hlimit => ?_,
      fun hnone => ⟨rfl, .inr (.inr ?_)⟩⟩
    · exact fun t ht => hfound.within t (List.mem_reverse.1 ht)
    · simpa using hfound.ceiling
    · exact (hfound.exhausted limit hlimit).after hquiet.spends
    · exact hfound.fruitless (by simpa using hnone)

omit [Scalar K] in
theorem TangentEnding.name_eq_success_iff {ending : TangentEnding K} :
    ending.name = "success" ↔ ending.isSuccess = true := by
  cases ending with
  | exhausted limit => cases limit <;> simp [name, isSuccess, Limit.name]
  | stationary | accepted | notDescent _ | infeasibilityGrowth _ _ | severeCurvature _ _ =>
    simp [name, isSuccess]

/-- Only want of descent and want of budget keep a tangent step from trying a point. -/
theorem tangentStep_flat
    (h : Returns (tangentStep p kkt options b origin multipliers gradient J merit radius) l o l')
    (hnone : o.trials = []) (hbudget : ∀ limit, o.ending ≠ .exhausted limit) :
    ∃ d kind slope, Counted.Always (kkt.searchDirection gradient J options.tolerances) (d, kind) ∧
      Vec.inner gradient d = .ok slope ∧ flatEnding? d slope = some o.ending := by
  obtain ⟨d, kind, slope, l₁, hd, hslope, hcases⟩ := tangentStep_cases h
  refine ⟨d, kind, slope, KktSystem.searchDirection_isBlind _ _ _ hd, hslope, ?_⟩
  obtain ⟨ending, hflat, rfl, rfl⟩ | ⟨-, ending, trials, hsearch, hends⟩ := hcases
  · exact hflat
  exfalso
  have hfound := LineSearch.search_returns hsearch
  cases hends with
  | moves trial earlier => simp at hnone
  | stays fruitless =>
    obtain ⟨limit, hlimit⟩ := hfound.fruitless (by simpa using hnone)
    exact hbudget limit hlimit

theorem tangentStep_of_flat (p : Problem K) (options : TangentOptions K) (b : Budget K)
    (origin multipliers : Vec K) (merit radius : K) {d : Vec K} {kind : DirectionKind} {slope : K}
    {ending : TangentEnding K}
    (hd : Counted.Always (kkt.searchDirection gradient J options.tolerances) (d, kind))
    (hslope : Vec.inner gradient d = .ok slope) (hflat : flatEnding? d slope = some ending)
    (l : Ledger K) :
    ∃ o l',
      Returns (tangentStep p kkt options b origin multipliers gradient J merit radius) l o l' ∧
      o.point = origin ∧ o.ending = ending ∧ o.trials = [] := by
  obtain ⟨l₁, hd⟩ := hd l
  refine ⟨⟨origin, ending, 0, kind, []⟩, l₁, ?_, rfl, rfl, rfl⟩
  simp only [tangentStep, Counted.returns_bind, Counted.returns_ite, Counted.returns_pure,
    Counted.returns_except]
  refine ⟨(d, kind), l₁, hd, slope, l₁, ⟨hslope, rfl⟩, ?_⟩
  unfold flatEnding? at hflat
  split at hflat
  · rename_i hzero
    cases hflat
    exact .inl ⟨hzero, rfl, rfl⟩
  · rename_i hnonzero
    split at hflat
    · rename_i huphill
      cases hflat
      exact .inr ⟨hnonzero, .inl ⟨huphill, rfl, rfl⟩⟩
    · cases hflat

end

end InfeasibilityControl
