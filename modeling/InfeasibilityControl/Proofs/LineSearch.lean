import InfeasibilityControl.Proofs.Completion
import InfeasibilityControl.Proofs.TangentStep

set_option autoImplicit false
set_option relaxedAutoImplicit false

/-!
The line search of a tangent step, trial by trial.

The step sizes do not depend on what is found, and neither do the trials at them nor what a check
of the budget sees before each of them. So the search amounts to looking for the first index at
which the budget is exhausted, the trial is acceptable or its step size is small.
-/

namespace InfeasibilityControl

open Counted (Returns Completes completes_pure completes_ite)
open Ledger (Spends Rests Quiet)

variable {K : Type} [Scalar K] {l₀ l l' : Ledger K} {p : Problem K} {b : Budget K}

/-- What a check of the budget sees after so many trials, each with a check before it that let it
pass. -/
def Budget.lookAfter (b : Budget K) (dt : K) (l : Ledger K) (trials : Nat) : BudgetCheck K :=
  ⟨l.counters.evaluations + 2 * trials,
    if b.maxEvaluations < (l.counters.evaluations + 2 * trials : Nat) then none
    else some (l.clock.shows dt (2 * trials) trials - b.startTime)⟩

namespace Budget

variable {dt : K} {trials : Nat}

theorem verdict_lookAfter_evaluations_iff :
    b.verdict (b.lookAfter dt l trials) = some .evaluations ↔
      b.maxEvaluations < (l.counters.evaluations + 2 * trials : Nat) := by
  simp only [verdict, lookAfter]
  split
  · rename_i hpast
    exact iff_of_true rfl hpast
  · simp only [*]
    split <;> simp

theorem le_of_verdict_lookAfter (h : b.verdict (b.lookAfter dt l trials) = none) :
    (l.counters.evaluations + 2 * trials : Nat) ≤ b.maxEvaluations := by
  by_contra hpast
  rw [verdict_lookAfter_evaluations_iff.2 (Int.not_le.1 hpast)] at h
  cases h

end Budget

theorem Budget.exhausted_readings (h : Returns b.exhausted l none l') :
    l'.clock.readings = l.clock.readings + 1 := by
  obtain ⟨hverdict, -, -⟩ := Budget.exhausted_returns h
  have hwithin := (Budget.verdict_look_eq_none_iff.1 hverdict.symm).1
  simp only [exhausted, check, Counted.recordCheck, Counted.returns_bind, Counted.returns_ite,
    Counted.returns_modify, Counted.returns_pure, evaluations_returns, elapsed_returns] at h
  obtain ⟨k, l₁, ⟨_, _, ⟨rfl, rfl⟩, ⟨hpast, -⟩ | ⟨-, _, _, ⟨-, rfl⟩, -, rfl⟩⟩, _, _, rfl, -, rfl⟩ :=
    h
  · exact absurd hpast hwithin
  · rfl

namespace LineSearch

variable {line : LineSearch K}

/-- The step size after so many reductions. -/
def stepAt (line : LineSearch K) (k : Nat) : K :=
  (fun stepSize => stepSize * line.options.reduction)^[k] 1

theorem stepAt_succ (line : LineSearch K) (k : Nat) :
    line.stepAt (k + 1) = line.stepAt k * line.options.reduction :=
  Function.iterate_succ_apply' _ _ _

/-- The trial after so many reductions, if this many evaluations were made before. -/
def trialAt (p : Problem K) (line : LineSearch K) (before k : Nat) :
    Except Fault (LineTrial K) := do
  let point ← Vec.add line.origin (Vec.scale (line.stepAt k) line.direction)
  let objective ← p.objective point
  let constraints ← p.constraints point
  let merit := objective + (← Vec.inner line.multipliers constraints)
  return {
    stepSize := line.stepAt k
    evaluationsBefore := before
    point
    merit
    primalNorm := Vec.norm constraints }

/-- The merit at a trial is finite and has decreased sufficiently, and the constraints lie within
the bound. -/
def accepts (line : LineSearch K) (t : LineTrial K) : Bool := line.decreases t && line.bounds t

theorem accepts_iff {t : LineTrial K} : line.accepts t = true ↔
    (Scalar.isFinite t.merit = true ∧
      t.merit ≤ line.merit + line.options.sufficient * t.stepSize * line.slope) ∧
    t.primalNorm ≤ line.allowed := by
  rw [accepts, Bool.and_eq_true_iff, decreases_iff, bounds_iff]

/-- The trial after so many reductions is acceptable. -/
def IsAcceptable (p : Problem K) (line : LineSearch K) (k : Nat) : Prop :=
  ∃ t, line.trialAt p 0 k = .ok t ∧ line.accepts t = true

/-- No reduction is made after this many. -/
def IsSmall (line : LineSearch K) (k : Nat) : Prop := line.stepAt k < line.options.minStep

/-- The budget is not exhausted before the trial after so many reductions. -/
def InBudget (p : Problem K) (b : Budget K) (l : Ledger K) (k : Nat) : Prop :=
  b.verdict (b.lookAfter p.evaluationTime l k) = none

theorem evaluate_trialAt {k : Nat} {t : LineTrial K}
    (h : Returns (line.evaluate p (line.stepAt k)) l t l') :
    line.trialAt p l.counters.evaluations k = .ok t ∧ l'.clock.readings = l.clock.readings := by
  simp only [evaluate, Problem.objectiveAt, Problem.constraintsAt, Counted.count, Counted.pass,
    Counted.returns_bind, Counted.returns_pure, Counted.returns_except, Counted.returns_modify,
    Budget.evaluations_returns] at h
  obtain ⟨point, _, ⟨hpoint, rfl⟩, _, _, ⟨rfl, rfl⟩, f, _, ⟨_, _, rfl, _, _, rfl, hf, rfl⟩, c, _,
    ⟨_, _, rfl, _, _, rfl, hc, rfl⟩, product, _, ⟨hproduct, rfl⟩, rfl, rfl⟩ := h
  refine ⟨?_, rfl⟩
  simp [trialAt, hpoint, hf, hc, hproduct, bind, Except.bind, pure, Except.pure]

theorem exists_evaluate {k : Nat} {t : LineTrial K}
    (h : line.trialAt p l.counters.evaluations k = .ok t) :
    ∃ l', Returns (line.evaluate p (line.stepAt k)) l t l' := by
  simp only [trialAt, Counted.except_bind_eq_ok] at h
  obtain ⟨point, hpoint, f, hf, c, hc, product, hproduct, ht⟩ := h
  obtain rfl := Except.ok.inj ht
  simp only [evaluate, Problem.objectiveAt, Problem.constraintsAt, Counted.count, Counted.pass,
    Counted.returns_bind, Counted.returns_pure, Counted.returns_except, Counted.returns_modify,
    Budget.evaluations_returns]
  exact ⟨_, point, _, ⟨hpoint, rfl⟩, _, _, ⟨rfl, rfl⟩, f, _,
    ⟨(), _, rfl, (), _, rfl, hf, rfl⟩, c, _, ⟨(), _, rfl, (), _, rfl, hc, rfl⟩, product, _,
    ⟨hproduct, rfl⟩, rfl, rfl⟩

theorem trialAt_before (p : Problem K) (line : LineSearch K) (before k : Nat) :
    line.trialAt p before k =
      (line.trialAt p 0 k).map fun t => { t with evaluationsBefore := before } := by
  unfold trialAt
  cases Vec.add line.origin (Vec.scale (line.stepAt k) line.direction) with
  | error fault => rfl
  | ok point =>
    simp only [bind, Except.bind]
    cases p.objective point with
    | error fault => rfl
    | ok f =>
      simp only
      cases p.constraints point with
      | error fault => rfl
      | ok c =>
        simp only
        cases Vec.inner line.multipliers c <;> rfl

theorem of_trialAt {before k : Nat} {t : LineTrial K} (h : line.trialAt p before k = .ok t) :
    Vec.add line.origin (Vec.scale (line.stepAt k) line.direction) = .ok t.point ∧
      t.stepSize = line.stepAt k := by
  simp only [trialAt, Counted.except_bind_eq_ok] at h
  obtain ⟨point, hpoint, f, -, c, -, product, -, ht⟩ := h
  obtain rfl := Except.ok.inj ht
  exact ⟨hpoint, rfl⟩

theorem trialAt_eq {before k : Nat} {x c : Vec K} {f : K}
    (hx : Vec.add line.origin (Vec.scale (line.stepAt k) line.direction) = .ok x)
    (hf : p.objective x = .ok f) (hc : p.constraints x = .ok c)
    (hlength : line.multipliers.length = c.length) :
    line.trialAt p before k =
      .ok ⟨line.stepAt k, before, x, f + Vec.dot line.multipliers c, Vec.norm c⟩ := by
  simp only [trialAt, hx, hf, hc, Vec.inner_of_length hlength, bind, Except.bind]
  rfl

/-- Whether a trial is acceptable does not depend on what was evaluated before. -/
theorem isAcceptable_iff {before k : Nat} {t : LineTrial K}
    (h : line.trialAt p before k = .ok t) : line.IsAcceptable p k ↔ line.accepts t = true := by
  rw [trialAt_before] at h
  obtain ⟨t₀, ht₀, rfl⟩ : ∃ t₀, line.trialAt p 0 k = .ok t₀ ∧
      { t₀ with evaluationsBefore := before } = t := by
    cases htrial : line.trialAt p 0 k with
    | error fault =>
      rw [htrial] at h
      cases h
    | ok t₀ =>
      rw [htrial] at h
      exact ⟨t₀, rfl, Except.ok.inj h⟩
  constructor
  · rintro ⟨t', ht', haccepts⟩
    obtain rfl : t' = t₀ := Except.ok.inj (ht'.symm.trans ht₀)
    exact haccepts
  · intro haccepts
    exact ⟨t₀, ht₀, haccepts⟩

/-- One ledger comes from another by so many trials, with a check of the budget before each. -/
structure Arrives (p : Problem K) (l₀ l : Ledger K) (k : Nat) : Prop where
  spent : Spends p.evaluationTime ⟨k, 0, k, 0, 0⟩ l₀ l
  readings : l.clock.readings = l₀.clock.readings + k

namespace Arrives

variable {k : Nat}

theorem evaluations (h : Arrives p l₀ l k) :
    l.counters.evaluations = l₀.counters.evaluations + 2 * k := by
  have hspent : l.counters.evaluations = l₀.counters.evaluations + (k + k) := h.spent.evaluations
  omega

theorem look (h : Arrives p l₀ l k) : b.look l = b.lookAfter p.evaluationTime l₀ k := by
  have htime : l.time = l₀.clock.shows p.evaluationTime (2 * k) k := by
    have htwo : Work.evaluations ⟨k, 0, k, 0, 0⟩ = 2 * k := (Nat.two_mul k).symm
    rw [Ledger.time_eq_shows p.evaluationTime, h.spent.shows, h.readings, htwo,
      Nat.add_sub_cancel_left, Nat.zero_add, Nat.add_zero]
  rw [Budget.look, Budget.lookAfter, h.evaluations, htime]

theorem next {l₁ l₂ : Ledger K} {stepSize : K} {t : LineTrial K} (h : Arrives p l₀ l k)
    (hcheck : Returns b.exhausted l none l₁) (htrial : Returns (line.evaluate p stepSize) l₁ t l₂)
    (hreadings : l₂.clock.readings = l₁.clock.readings) : Arrives p l₀ l₂ (k + 1) := by
  obtain ⟨-, -, hrests⟩ := Budget.exhausted_returns hcheck
  obtain ⟨-, -, -, hspent⟩ := evaluate_returns htrial
  refine ⟨(h.spent.rests hrests).trans hspent, ?_⟩
  rw [hreadings, Budget.exhausted_readings hcheck, h.readings]
  rfl

end Arrives

/-- Trials that were made one after the other, each of them within the budget. -/
structure Made (p : Problem K) (b : Budget K) (line : LineSearch K) (l₀ : Ledger K)
    (made : List (LineTrial K)) : Prop where
  trial : ∀ k t, made[k]? = some t →
    line.trialAt p (l₀.counters.evaluations + 2 * k) k = .ok t
  within : ∀ k < made.length, InBudget p b l₀ k

theorem Made.length_le {made : List (LineTrial K)} (h : Made p b line l₀ made) :
    (made.length : Int) ≤ max 0 ((b.maxEvaluations - l₀.counters.evaluations) / 2 + 1) := by
  cases hlength : made.length with
  | zero => omega
  | succ k =>
    have hlast := Budget.le_of_verdict_lookAfter (h.within k (by omega))
    omega

/-- Trials that were made one after the other and none of which ended the search. -/
structure Passes (p : Problem K) (b : Budget K) (line : LineSearch K) (l₀ : Ledger K)
    (made : List (LineTrial K)) : Prop extends Made p b line l₀ made where
  unacceptable : ∀ k < made.length, ¬ line.IsAcceptable p k
  large : ∀ k < made.length, ¬ line.IsSmall k

section

variable {made : List (LineTrial K)} {t : LineTrial K}

theorem Passes.nil : Passes p b line l₀ [] where
  trial := by simp
  within := by simp
  unacceptable := by simp
  large := by simp

theorem Made.append (h : Made p b line l₀ made) (hwithin : InBudget p b l₀ made.length)
    (ht : line.trialAt p (l₀.counters.evaluations + 2 * made.length) made.length = .ok t) :
    Made p b line l₀ (made ++ [t]) := by
  refine ⟨fun k t' ht' => ?_, ?_⟩
  · have hk := (List.getElem?_eq_some_iff.1 ht').1
    rw [List.length_append, List.length_singleton] at hk
    obtain hk | rfl := Nat.lt_succ_iff_lt_or_eq.1 hk
    · rw [List.getElem?_append_left hk] at ht'
      exact h.trial k t' ht'
    · rw [List.getElem?_concat_length] at ht'
      obtain rfl := Option.some.inj ht'
      exact ht
  · rw [List.length_append, List.length_singleton]
    exact Nat.forall_lt_succ_right.2 ⟨h.within, hwithin⟩

theorem Passes.append (h : Passes p b line l₀ made) (hwithin : InBudget p b l₀ made.length)
    (ht : line.trialAt p (l₀.counters.evaluations + 2 * made.length) made.length = .ok t)
    (haccepts : ¬ line.accepts t = true) (hlarge : ¬ line.IsSmall made.length) :
    Passes p b line l₀ (made ++ [t]) := by
  refine ⟨h.toMade.append hwithin ht, ?_, ?_⟩
  · rw [List.length_append, List.length_singleton, Nat.forall_lt_succ_right, isAcceptable_iff ht]
    exact ⟨h.unacceptable, haccepts⟩
  · rw [List.length_append, List.length_singleton]
    exact Nat.forall_lt_succ_right.2 ⟨h.large, hlarge⟩

end

/-- The ways in which the search ends, with its trials in the order in which they were made. -/
inductive Stops (p : Problem K) (b : Budget K) (line : LineSearch K) (l₀ : Ledger K) :
    List (LineTrial K) → TangentEnding K → Prop
  | exhausted {made : List (LineTrial K)} {limit : Limit} (passed : Passes p b line l₀ made)
      (verdict : b.verdict (b.lookAfter p.evaluationTime l₀ made.length) = some limit) :
      Stops p b line l₀ made (.exhausted limit)
  | accepted {made : List (LineTrial K)} {t : LineTrial K} (passed : Passes p b line l₀ made)
      (within : InBudget p b l₀ made.length)
      (trial : line.trialAt p (l₀.counters.evaluations + 2 * made.length) made.length = .ok t)
      (acceptable : line.accepts t = true) : Stops p b line l₀ (made ++ [t]) .accepted
  | failed {made : List (LineTrial K)} {t : LineTrial K} (passed : Passes p b line l₀ made)
      (within : InBudget p b l₀ made.length)
      (trial : line.trialAt p (l₀.counters.evaluations + 2 * made.length) made.length = .ok t)
      (unacceptable : ¬ line.accepts t = true) (small : line.IsSmall made.length) :
      Stops p b line l₀ (made ++ [t]) (line.failure t)

/-- The search ends in one of these ways. More trials than the budget has evaluations for are not
made. -/
theorem iterate_stops {remaining : Nat} {trials trials' : List (LineTrial K)}
    {ending : TangentEnding K}
    (h : Returns (iterate p b line remaining (line.stepAt trials.length) trials) l
      (ending, trials') l')
    (hpasses : Passes p b line l₀ trials.reverse) (harrives : Arrives p l₀ l trials.length)
    (hbound : b.maxEvaluations <
      (l₀.counters.evaluations + 2 * trials.length + 2 * remaining : Int)) :
    Stops p b line l₀ trials'.reverse ending := by
  induction remaining generalizing trials l with
  | zero =>
    simp only [iterate, Counted.returns_pure, Prod.mk.injEq] at h
    obtain ⟨⟨rfl, rfl⟩, rfl⟩ := h
    refine .exhausted hpasses ?_
    rw [List.length_reverse, ← harrives.look, Budget.verdict_look_evaluations_iff,
      harrives.evaluations]
    omega
  | succ remaining ih =>
    have hnow : trials.reverse.length = trials.length := List.length_reverse
    obtain ⟨limit, hcheck, rfl, rfl⟩ | ⟨l₁, trial, l₂, hcheck, htrial, h⟩ := iterate_succ_cases h
    · refine .exhausted hpasses ?_
      rw [hnow, ← harrives.look]
      exact (Budget.exhausted_returns hcheck).1.symm
    obtain ⟨hverdict, -, hrests⟩ := Budget.exhausted_returns hcheck
    have hwithin : InBudget p b l₀ trials.length := by
      rw [InBudget, ← harrives.look]
      exact hverdict.symm
    obtain ⟨htrialAt, hreadings⟩ := evaluate_trialAt htrial
    rw [hrests.evaluations, harrives.evaluations] at htrialAt
    obtain ⟨haccepted, rfl, rfl, rfl⟩ | ⟨hrejected, ⟨hsmall, rfl, rfl, rfl⟩ | ⟨hlarge, h⟩⟩ := h
    · rw [List.reverse_cons]
      exact .accepted hpasses (by rwa [hnow]) (by rwa [hnow]) haccepted
    · rw [List.reverse_cons]
      exact .failed hpasses (by rwa [hnow]) (by rwa [hnow]) hrejected (by rwa [hnow])
    · rw [← stepAt_succ] at h
      have hnext : Returns (iterate p b line remaining (line.stepAt (trial :: trials).length)
          (trial :: trials)) l₂ (ending, trials') l' := h
      refine ih hnext ?_ (harrives.next hcheck htrial hreadings) ?_
      · rw [List.reverse_cons]
        exact hpasses.append (by rwa [hnow]) (by rwa [hnow]) hrejected (by rwa [hnow])
      · rw [List.length_cons]
        push_cast
        omega

theorem iterate_one_stops {remaining : Nat} {trials : List (LineTrial K)} {ending : TangentEnding K}
    (h : Returns (iterate p b line remaining 1 []) l (ending, trials) l')
    (harrives : Arrives p l₀ l 0)
    (hbound : b.maxEvaluations < (l₀.counters.evaluations + 2 * remaining : Int)) :
    Stops p b line l₀ trials.reverse ending := by
  have hstart : Returns (iterate p b line remaining
      (line.stepAt ([] : List (LineTrial K)).length) []) l (ending, trials) l' := h
  refine iterate_stops hstart .nil harrives ?_
  rw [List.length_nil]
  omega

theorem completes_evaluate_of_trialAt {k : Nat} {t : LineTrial K}
    (h : line.trialAt p 0 k = .ok t) :
    Completes (line.evaluate p (line.stepAt k)) fun _ => True := by
  intro l
  have htrialAt : line.trialAt p l.counters.evaluations k =
      .ok { t with evaluationsBefore := l.counters.evaluations } := by
    rw [trialAt_before, h]
    rfl
  obtain ⟨l', htrial⟩ := exists_evaluate htrialAt
  exact ⟨_, l', htrial, trivial⟩

theorem completes_search (hdefined : ∀ k, ∃ t, line.trialAt p 0 k = .ok t) (remaining : Nat)
    (trials : List (LineTrial K)) :
    Completes (iterate p b line remaining (line.stepAt trials.length) trials) fun _ => True := by
  induction remaining generalizing trials with
  | zero => exact completes_pure trivial
  | succ remaining ih =>
    refine b.completes_exhausted.bind fun limit? _ => ?_
    cases limit? with
    | some limit => exact completes_pure trivial
    | none =>
      obtain ⟨t₀, ht₀⟩ := hdefined trials.length
      refine (completes_evaluate_of_trialAt ht₀).bind fun t _ =>
        completes_ite (fun _ => completes_pure trivial) fun _ =>
          completes_ite (fun _ => completes_pure trivial) fun _ => ?_
      rw [← stepAt_succ]
      exact ih (t :: trials)

/-- The search is to end with success at this trial: it is the first acceptable one, none before it
is at a small step size, and the budget lasts. -/
structure Succeeds (p : Problem K) (b : Budget K) (line : LineSearch K) (l : Ledger K) (k : Nat) :
    Prop where
  acceptable : line.IsAcceptable p k
  first : ∀ j < k, ¬ line.IsAcceptable p j
  large : ∀ j < k, ¬ line.IsSmall j
  within : ∀ j ≤ k, InBudget p b l j

/-- The search is to be given up at this trial: it is the first one at a small step size, neither it
nor one before it is acceptable, and the budget lasts. -/
structure GivesUp (p : Problem K) (b : Budget K) (line : LineSearch K) (l : Ledger K) (k : Nat) :
    Prop where
  small : line.IsSmall k
  large : ∀ j < k, ¬ line.IsSmall j
  unacceptable : ∀ j ≤ k, ¬ line.IsAcceptable p j
  within : ∀ j ≤ k, InBudget p b l j

section

variable {made : List (LineTrial K)} {k : Nat}

theorem Passes.le_of_succeeds (h : Passes p b line l₀ made) (hk : line.Succeeds p b l₀ k) :
    made.length ≤ k :=
  Nat.not_lt.1 fun hearly => h.unacceptable k hearly hk.acceptable

theorem Passes.le_of_givesUp (h : Passes p b line l₀ made) (hk : line.GivesUp p b l₀ k) :
    made.length ≤ k :=
  Nat.not_lt.1 fun hearly => h.large k hearly hk.small

theorem Passes.within_le (h : Passes p b line l₀ made) (hwithin : InBudget p b l₀ made.length)
    (hk : k ≤ made.length) : InBudget p b l₀ k :=
  (Nat.lt_or_eq_of_le hk).elim (h.within k) fun hlast => hlast ▸ hwithin

end

theorem name_failure (line : LineSearch K) (t : LineTrial K) :
    (line.failure t).name = "unsuccessful" := by
  unfold failure
  split <;> rfl

omit [Scalar K] in
theorem name_exhausted (limit : Limit) :
    (TangentEnding.exhausted limit : TangentEnding K).name ≠ "success" ∧
      (TangentEnding.exhausted limit : TangentEnding K).name ≠ "unsuccessful" := by
  cases limit with
  | evaluations => simp [TangentEnding.name, Limit.name]
  | time => simp [TangentEnding.name, Limit.name]

namespace Stops

variable {trials : List (LineTrial K)} {ending : TangentEnding K}

theorem success_iff (h : Stops p b line l₀ trials ending) (k : Nat) :
    ending.name = "success" ∧ trials.length = k + 1 ↔ line.Succeeds p b l₀ k := by
  cases h with
  | exhausted passed verdict =>
    refine ⟨fun hend => absurd hend.1 (name_exhausted _).1, fun hsucceeds => ?_⟩
    have hwithin := hsucceeds.within _ (passed.le_of_succeeds hsucceeds)
    rw [InBudget, verdict] at hwithin
    cases hwithin
  | @accepted made t passed within trial acceptable =>
    have hlast : line.IsAcceptable p made.length := (isAcceptable_iff trial).2 acceptable
    rw [List.length_append, List.length_singleton]
    constructor
    · rintro ⟨-, hlength⟩
      obtain rfl : made.length = k := Nat.succ_injective hlength
      exact ⟨hlast, passed.unacceptable, passed.large, fun j hj => passed.within_le within hj⟩
    · intro hsucceeds
      have hlate : k ≤ made.length := Nat.not_lt.1 fun hlate => hsucceeds.first _ hlate hlast
      exact ⟨rfl, congrArg Nat.succ (Nat.le_antisymm (passed.le_of_succeeds hsucceeds) hlate)⟩
  | @failed made t passed within trial unacceptable small =>
    have hlast : ¬ line.IsAcceptable p made.length := mt (isAcceptable_iff trial).1 unacceptable
    refine ⟨fun hend => ?_, fun hsucceeds => ?_⟩
    · rw [name_failure] at hend
      exact absurd hend.1 (by decide)
    · exfalso
      obtain hlate | rfl := Nat.lt_or_eq_of_le (passed.le_of_succeeds hsucceeds)
      · exact hsucceeds.large _ hlate small
      · exact hlast hsucceeds.acceptable

theorem unsuccessful_iff (h : Stops p b line l₀ trials ending) (k : Nat) :
    ending.name = "unsuccessful" ∧ trials.length = k + 1 ↔ line.GivesUp p b l₀ k := by
  cases h with
  | exhausted passed verdict =>
    refine ⟨fun hend => absurd hend.1 (name_exhausted _).2, fun hgivesUp => ?_⟩
    have hwithin := hgivesUp.within _ (passed.le_of_givesUp hgivesUp)
    rw [InBudget, verdict] at hwithin
    cases hwithin
  | @accepted made t passed within trial acceptable =>
    refine ⟨fun hend => absurd hend.1 (by simp [TangentEnding.name]), fun hgivesUp => ?_⟩
    exact absurd ((isAcceptable_iff trial).2 acceptable)
      (hgivesUp.unacceptable _ (passed.le_of_givesUp hgivesUp))
  | @failed made t passed within trial unacceptable small =>
    have hlast : ¬ line.IsAcceptable p made.length := mt (isAcceptable_iff trial).1 unacceptable
    rw [List.length_append, List.length_singleton]
    constructor
    · rintro ⟨-, hlength⟩
      obtain rfl : made.length = k := Nat.succ_injective hlength
      refine ⟨small, passed.large, fun j hj => ?_, fun j hj => passed.within_le within hj⟩
      obtain hj | rfl := Nat.lt_or_eq_of_le hj
      · exact passed.unacceptable j hj
      · exact hlast
    · intro hgivesUp
      have hlate : k ≤ made.length := Nat.not_lt.1 fun hlate => hgivesUp.large _ hlate small
      exact ⟨name_failure line t,
        congrArg Nat.succ (Nat.le_antisymm (passed.le_of_givesUp hgivesUp) hlate)⟩

theorem otherwise (h : Stops p b line l₀ trials ending)
    (hsucceeds : ∀ k, ¬ line.Succeeds p b l₀ k) (hgivesUp : ∀ k, ¬ line.GivesUp p b l₀ k) :
    ∃ limit, ending.name = limit.name ∧
      b.verdict (b.lookAfter p.evaluationTime l₀ trials.length) = some limit := by
  have hsuccess := h.success_iff
  have hunsuccessful := h.unsuccessful_iff
  cases h with
  | @exhausted made limit passed verdict => exact ⟨limit, rfl, verdict⟩
  | accepted passed within trial acceptable =>
    exact absurd ((hsuccess _).1 ⟨rfl, List.length_append⟩) (hsucceeds _)
  | failed passed within trial unacceptable small =>
    exact absurd ((hunsuccessful _).1 ⟨name_failure _ _, List.length_append⟩) (hgivesUp _)

theorem accepted_of_name (h : Stops p b line l₀ trials ending) (hname : ending.name = "success") :
    ending = .accepted ∧ trials ≠ [] := by
  cases h with
  | exhausted passed verdict => exact absurd hname (name_exhausted _).1
  | accepted passed within trial acceptable =>
    exact ⟨rfl, List.append_ne_nil_of_right_ne_nil _ (List.cons_ne_nil _ _)⟩
  | failed passed within trial unacceptable small =>
    rw [name_failure] at hname
    exact absurd hname (by decide)

theorem exhausted_of_name (h : Stops p b line l₀ trials ending) (hname : ending.name = "max_eval") :
    ending = .exhausted .evaluations ∧
      b.maxEvaluations < (l₀.counters.evaluations + 2 * trials.length : Nat) := by
  cases h with
  | @exhausted _ limit passed verdict =>
    cases limit with
    | evaluations => exact ⟨rfl, Budget.verdict_lookAfter_evaluations_iff.1 verdict⟩
    | time => simp [TangentEnding.name, Limit.name] at hname
  | accepted passed within trial acceptable => simp [TangentEnding.name] at hname
  | failed passed within trial unacceptable small =>
    rw [name_failure] at hname
    exact absurd hname (by decide)

theorem made (h : Stops p b line l₀ trials ending) : Made p b line l₀ trials := by
  cases h with
  | exhausted passed verdict => exact passed.toMade
  | accepted passed within trial acceptable => exact passed.toMade.append within trial
  | failed passed within trial unacceptable small => exact passed.toMade.append within trial

/-- The search complains of the constraints exactly if they were outside the bound at last. -/
theorem growth_iff (h : Stops p b line l₀ trials ending) (hname : ending.name = "unsuccessful") :
    ending.complaint.message = "Small steps did not keep infeasibility bounded." ↔
      ∃ t ∈ trials.getLast?, ¬ t.primalNorm ≤ line.allowed := by
  cases h with
  | exhausted passed verdict => exact absurd hname (name_exhausted _).2
  | accepted passed within trial acceptable => simp [TangentEnding.name] at hname
  | @failed made t passed within trial unacceptable small =>
    rw [List.getLast?_concat, failure]
    by_cases hbounds : t.primalNorm ≤ line.allowed
    · simp [bounds_iff, hbounds, TangentEnding.complaint]
    · simp [bounds_iff, hbounds, TangentEnding.complaint]

end Stops

end LineSearch

end InfeasibilityControl
