import InfeasibilityControl.Budget
import InfeasibilityControl.Model.Problem
import InfeasibilityControl.Proofs.Counted
import Mathlib.Logic.Function.Iterate

set_option autoImplicit false
set_option relaxedAutoImplicit false

/-!
What computations spend: evaluations of the parts of a problem, and time.

`Spends dt w l l'` says that the ledger `l'` comes from `l` by the evaluations `w`, each of the
objective and of the constraints taking `dt` seconds, and by any number of readings of the clock.
A clock never goes back if no time that had run out is left again later; then a budget that is
exhausted once is exhausted at every later check.
-/

namespace InfeasibilityControl

open Counted (Returns)

/-- Evaluations of the parts of a problem. -/
structure Work where
  objective : Nat
  gradient : Nat
  constraints : Nat
  jacobian : Nat
  hessian : Nat
  deriving DecidableEq

namespace Work

instance : Zero Work := ⟨⟨0, 0, 0, 0, 0⟩⟩

instance : Add Work :=
  ⟨fun v w => ⟨v.objective + w.objective, v.gradient + w.gradient,
    v.constraints + w.constraints, v.jacobian + w.jacobian, v.hessian + w.hessian⟩⟩

/-- The evaluations that a budget pays for. -/
def evaluations (w : Work) : Nat := w.objective + w.constraints

@[simp] theorem evaluations_zero : (0 : Work).evaluations = 0 := rfl

@[simp] theorem evaluations_add (v w : Work) :
    (v + w).evaluations = v.evaluations + w.evaluations := by
  change v.objective + w.objective + (v.constraints + w.constraints) = _
  simp only [evaluations]
  omega

@[simp] theorem zero_add (w : Work) : 0 + w = w := by
  cases w
  change Work.mk (0 + _) (0 + _) (0 + _) (0 + _) (0 + _) = _
  simp only [Nat.zero_add]

@[simp] theorem add_zero (w : Work) : w + 0 = w := rfl

end Work

/-- What a clock shows after so many more evaluations and readings. -/
def Clock.shows {K : Type} [Scalar K] (dt : K) (k : Clock K) (evaluations readings : Nat) : K :=
  (fun t => t + dt)^[evaluations] k.worked + k.drift (k.readings + readings)

/-- Whatever is evaluated and read in between, once more time than a limit has passed since some
moment, no later reading says otherwise. -/
def Clock.NeverGoesBack {K : Type} [Scalar K] (dt : K) (k : Clock K) : Prop :=
  ∀ i j m n, i ≤ j → m ≤ n → ∀ moment limit,
    limit < k.shows dt i m - moment → limit < k.shows dt j n - moment

/-- Neither evaluations nor readings change what the clock shows. -/
structure Clock.IsStill {K : Type} [Scalar K] (dt : K) (k : Clock K) : Prop where
  worked : k.worked + dt = k.worked
  drift : ∀ n, k.drift (k.readings + n) = k.drift k.readings

namespace Clock.IsStill

variable {K : Type} [Scalar K] {dt : K} {k : Clock K}

theorem shows_eq (h : k.IsStill dt) (i n : Nat) : k.shows dt i n = k.shows dt 0 0 := by
  have hworked : (fun t => t + dt)^[i] k.worked = k.worked := Function.iterate_fixed h.worked i
  rw [shows, hworked, h.drift]
  rfl

theorem neverGoesBack (h : k.IsStill dt) : k.NeverGoesBack dt := by
  intro i j m n _ _ moment limit hpast
  rw [h.shows_eq] at hpast ⊢
  exact hpast

end Clock.IsStill

namespace Ledger

variable {K : Type} [Scalar K] {dt : K} {v w : Work} {l l' l'' : Ledger K}

/-- One ledger comes from another by these evaluations and by readings of the clock. -/
structure Spends (dt : K) (w : Work) (l l' : Ledger K) : Prop where
  objective : l'.counters.objective = l.counters.objective + w.objective
  gradient : l'.counters.gradient = l.counters.gradient + w.gradient
  constraints : l'.counters.constraints = l.counters.constraints + w.constraints
  jacobian : l'.counters.jacobian = l.counters.jacobian + w.jacobian
  hessian : l'.counters.hessian = l.counters.hessian + w.hessian
  worked : l'.clock.worked = (fun t => t + dt)^[w.evaluations] l.clock.worked
  drift : l'.clock.drift = l.clock.drift
  readings : l.clock.readings ≤ l'.clock.readings

/-- Nothing is evaluated. -/
structure Rests (l l' : Ledger K) : Prop where
  objective : l'.counters.objective = l.counters.objective
  gradient : l'.counters.gradient = l.counters.gradient
  constraints : l'.counters.constraints = l.counters.constraints
  jacobian : l'.counters.jacobian = l.counters.jacobian
  hessian : l'.counters.hessian = l.counters.hessian
  worked : l'.clock.worked = l.clock.worked
  drift : l'.clock.drift = l.clock.drift
  readings : l.clock.readings ≤ l'.clock.readings

/-- Nothing is evaluated and no budget is checked. -/
structure Quiet (l l' : Ledger K) : Prop extends Rests l l' where
  checks : l'.checks = l.checks

theorem Rests.spends (h : Rests l l') : Spends dt 0 l l' :=
  ⟨h.objective, h.gradient, h.constraints, h.jacobian, h.hessian, h.worked, h.drift, h.readings⟩

theorem Spends.trans (h : Spends dt v l l') (h' : Spends dt w l' l'') :
    Spends dt (v + w) l l'' where
  objective := by rw [h'.objective, h.objective]; exact Nat.add_assoc ..
  gradient := by rw [h'.gradient, h.gradient]; exact Nat.add_assoc ..
  constraints := by rw [h'.constraints, h.constraints]; exact Nat.add_assoc ..
  jacobian := by rw [h'.jacobian, h.jacobian]; exact Nat.add_assoc ..
  hessian := by rw [h'.hessian, h.hessian]; exact Nat.add_assoc ..
  worked := by
    rw [h'.worked, h.worked, Work.evaluations_add, Nat.add_comm, Function.iterate_add_apply]
  drift := h'.drift.trans h.drift
  readings := Nat.le_trans h.readings h'.readings

theorem Spends.rests (h : Spends dt w l l') (h' : Rests l' l'') : Spends dt w l l'' := by
  simpa using h.trans h'.spends

theorem Rests.spends_trans (h : Rests l l') (h' : Spends dt w l' l'') : Spends dt w l l'' := by
  simpa using h.spends.trans h'

omit [Scalar K] in
@[simp] theorem Quiet.refl : Quiet l l :=
  ⟨⟨rfl, rfl, rfl, rfl, rfl, rfl, rfl, Nat.le_refl _⟩, rfl⟩

omit [Scalar K] in
theorem Rests.trans (h : Rests l l') (h' : Rests l' l'') : Rests l l'' :=
  ⟨h'.objective.trans h.objective, h'.gradient.trans h.gradient,
    h'.constraints.trans h.constraints, h'.jacobian.trans h.jacobian, h'.hessian.trans h.hessian,
    h'.worked.trans h.worked, h'.drift.trans h.drift, Nat.le_trans h.readings h'.readings⟩

omit [Scalar K] in
theorem Quiet.trans (h : Quiet l l') (h' : Quiet l' l'') : Quiet l l'' :=
  ⟨h.toRests.trans h'.toRests, h'.checks.trans h.checks⟩

theorem Spends.evaluations (h : Spends dt w l l') :
    l'.counters.evaluations = l.counters.evaluations + w.evaluations := by
  simp only [Counters.evaluations, Work.evaluations, h.objective, h.constraints]
  omega

omit [Scalar K] in
theorem Rests.evaluations (h : Rests l l') : l'.counters.evaluations = l.counters.evaluations := by
  rw [Counters.evaluations, Counters.evaluations, h.objective, h.constraints]

omit [Scalar K] in
theorem quiet_afterReading : Quiet l l.afterReading :=
  ⟨⟨rfl, rfl, rfl, rfl, rfl, rfl, rfl, Nat.le_succ _⟩, rfl⟩

omit [Scalar K] in
theorem quiet_rows (rows : List (ProgressRow K)) : Quiet l { l with rows } :=
  ⟨⟨rfl, rfl, rfl, rfl, rfl, rfl, rfl, Nat.le_refl _⟩, rfl⟩

theorem Spends.shows (h : Spends dt w l l') (i n : Nat) :
    l'.clock.shows dt i n =
      l.clock.shows dt (i + w.evaluations) (l'.clock.readings - l.clock.readings + n) := by
  have hn : l'.clock.readings + n =
      l.clock.readings + (l'.clock.readings - l.clock.readings + n) := by
    have := h.readings
    omega
  simp only [Clock.shows, h.worked, h.drift, Function.iterate_add_apply, hn]

theorem Spends.neverGoesBack (h : Spends dt w l l') (hl : l.clock.NeverGoesBack dt) :
    l'.clock.NeverGoesBack dt := by
  intro i j m n hij hmn moment limit
  rw [h.shows, h.shows]
  exact hl _ _ _ _ (by omega) (by omega) moment limit

theorem Spends.isStill (h : Spends dt w l l') (hl : l.clock.IsStill dt) : l'.clock.IsStill dt := by
  have hn : l'.clock.readings = l.clock.readings + (l'.clock.readings - l.clock.readings) := by
    have := h.readings
    omega
  have hworked : l'.clock.worked = l.clock.worked := by
    rw [h.worked]
    exact Function.iterate_fixed hl.worked _
  refine ⟨?_, fun n => ?_⟩
  · rw [hworked]
    exact hl.worked
  · rw [h.drift, hn, Nat.add_assoc, hl.drift, hl.drift]

theorem time_eq_shows (dt : K) (l : Ledger K) : l.time = l.clock.shows dt 0 0 := rfl

theorem Spends.time_eq (h : Spends dt w l l') (hl : l.clock.IsStill dt) : l'.time = l.time := by
  rw [time_eq_shows dt, time_eq_shows dt, h.shows, hl.shows_eq]

end Ledger

namespace Budget

open Ledger

variable {K : Type} [Scalar K] {dt : K} {v w : Work} {l l₁ l' l'' : Ledger K} {b : Budget K}

/-- What a check of the budget sees. -/
def look (b : Budget K) (l : Ledger K) : BudgetCheck K :=
  ⟨l.counters.evaluations,
    if b.maxEvaluations < (l.counters.evaluations : Int) then none
    else some (l.time - b.startTime)⟩

omit [Scalar K] in
theorem evaluations_returns {n : Nat} :
    Returns (evaluations (K := K)) l n l' ↔ n = l.counters.evaluations ∧ l' = l := by
  simp only [evaluations, Counted.counters, bind_pure_comp, Counted.returns_map,
    Counted.returns_get]
  constructor
  · rintro ⟨_, ⟨_, ⟨rfl, rfl⟩, rfl⟩, rfl⟩
    exact ⟨rfl, rfl⟩
  · rintro ⟨rfl, rfl⟩
    exact ⟨_, ⟨_, ⟨rfl, rfl⟩, rfl⟩, rfl⟩

theorem start_returns {maxEvaluations : Int} {maxTime : K} :
    Returns (start maxEvaluations maxTime) l b l' ↔
      b = ⟨maxEvaluations, maxTime, l.time⟩ ∧ l' = l.afterReading := by
  simp only [start, Counted.time, bind_pure_comp, Counted.returns_map,
    Counted.returns_modifyGet, Prod.mk.injEq]
  constructor
  · rintro ⟨_, ⟨rfl, rfl⟩, rfl⟩
    exact ⟨rfl, rfl⟩
  · rintro ⟨rfl, rfl⟩
    exact ⟨_, ⟨rfl, rfl⟩, rfl⟩

theorem elapsed_returns {t : K} :
    Returns b.elapsed l t l' ↔ t = l.time - b.startTime ∧ l' = l.afterReading := by
  simp only [elapsed, Counted.time, bind_pure_comp, Counted.returns_map,
    Counted.returns_modifyGet, Prod.mk.injEq]
  constructor
  · rintro ⟨_, ⟨rfl, rfl⟩, rfl⟩
    exact ⟨rfl, rfl⟩
  · rintro ⟨rfl, rfl⟩
    exact ⟨_, ⟨rfl, rfl⟩, rfl⟩

theorem check_returns {k : BudgetCheck K} (h : Returns b.check l k l') :
    k = b.look l ∧ Quiet l l' := by
  simp only [check, Counted.returns_bind, evaluations_returns, Counted.returns_ite,
    Counted.returns_pure, elapsed_returns] at h
  obtain ⟨_, _, ⟨rfl, rfl⟩, ⟨hb, rfl, rfl⟩ | ⟨hb, _, _, ⟨rfl, rfl⟩, rfl, rfl⟩⟩ := h
  · exact ⟨by simp [look, hb], .refl⟩
  · exact ⟨by simp [look, hb], quiet_afterReading⟩

theorem exhausted_returns {t : Option Limit} (h : Returns b.exhausted l t l') :
    t = b.verdict (b.look l) ∧ l'.checks = l.checks ++ [b.look l] ∧ Rests l l' := by
  simp only [exhausted, Counted.recordCheck, Counted.returns_bind, Counted.returns_modify,
    Counted.returns_pure] at h
  obtain ⟨k, l₁, hk, _, _, rfl, rfl, rfl⟩ := h
  obtain ⟨rfl, hq⟩ := check_returns hk
  refine ⟨rfl, by simp [hq.checks], ?_⟩
  exact ⟨hq.objective, hq.gradient, hq.constraints, hq.jacobian, hq.hessian, hq.worked, hq.drift,
    hq.readings⟩

theorem exhausted_of (b : Budget K) (l : Ledger K) :
    ∃ l', Returns b.exhausted l (b.verdict (b.look l)) l' := by
  simp only [exhausted, check, Counted.recordCheck, Counted.returns_bind, Counted.returns_ite,
    Counted.returns_pure, Counted.returns_modify, evaluations_returns, elapsed_returns]
  by_cases hmore : b.maxEvaluations < (l.counters.evaluations : Int)
  · refine ⟨_, b.look l, _, ⟨_, _, ⟨rfl, rfl⟩, .inl ⟨hmore, ?_, rfl⟩⟩, (), _, rfl, rfl, rfl⟩
    simp [look, hmore]
  · refine ⟨_, b.look l, _, ⟨_, _, ⟨rfl, rfl⟩, .inr ⟨hmore, _, _, ⟨rfl, rfl⟩, ?_, rfl⟩⟩, (), _,
      rfl, rfl, rfl⟩
    simp [look, hmore]

theorem verdict_look_evaluations_iff :
    b.verdict (b.look l) = some .evaluations ↔
      b.maxEvaluations < (l.counters.evaluations : Int) := by
  simp only [verdict, look]
  split
  · simp [*]
  · simp only [*]
    split <;> simp

theorem verdict_look_eq_none_iff :
    b.verdict (b.look l) = none ↔
      ¬ b.maxEvaluations < (l.counters.evaluations : Int) ∧
        ¬ b.maxTime < l.time - b.startTime := by
  simp only [verdict, look]
  split
  · simp [*]
  · simp only [*]
    split <;> simp [*]

/-- With a clock that never goes back, a budget that was exhausted stays so. -/
theorem verdict_look_persists (hl : l.clock.NeverGoesBack dt) (h : Spends dt w l l')
    (hv : b.verdict (b.look l) ≠ none) : b.verdict (b.look l') ≠ none := by
  intro hn
  apply hv
  rw [verdict_look_eq_none_iff] at hn ⊢
  obtain ⟨hevals, htime⟩ := hn
  have he := h.evaluations
  refine ⟨by omega, fun hpast => htime ?_⟩
  rw [time_eq_shows dt] at hpast ⊢
  rw [h.shows]
  exact hl _ _ _ _ (by omega) (by omega) _ _ hpast

/-- The last check of the budget was made between two ledgers, it came to this verdict, and nothing
was evaluated since. -/
def Told (dt : K) (b : Budget K) (t : Option Limit) (l l' : Ledger K) : Prop :=
  ∃ v l₁, Spends dt v l l₁ ∧ l'.checks.getLast? = some (b.look l₁) ∧ b.verdict (b.look l₁) = t ∧
    Rests l₁ l'

theorem told_of_exhausted {t : Option Limit} (h : Returns b.exhausted l t l') :
    b.Told dt t l l' := by
  obtain ⟨rfl, hchecks, hrests⟩ := exhausted_returns h
  exact ⟨0, l, Quiet.refl.toRests.spends, by simp [hchecks], rfl, hrests⟩

theorem Told.quiet {t : Option Limit} (h : b.Told dt t l l') (hquiet : Quiet l' l'') :
    b.Told dt t l l'' := by
  obtain ⟨v, l₁, hv, hlast, hverdict, hrests⟩ := h
  exact ⟨v, l₁, hv, by rw [hquiet.checks, hlast], hverdict, hrests.trans hquiet.toRests⟩

theorem Told.after {t : Option Limit} (h : b.Told dt t l' l'') (h' : Spends dt w l l') :
    b.Told dt t l l'' := by
  obtain ⟨v, l₁, hv, hlast, hverdict, hrests⟩ := h
  exact ⟨w + v, l₁, h'.trans hv, hlast, hverdict, hrests⟩

theorem verdict_look_eq (hl : l.clock.IsStill dt) (h : Spends dt v l l₁) (h' : Spends dt w l₁ l')
    (hw : w.evaluations = 0) : b.verdict (b.look l') = b.verdict (b.look l₁) := by
  have htime : l'.time = l₁.time := h'.time_eq (h.isStill hl)
  have hevaluations : l'.counters.evaluations = l₁.counters.evaluations := by
    rw [h'.evaluations, hw, Nat.add_zero]
  rw [look, look, htime, hevaluations]

theorem Told.verdict_eq {t : Option Limit} (h : b.Told dt t l l') (hl : l.clock.IsStill dt) :
    b.verdict (b.look l') = t := by
  obtain ⟨v, l₁, hv, -, rfl, hrests⟩ := h
  exact verdict_look_eq hl hv hrests.spends rfl

/-- Somewhere between two ledgers the budget was seen to be exhausted. -/
def RanOut (dt : K) (b : Budget K) (l l' : Ledger K) : Prop :=
  ∃ v w l₁, Spends dt v l l₁ ∧ b.verdict (b.look l₁) ≠ none ∧ Spends dt w l₁ l'

theorem RanOut.after {v : Work} (h : b.RanOut dt l' l'') (h' : Spends dt v l l') :
    b.RanOut dt l l'' := by
  obtain ⟨v', w, l₁, hv, hverdict, hw⟩ := h
  exact ⟨v + v', w, l₁, h'.trans hv, hverdict, hw⟩

theorem RanOut.trans (h : b.RanOut dt l l') (h' : Spends dt w l' l'') : b.RanOut dt l l'' := by
  obtain ⟨v, w', l₁, hv, hverdict, hw'⟩ := h
  exact ⟨v, w' + w, l₁, hv, hverdict, hw'.trans h'⟩

theorem not_ranOut (hl : l.clock.IsStill dt)
    (hevaluations : (l'.counters.evaluations : Int) ≤ b.maxEvaluations)
    (htime : ¬ b.maxTime < l.time - b.startTime) : ¬ b.RanOut dt l l' := by
  rintro ⟨v, w, l₁, hv, hverdict, hw⟩
  have hlater := hw.evaluations
  apply hverdict
  rw [verdict_look_eq_none_iff, hv.time_eq hl]
  exact ⟨by omega, htime⟩

theorem RanOut.verdict_ne_none (h : b.RanOut dt l l') (hl : l.clock.NeverGoesBack dt) :
    b.verdict (b.look l') ≠ none := by
  obtain ⟨v, w, l₁, hv, hverdict, hw⟩ := h
  exact verdict_look_persists (hv.neverGoesBack hl) hw hverdict

/-- The time since the start, as the clock showed it at a moment between two ledgers. -/
def Clocked (dt : K) (b : Budget K) (elapsed : K) (l l' : Ledger K) : Prop :=
  ∃ v w l₁, Spends dt v l l₁ ∧ elapsed = l₁.time - b.startTime ∧ Spends dt w l₁ l'

theorem clocked_of_elapsed {t : K} (h : Returns b.elapsed l t l') : b.Clocked dt t l l' := by
  obtain ⟨rfl, rfl⟩ := elapsed_returns.1 h
  exact ⟨0, 0, l, Quiet.refl.toRests.spends, rfl, quiet_afterReading.toRests.spends⟩

theorem Clocked.after {t : K} (h : b.Clocked dt t l' l'') (h' : Spends dt w l l') :
    b.Clocked dt t l l'' := by
  obtain ⟨v, w', l₁, hv, rfl, hw'⟩ := h
  exact ⟨w + v, w', l₁, h'.trans hv, rfl, hw'⟩

theorem Clocked.trans {t : K} (h : b.Clocked dt t l l') (h' : Spends dt w l' l'') :
    b.Clocked dt t l l'' := by
  obtain ⟨v, w', l₁, hv, rfl, hw'⟩ := h
  exact ⟨v, w' + w, l₁, hv, rfl, hw'.trans h'⟩

theorem Clocked.lt_self {t t' : K} (h : b.Clocked dt t l l') (h' : b.Clocked dt t' l' l'')
    (hl : l.clock.NeverGoesBack dt) (hlt : t' < t) : t' < t' := by
  obtain ⟨v, w, l₁, hv, rfl, hw⟩ := h
  obtain ⟨v', w', l₂, hv', rfl, -⟩ := h'
  have hlater := hw.trans hv'
  rw [time_eq_shows dt] at hlt
  have hpast := hv.neverGoesBack hl 0 (w + v').evaluations 0 (l₂.clock.readings - l₁.clock.readings)
    (Nat.zero_le _) (Nat.zero_le _) b.startTime (l₂.time - b.startTime) hlt
  have hshows := hlater.shows 0 0
  rw [Nat.zero_add, Nat.add_zero] at hshows
  rwa [← hshows, ← time_eq_shows dt] at hpast

end Budget

end InfeasibilityControl
