import InfeasibilityControl.Proofs.Evaluation
import Mathlib.Logic.Relation

set_option autoImplicit false
set_option relaxedAutoImplicit false

/-!
What a normal step keeps and what it spends.

Constraints and Jacobian of the result are those at its point, every trial costs one evaluation of
the constraints, and without a trial nothing has changed. The step reports success exactly if the
constraints are inside the radius, and exhaustion only after a check of the budget said so.
-/

namespace InfeasibilityControl

open Counted (Returns)
open Ledger (Spends Rests Quiet)

variable {K : Type} [Scalar K] {l l' : Ledger K} {p : Problem K} {options : NormalOptions K}
  {b : Budget K} {radius : K} {solver : LeastSquares.Solver K}

namespace NormalState

variable {s s' : NormalState K} {status : NormalStatus} {g Jg : Vec K}

/-- The ways in which the passes end at a state. -/
inductive Ends (b : Budget K) (radius : K) (s : NormalState K) (l : Ledger K) :
    NormalStatus → Ledger K → Prop
  | success (inside : s.constraintNorm ≤ radius) : Ends b radius s l .success l
  | exhausted {limit : Limit} {l' : Ledger K} (outside : ¬ s.constraintNorm ≤ radius)
      (verdict : b.verdict (b.look l) = some limit) (rests : Rests l l') :
      Ends b radius s l (.exhausted limit) l'
  | infeasible {l' : Ledger K} (outside : ¬ s.constraintNorm ≤ radius) (rests : Rests l l') :
      Ends b radius s l .infeasible l'

theorem examine_returns {x : NormalStatus ⊕ (Vec K × Vec K)}
    (h : Returns (s.examine options b radius) l x l') :
    (∃ status, x = .inl status ∧ s.Ends b radius l status l') ∨
      ∃ directions, x = .inr directions ∧ b.verdict (b.look l) = none ∧ Rests l l' := by
  simp only [examine, Counted.returns_bind, Counted.returns_ite, Counted.returns_pure] at h
  obtain ⟨hinside, rfl, rfl⟩ | ⟨houtside, t, l₁, ht, h⟩ := h
  · exact .inl ⟨_, rfl, .success hinside⟩
  obtain ⟨rfl, -, hrests⟩ := Budget.exhausted_returns ht
  split at h
  · rename_i limit hlimit
    simp only [Counted.returns_pure] at h
    obtain ⟨rfl, rfl⟩ := h
    exact .inl ⟨_, rfl, .exhausted houtside hlimit hrests⟩
  rename_i hwithin
  simp only [Counted.returns_bind, Counted.returns_ite, Counted.returns_pure,
    Counted.returns_except] at h
  obtain ⟨g, l₂, hg, hsearch⟩ := h
  have hg := hrests.trans (SparseMatrix.transposedProduct_returns hg).2.toRests
  obtain ⟨-, rfl, rfl⟩ | ⟨-, Jg, l₃, hJg, hsearch⟩ := hsearch
  · exact .inl ⟨_, rfl, .infeasible houtside hg⟩
  have hJg := hg.trans (SparseMatrix.product_returns hJg).2.toRests
  obtain ⟨-, _, _, ⟨-, rfl⟩, ⟨-, rfl, rfl⟩ | ⟨-, hregion⟩⟩ | ⟨-, hregion⟩ := hsearch
  · exact .inl ⟨_, rfl, .infeasible houtside hJg⟩
  all_goals
    obtain ⟨-, rfl, rfl⟩ | ⟨-, rfl, rfl⟩ := hregion
    · exact .inl ⟨_, rfl, .infeasible houtside hJg⟩
    · exact .inr ⟨_, rfl, hwithin, hJg⟩

/-- An accepted trial has smaller constraints and a Jacobian of its own. -/
structure Accepts (p : Problem K) (s s' : NormalState K) (l l' : Ledger K) : Prop where
  constraints : p.constraints s'.point = .ok s'.constraints
  constraintNorm : s'.constraintNorm = Vec.norm s'.constraints
  decrease : s'.constraintNorm < s.constraintNorm
  jacobian : p.jacobian s'.point = .ok s'.jacobian
  spent : Spends p.evaluationTime ⟨0, 0, 1, 1, 0⟩ l l'

/-- A rejected trial leaves the point with all that is known there. -/
structure Rejects (p : Problem K) (s s' : NormalState K) (l l' : Ledger K) : Prop where
  point : s'.point = s.point
  constraints : s'.constraints = s.constraints
  constraintNorm : s'.constraintNorm = s.constraintNorm
  jacobian : s'.jacobian = s.jacobian
  spent : Spends p.evaluationTime ⟨0, 0, 1, 0, 0⟩ l l'

/-- What a pass does that makes a trial. It is made only while there are evaluations left. -/
structure Tries (p : Problem K) (b : Budget K) (s : NormalState K) (t : Trial K)
    (s' : NormalState K) (l l' : Ledger K) : Prop where
  within : (l.counters.evaluations : Int) ≤ b.maxEvaluations
  trials : s'.trials = s.trials ++ [t]
  evaluationsBefore : t.evaluationsBefore = l.counters.evaluations
  outcome : (t.accepted = true ∧ s.Accepts p s' l l') ∨ (t.accepted = false ∧ s.Rejects p s' l l')

theorem Accepts.after {l₁ : Ledger K} (h : s.Accepts p s' l₁ l') (hrests : Rests l l₁) :
    s.Accepts p s' l l' :=
  ⟨h.constraints, h.constraintNorm, h.decrease, h.jacobian, hrests.spends_trans h.spent⟩

theorem Rejects.after {l₁ : Ledger K} (h : s.Rejects p s' l₁ l') (hrests : Rests l l₁) :
    s.Rejects p s' l l' :=
  ⟨h.point, h.constraints, h.constraintNorm, h.jacobian, hrests.spends_trans h.spent⟩

theorem attempt_returns (h : Returns (s.attempt solver p options g Jg) l s' l') :
    ∃ t, s'.trials = s.trials ++ [t] ∧ t.evaluationsBefore = l.counters.evaluations ∧
      ((t.accepted = true ∧ s.Accepts p s' l l') ∨ (t.accepted = false ∧ s.Rejects p s' l l')) := by
  simp only [attempt, Counted.returns_bind, Counted.returns_ite, Counted.returns_pure,
    Counted.returns_except, Budget.evaluations_returns] at h
  obtain ⟨_, _, hsolve, _, _, ⟨-, rfl⟩, _, _, ⟨-, rfl⟩, _, _, himage, _, _, ⟨-, rfl⟩, _, _,
    ⟨-, rfl⟩, point, _, ⟨-, rfl⟩, _, _, ⟨rfl, rfl⟩, c, _, hc, ratio, _, ⟨-, rfl⟩, htrial⟩ := h
  have hmodel := (SparseMatrix.leastSquares_returns hsolve).2.trans
    (SparseMatrix.product_returns himage).2
  obtain ⟨hc, hspent⟩ := Problem.constraintsAt_returns hc
  have hspent := hmodel.toRests.spends_trans hspent
  obtain ⟨haccepted, J, _, hJ, rfl, rfl⟩ | ⟨hrejected, rfl, rfl⟩ := htrial
  · obtain ⟨hJ, hJspent⟩ := Problem.jacobianAt_returns hJ
    have hdecrease : Vec.norm c < s.constraintNorm := by
      simp only [Bool.and_eq_true, decide_eq_true_eq] at haccepted
      exact haccepted.2
    exact ⟨_, rfl, hmodel.evaluations,
      .inl ⟨haccepted, hc, rfl, hdecrease, hJ, hspent.trans hJspent⟩⟩
  · exact ⟨_, rfl, hmodel.evaluations,
      .inr ⟨by simpa using hrejected, rfl, rfl, rfl, rfl, hspent⟩⟩

/-- All that a state holds is what the problem gives at its point. -/
structure IsCurrent (p : Problem K) (s : NormalState K) : Prop where
  constraints : p.constraints s.point = .ok s.constraints
  jacobian : p.jacobian s.point = .ok s.jacobian
  constraintNorm : s.constraintNorm = Vec.norm s.constraints

theorem IsCurrent.decided {t : Trial K} (hs : s.IsCurrent p)
    (h : (t.accepted = true ∧ s.Accepts p s' l l') ∨
      (t.accepted = false ∧ s.Rejects p s' l l')) : s'.IsCurrent p := by
  obtain ⟨-, haccepts⟩ | ⟨-, hrejects⟩ := h
  · exact ⟨haccepts.constraints, haccepts.jacobian, haccepts.constraintNorm⟩
  · refine ⟨?_, ?_, ?_⟩
    · rw [hrejects.point, hrejects.constraints]
      exact hs.constraints
    · rw [hrejects.point, hrejects.jacobian]
      exact hs.jacobian
    · rw [hrejects.constraintNorm, hrejects.constraints]
      exact hs.constraintNorm

theorem IsCurrent.attempted (hs : s.IsCurrent p)
    (h : Returns (s.attempt solver p options g Jg) l s' l') : s'.IsCurrent p := by
  obtain ⟨t, -, -, houtcome⟩ := attempt_returns h
  exact hs.decided houtcome

theorem conclude_returns (h : Returns (s.conclude b radius) l status l') :
    s.Ends b radius l status l' := by
  simp only [conclude, Counted.returns_bind, Counted.returns_ite, Counted.returns_pure] at h
  obtain ⟨hinside, rfl, rfl⟩ | ⟨houtside, t, l₁, ht, h⟩ := h
  · exact .success hinside
  obtain ⟨rfl, -, hrests⟩ := Budget.exhausted_returns ht
  split at h
  · rename_i limit hlimit
    simp only [Counted.returns_pure] at h
    obtain ⟨rfl, rfl⟩ := h
    exact .exhausted houtside hlimit hrests
  · simp only [Counted.returns_pure] at h
    obtain ⟨rfl, rfl⟩ := h
    exact .infeasible houtside hrests

/-- The passes of a normal step in the order in which they are made, from a state to the last one:
each ends the step or makes a trial, and the step is concluded once all of them are made. -/
inductive Runs (solver : LeastSquares.Solver K) (p : Problem K) (options : NormalOptions K)
    (b : Budget K) (radius : K) :
    Nat → Nat → NormalState K → Ledger K → NormalState K → NormalStatus → Int → Ledger K → Prop
  | concluded {made : Nat} {s : NormalState K} {status : NormalStatus} {l l' : Ledger K}
      (concluding : Returns (s.conclude b radius) l status l') :
      Runs solver p options b radius 0 made s l s status options.maxTrials l'
  | ended {passes made : Nat} {s : NormalState K} {status : NormalStatus} {l l' : Ledger K}
      (ending : Returns (s.examine options b radius) l (.inl status) l') :
      Runs solver p options b radius (passes + 1) made s l s status made l'
  | tried {passes made : Nat} {s s₁ last : NormalState K} {g Jg : Vec K} {status : NormalStatus}
      {count : Int} {l l₁ l₂ l' : Ledger K}
      (aiming : Returns (s.examine options b radius) l (.inr (g, Jg)) l₁)
      (trying : Returns (s.attempt solver p options g Jg) l₁ s₁ l₂)
      (later : Runs solver p options b radius passes (made + 1) s₁ l₂ last status count l') :
      Runs solver p options b radius (passes + 1) made s l last status count l'

theorem runs_of_iterate {passes made : Nat} {last : NormalState K} {count : Int}
    (h : Returns (iterate solver p options b radius passes made s) l (last, status, count) l') :
    Runs solver p options b radius passes made s l last status count l' := by
  induction passes generalizing made s l with
  | zero =>
    simp only [iterate, Counted.returns_bind, Counted.returns_pure, Prod.mk.injEq] at h
    obtain ⟨_, _, hconclude, ⟨rfl, rfl, rfl⟩, rfl⟩ := h
    exact .concluded hconclude
  | succ passes ih =>
    simp only [iterate, Counted.returns_bind] at h
    obtain ⟨x, l₁, hexamine, h⟩ := h
    rcases x with ending | ⟨g, Jg⟩
    · simp only [Counted.returns_pure, Prod.mk.injEq] at h
      obtain ⟨⟨rfl, rfl, rfl⟩, rfl⟩ := h
      exact .ended hexamine
    · simp only [Counted.returns_bind] at h
      obtain ⟨s₁, l₂, hattempt, h⟩ := h
      exact .tried hexamine hattempt (ih h)

/-- What holds where the passes begin and is kept by every trial holds where they end. -/
theorem iterate_returns {P : NormalState K → Ledger K → Prop} {passes made : Nat}
    {last : NormalState K} {count : Int}
    (h : Returns (iterate solver p options b radius passes made s) l (last, status, count) l')
    (hs : P s l) (tried : ∀ s l t s' l', P s l → s.Tries p b t s' l l' → P s' l') :
    ∃ l₁, P last l₁ ∧ last.Ends b radius l₁ status l' := by
  replace h := runs_of_iterate h
  induction h with
  | concluded concluding => exact ⟨_, hs, conclude_returns concluding⟩
  | ended ending =>
    obtain ⟨_, hstatus, hends⟩ | ⟨_, haims, -⟩ := examine_returns ending
    · cases hstatus
      exact ⟨_, hs, hends⟩
    · cases haims
  | tried aiming trying later ih =>
    obtain ⟨_, hends, -⟩ | ⟨_, -, hwithin, hrests⟩ := examine_returns aiming
    · cases hends
    · obtain ⟨t, htrials, hbefore, htrial⟩ := attempt_returns trying
      have hleft := (Budget.verdict_look_eq_none_iff.1 hwithin).1
      refine ih (tried _ _ t _ _ hs ⟨Int.not_lt.1 hleft, htrials, ?_, ?_⟩)
      · rw [hbefore, hrests.evaluations]
      · exact htrial.imp (fun h => ⟨h.1, h.2.after hrests⟩) fun h => ⟨h.1, h.2.after hrests⟩

/-- Each pass but the last makes a trial, and the last one makes none unless it is the last that is
allowed. -/
theorem iterate_passes {passes made : Nat} {last : NormalState K} {count : Int}
    (h : Returns (iterate solver p options b radius passes made s) l (last, status, count) l')
    (hmade : s.trials.length = made) (hmax : options.maxTrials = made + passes) :
    count = last.trials.length := by
  replace h := runs_of_iterate h
  induction h with
  | concluded concluding => omega
  | ended ending => rw [hmade]
  | tried aiming trying later ih =>
    obtain ⟨t, htrials, -⟩ := attempt_returns trying
    refine ih ?_ (by omega)
    rw [htrials, List.length_append, hmade, List.length_singleton]

end NormalState

/-- What a normal step from a point with these constraints and this Jacobian has done. -/
structure NormalOutcome.Follows (p : Problem K) (b : Budget K) (start constraints : Vec K)
    (J : SparseMatrix K) (o : NormalOutcome K) (l l' : Ledger K) : Prop where
  constraints_eq : p.constraints start = .ok constraints →
    p.constraints o.point = .ok o.constraints
  jacobian_eq : p.jacobian start = .ok J → p.jacobian o.point = .ok o.jacobian
  unmoved : o.trials = [] → o.point = start ∧ o.constraints = constraints ∧ o.jacobian = J
  /-- The norm of the constraints has come down step by step. -/
  descent : o.point = start ∨
    Relation.TransGen (fun a b : K => a < b) o.primalNorm (Vec.norm constraints)
  spent : Spends p.evaluationTime ⟨0, 0, o.trials.length, o.trials.countP Trial.accepted, 0⟩ l l'
  within : ∀ t ∈ o.trials, (t.evaluationsBefore : Int) ≤ b.maxEvaluations
  /-- The last trial is the only one that may exceed the budget. -/
  ceiling : o.trials = [] ∨ (l'.counters.evaluations : Int) ≤ b.maxEvaluations + 1
  success_iff : o.status = .success ↔ o.primalNorm ≤ o.radius
  exhausted : ∀ limit, o.status = .exhausted limit → b.RanOut p.evaluationTime l l'

theorem NormalOutcome.Follows.after {start c : Vec K} {J : SparseMatrix K} {o : NormalOutcome K}
    {l₁ : Ledger K} (h : o.Follows p b start c J l₁ l') (hrests : Rests l l₁) :
    o.Follows p b start c J l l' :=
  ⟨h.constraints_eq, h.jacobian_eq, h.unmoved, h.descent, hrests.spends_trans h.spent, h.within,
    h.ceiling, h.success_iff, fun limit hlimit => (h.exhausted limit hlimit).after hrests.spends⟩

theorem NormalOutcome.Follows.not_exhausted {start c : Vec K} {J : SparseMatrix K}
    {o : NormalOutcome K} (h : o.Follows p b start c J l l')
    (hstill : l.clock.IsStill p.evaluationTime)
    (hevaluations : (l.counters.evaluations + o.trials.length : Int) ≤ b.maxEvaluations)
    (htime : ¬ b.maxTime < l.time - b.startTime) (limit : Limit) :
    o.status ≠ .exhausted limit := by
  have hspent : l'.counters.evaluations = l.counters.evaluations + (0 + o.trials.length) :=
    h.spent.evaluations
  exact fun hstatus => Budget.not_ranOut hstill (by omega) htime (h.exhausted limit hstatus)

/-- What the trials made so far have kept. -/
private structure NormalState.Keeps (p : Problem K) (b : Budget K) (s first : NormalState K)
    (l l' : Ledger K) : Prop where
  constraints_eq : p.constraints first.point = .ok first.constraints →
    p.constraints s.point = .ok s.constraints
  jacobian_eq : p.jacobian first.point = .ok first.jacobian → p.jacobian s.point = .ok s.jacobian
  constraintNorm : s.constraintNorm = Vec.norm s.constraints
  unmoved : s.trials = [] →
    s.point = first.point ∧ s.constraints = first.constraints ∧ s.jacobian = first.jacobian
  descent : (s.point = first.point ∧ s.constraintNorm = first.constraintNorm) ∨
    Relation.TransGen (fun a b : K => a < b) s.constraintNorm first.constraintNorm
  spent : Spends p.evaluationTime ⟨0, 0, s.trials.length, s.trials.countP Trial.accepted, 0⟩ l l'
  within : ∀ t ∈ s.trials, (t.evaluationsBefore : Int) ≤ b.maxEvaluations
  ceiling : s.trials = [] ∨ (l'.counters.evaluations : Int) ≤ b.maxEvaluations + 1

private theorem NormalState.Keeps.tried {first s s' : NormalState K} {l₁ : Ledger K}
    {t : Trial K} (hs : s.Keeps p b first l l₁) (h : s.Tries p b t s' l₁ l') :
    s'.Keeps p b first l l' := by
  have hnew : s'.trials ≠ [] := by simp [h.trials]
  have hlength : s'.trials.length = s.trials.length + 1 := by simp [h.trials]
  have hspent := hs.spent
  have hwithin : ∀ t ∈ s'.trials, (t.evaluationsBefore : Int) ≤ b.maxEvaluations := by
    rw [h.trials]
    intro t' hmem
    obtain hmem | hmem := List.mem_append.1 hmem
    · exact hs.within t' hmem
    · rw [List.mem_singleton.1 hmem, h.evaluationsBefore]
      exact h.within
  have hleft := h.within
  obtain ⟨htaken, haccepts⟩ | ⟨hturned, hrejects⟩ := h.outcome
  · have hcount : s'.trials.countP Trial.accepted = s.trials.countP Trial.accepted + 1 := by
      simp [h.trials, htaken]
    have hone := haccepts.spent.evaluations
    simp only [Work.evaluations] at hone
    refine ⟨fun _ => haccepts.constraints, fun _ => haccepts.jacobian, haccepts.constraintNorm,
      fun hnone => absurd hnone hnew, .inr ?_, ?_, hwithin, .inr (by omega)⟩
    · obtain ⟨-, hnorm⟩ | hdescent := hs.descent
      · rw [← hnorm]
        exact .single haccepts.decrease
      · exact .head haccepts.decrease hdescent
    · rw [hlength, hcount]
      exact hspent.trans haccepts.spent
  · have hcount : s'.trials.countP Trial.accepted = s.trials.countP Trial.accepted := by
      simp [h.trials, hturned]
    have hone := hrejects.spent.evaluations
    simp only [Work.evaluations] at hone
    refine ⟨?_, ?_, ?_, fun hnone => absurd hnone hnew, ?_, ?_, hwithin, .inr (by omega)⟩
    · rw [hrejects.point, hrejects.constraints]
      exact hs.constraints_eq
    · rw [hrejects.point, hrejects.jacobian]
      exact hs.jacobian_eq
    · rw [hrejects.constraintNorm, hrejects.constraints]
      exact hs.constraintNorm
    · rw [hrejects.point, hrejects.constraintNorm]
      exact hs.descent
    · rw [hlength, hcount]
      exact hspent.trans hrejects.spent

theorem normalStep_passes_known {start c : Vec K} {J : SparseMatrix K}
    {rho bound relativeDual floor : K} {o : NormalOutcome K}
    (h : Returns (normalStepWith solver p options b start c (some J) rho bound relativeDual floor)
      l o l') :
    ∃ last status count,
      Returns (NormalState.iterate solver p options b (updateRadius rho bound relativeDual floor)
        options.maxTrials.toNat 0 ⟨start, c, Vec.norm c, J, options.trustRadius, false, []⟩) l
        (last, status, count) l' ∧
      o = ⟨last.point, last.constraints, last.jacobian, updateRadius rho bound relativeDual floor,
        status, count, last.trustRadius, last.trials⟩ := by
  simp only [normalStepWith, Counted.returns_bind, Counted.returns_pure] at h
  obtain ⟨_, _, ⟨rfl, rfl⟩, ⟨last, status, count⟩, l₂, hpasses, rfl, rfl⟩ := h
  exact ⟨last, status, count, hpasses, rfl⟩

theorem normalStep_returns {start c : Vec K} {J : SparseMatrix K} {rho bound relativeDual floor : K}
    {o : NormalOutcome K}
    (h : Returns (normalStepWith solver p options b start c (some J) rho bound relativeDual floor)
      l o l') :
    o.radius = updateRadius rho bound relativeDual floor ∧ o.Follows p b start c J l l' := by
  obtain ⟨last, status, count, hpasses, rfl⟩ := normalStep_passes_known h
  have hfirst : NormalState.Keeps p b ⟨start, c, Vec.norm c, J, options.trustRadius, false, []⟩
      ⟨start, c, Vec.norm c, J, options.trustRadius, false, []⟩ l l :=
    ⟨id, id, rfl, fun _ => ⟨rfl, rfl, rfl⟩, .inl ⟨rfl, rfl⟩, Quiet.refl.toRests.spends,
      by simp, .inl rfl⟩
  obtain ⟨l₁, hkeeps, hend⟩ := NormalState.iterate_returns
    (P := fun s l₁ => s.Keeps p b ⟨start, c, Vec.norm c, J, options.trustRadius, false, []⟩ l l₁)
    hpasses hfirst fun s l₁ t s' l₂ hs htries => hs.tried htries
  have hrests : Rests l₁ l' := by
    cases hend with
    | success inside => exact Quiet.refl.toRests
    | exhausted outside verdict rests => exact rests
    | infeasible outside rests => exact rests
  have hnorm : last.constraintNorm = Vec.norm last.constraints := hkeeps.constraintNorm
  have hspent := hkeeps.spent
  refine ⟨rfl, ⟨hkeeps.constraints_eq, hkeeps.jacobian_eq, hkeeps.unmoved, ?_,
    hspent.rests hrests, hkeeps.within, ?_, ?_, ?_⟩⟩
  · rw [NormalOutcome.primalNorm, ← hnorm]
    exact hkeeps.descent.imp (fun hsame => hsame.1) id
  · rw [hrests.evaluations]
    exact hkeeps.ceiling
  · rw [NormalOutcome.primalNorm, ← hnorm]
    cases hend with
    | success inside => simp [inside]
    | exhausted outside verdict rests => simp [outside]
    | infeasible outside rests => simp [outside]
  · intro limit hlimit
    cases hend with
    | success inside => cases hlimit
    | infeasible outside rests => cases hlimit
    | exhausted outside verdict rests =>
      cases hlimit
      exact ⟨_, 0, l₁, hspent, by simp [verdict], rests.spends⟩

theorem normalStep_passes {start c : Vec K} {J : SparseMatrix K}
    {rho bound relativeDual floor : K} {o : NormalOutcome K}
    (h : Returns (normalStepWith solver p options b start c (some J) rho bound relativeDual floor)
      l o l')
    (hmax : 0 ≤ options.maxTrials) : o.passes = o.trials.length := by
  obtain ⟨last, status, count, hpasses, rfl⟩ := normalStep_passes_known h
  exact NormalState.iterate_passes hpasses rfl (by omega)

theorem normalStepWith_of_inside (solver : LeastSquares.Solver K) (p : Problem K)
    (options : NormalOptions K) (b : Budget K) (start : Vec K) (J : SparseMatrix K) {c : Vec K}
    {rho bound relativeDual floor : K}
    (h : Vec.norm c ≤ updateRadius rho bound relativeDual floor) (l : Ledger K) :
    ∃ passes,
      Returns (normalStepWith solver p options b start c (some J) rho bound relativeDual floor) l
        ⟨start, c, J, updateRadius rho bound relativeDual floor, .success, passes,
          options.trustRadius, []⟩ l := by
  let first : NormalState K := ⟨start, c, Vec.norm c, J, options.trustRadius, false, []⟩
  have hpasses : ∃ passes, Returns (NormalState.iterate solver p options b
      (updateRadius rho bound relativeDual floor) options.maxTrials.toNat 0 first) l
      (first, .success, passes) l := by
    cases options.maxTrials.toNat with
    | zero =>
      refine ⟨options.maxTrials, ?_⟩
      simp [NormalState.iterate, NormalState.conclude, first, h]
    | succ passes =>
      refine ⟨0, ?_⟩
      simp [NormalState.iterate, NormalState.examine, first, h]
  obtain ⟨passes, hpasses⟩ := hpasses
  refine ⟨passes, ?_⟩
  simp only [normalStepWith, Counted.returns_bind, Counted.returns_pure]
  exact ⟨J, l, ⟨rfl, rfl⟩, _, l, hpasses, rfl, rfl⟩

end InfeasibilityControl
