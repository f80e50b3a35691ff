import Mathlib
import InfeasibilityControl.Proofs.Exact.NormalStep
import InfeasibilityControl.Proofs.Run.Completion
import InfeasibilityControl.Proofs.Trial

set_option autoImplicit false
set_option relaxedAutoImplicit false

/-!
What a normal step restores.

Constraints and Jacobian of the result are those at its point. The point is the start exactly if no
trial was accepted, and otherwise its constraints are smaller than those at the start. Success is
reported exactly if they lie inside the updated radius, whichever way the step ended, and a step
that starts inside does nothing.
-/

namespace InfeasibilityControl

open Counted (Returns Completes)

section

variable {K : Type} [Scalar K] [ComparableScalar K] {l l' : Ledger K} {p : Problem K}
  {options : NormalOptions K} {b : Budget K} {radius : K}

/-- What is known of a normal step between two trials, by what became of the trials so far. -/
private structure NormalState.Descends (p : Problem K) (start c : Vec K) (J : SparseMatrix K)
    (s : NormalState K) : Prop where
  constraints : p.constraints s.point = .ok s.constraints
  jacobian : p.jacobian s.point = .ok s.jacobian
  constraintNorm : s.constraintNorm = Vec.norm s.constraints
  unmoved : (∀ t ∈ s.trials, t.accepted = false) → s.point = start ∧ s.constraints = c
  lower : (∃ t ∈ s.trials, t.accepted = true) → Vec.norm s.constraints < Vec.norm c

private theorem NormalState.Descends.tried {start c : Vec K} {J : SparseMatrix K}
    {s s' : NormalState K} {t : Trial K} (h : s.Descends p start c J)
    (htries : s.Tries p b t s' l l') : s'.Descends p start c J := by
  have hmem : ∀ u, u ∈ s'.trials ↔ u ∈ s.trials ∨ u = t := by
    intro u
    rw [htries.trials, List.mem_append, List.mem_singleton]
  have hcurrent : s'.IsCurrent p :=
    NormalState.IsCurrent.decided ⟨h.constraints, h.jacobian, h.constraintNorm⟩ htries.outcome
  obtain ⟨htaken, haccepts⟩ | ⟨hturned, hrejects⟩ := htries.outcome
  · have hstep : Vec.norm s'.constraints < Vec.norm s.constraints := by
      rw [← haccepts.constraintNorm, ← h.constraintNorm]
      exact haccepts.decrease
    refine ⟨hcurrent.constraints, hcurrent.jacobian, hcurrent.constraintNorm, ?_, ?_⟩
    · intro hnone
      have hrejected := hnone t ((hmem t).2 (.inr rfl))
      rw [htaken] at hrejected
      cases hrejected
    · intro _
      by_cases hearlier : ∃ u ∈ s.trials, u.accepted = true
      · exact ComparableScalar.lt_trans hstep (h.lower hearlier)
      · have hnone : ∀ u ∈ s.trials, u.accepted = false := by
          intro u hu
          exact Bool.eq_false_iff.2 fun haccepted => hearlier ⟨u, hu, haccepted⟩
        rw [(h.unmoved hnone).2] at hstep
        exact hstep
  · refine ⟨hcurrent.constraints, hcurrent.jacobian, hcurrent.constraintNorm, ?_, ?_⟩
    · intro hnone
      rw [hrejects.point, hrejects.constraints]
      exact h.unmoved fun u hu => hnone u ((hmem u).2 (.inl hu))
    · rintro ⟨u, hu, haccepted⟩
      rw [hrejects.constraints]
      obtain hu | rfl := (hmem u).1 hu
      · exact h.lower ⟨u, hu, haccepted⟩
      · rw [hturned] at haccepted
        cases haccepted

end

/-- A normal step that started at a point with these constraints has restored this much, its radius
being the given one. -/
structure NormalOutcome.IsRestored (p : Problem ℝ) (start c : Vec ℝ) (radius : ℝ)
    (o : NormalOutcome ℝ) : Prop where
  radius : o.radius = radius
  constraints : p.constraints o.point = .ok o.constraints
  jacobian : p.jacobian o.point = .ok o.jacobian
  norm_le : Vec.norm o.constraints ≤ Vec.norm c
  point_eq_iff : o.point = start ↔ ∀ t ∈ o.trials, t.accepted = false
  norm_lt : (∃ t ∈ o.trials, t.accepted = true) → Vec.norm o.constraints < Vec.norm c
  success_iff : o.status = .success ↔ Vec.norm o.constraints ≤ o.radius

variable {p : Problem ℝ} {options : NormalOptions ℝ} {b : Budget ℝ} {start c : Vec ℝ}
  {jacobian? : Option (SparseMatrix ℝ)} {rho bound relativeDual floor : ℝ}

/-- Whatever the parameters and the budget, a normal step returns what it has restored; and inside
the updated radius, with a Jacobian at hand, it returns its start and leaves the ledger alone. -/
theorem normalStep_isRestored (hc : p.constraints start = .ok c)
    (hJ : ∀ J ∈ jacobian?, p.jacobian start = .ok J) :
    (∀ l o l',
      Returns (normalStep p options b start c jacobian? rho bound relativeDual floor) l o l' →
      o.IsRestored p start c (updateRadius rho bound relativeDual floor)) ∧
    ∀ J, jacobian? = some J → Vec.norm c ≤ updateRadius rho bound relativeDual floor →
      ∀ l, ∃ o,
        Returns (normalStep p options b start c jacobian? rho bound relativeDual floor) l o l ∧
        o.point = start ∧ o.constraints = c ∧ o.jacobian = J ∧ o.status = .success := by
  constructor
  · intro l o l' h
    obtain ⟨J, l₁, last, hjacobian, -, hpasses, ho⟩ := normalStep_passes_from h hJ
    have hfirst : NormalState.Descends p start c J
        ⟨start, c, Vec.norm c, J, options.trustRadius, false, []⟩ :=
      ⟨hc, hjacobian, rfl, fun _ => ⟨rfl, rfl⟩, by simp⟩
    obtain ⟨l₂, hlast, hends⟩ := NormalState.iterate_returns
      (P := fun s _ => s.Descends p start c J) hpasses hfirst
      fun s l t s' l' hs htries => hs.tried htries
    have hsuccess : o.status = .success ↔
        Vec.norm last.constraints ≤ updateRadius rho bound relativeDual floor := by
      rw [← hlast.constraintNorm]
      generalize o.status = status at hends
      cases hends with
      | success inside => simp [inside]
      | exhausted outside verdict rests => simp [outside]
      | infeasible outside rests => simp [outside]
    rw [ho]
    refine ⟨rfl, hlast.constraints, hlast.jacobian, ?_, ?_, hlast.lower, hsuccess⟩
    · show Vec.norm last.constraints ≤ Vec.norm c
      by_cases haccepted : ∃ t ∈ last.trials, t.accepted = true
      · exact (hlast.lower haccepted).le
      · have hnone : ∀ t ∈ last.trials, t.accepted = false := by
          intro t ht
          exact Bool.eq_false_iff.2 fun htaken => haccepted ⟨t, ht, htaken⟩
        rw [(hlast.unmoved hnone).2]
    · show last.point = start ↔ ∀ t ∈ last.trials, t.accepted = false
      constructor
      · intro hpoint t ht
        by_contra htaken
        have hlower := hlast.lower ⟨t, ht, by simpa using htaken⟩
        -- The constraints are a function of the point.
        have hsame : last.constraints = c := by
          have hconstraints := hlast.constraints
          rw [hpoint, hc] at hconstraints
          exact (Except.ok.inj hconstraints).symm
        rw [hsame] at hlower
        exact lt_irrefl _ hlower
      · intro hnone
        exact (hlast.unmoved hnone).1
  · rintro J rfl hinside l
    obtain ⟨passes, hreturns⟩ :=
      normalStepWith_of_inside options.solver p options b start J hinside l
    exact ⟨_, hreturns, rfl, rfl, rfl, rfl⟩

/-- From a start outside the radius, and from the same start with a larger radius around it. -/
theorem realLine_isRestored :
    realLine.constraints [1] = .ok [1] ∧
      (∀ J ∈ some realLine.first.jacobian, realLine.jacobian [1] = .ok J) ∧
      (∃ o l', Returns (normalStep realLine .standard ⟨100, 60, 0⟩ [1] [1]
        (some realLine.first.jacobian) 1 1 0 0.5) .empty o l' ∧
        o.IsRestored realLine [1] [1] (updateRadius 1 1 0 0.5)) ∧
      ∃ o, Returns (normalStep realLine .standard ⟨100, 60, 0⟩ [1] [1]
        (some realLine.first.jacobian) 4 8 1 0.5) .empty o .empty ∧
        o.point = [1] ∧ o.status = .success := by
  have hc : realLine.constraints [1] = .ok [1] := rfl
  have hjacobian : realLine.jacobian [1] = .ok realLine.first.jacobian := rfl
  have hJ : ∀ J ∈ some realLine.first.jacobian, realLine.jacobian [1] = .ok J := by
    rintro _ ⟨⟩
    exact hjacobian
  refine ⟨hc, hJ, ?_, ?_⟩
  · have hstart : ([1] : Vec ℝ).length = realLine.variableCount := rfl
    have hcompletes := completes_normalStep realLine_isTotal
      NormalOptions.standard_minTrustRadius_pos hstart hc hjacobian ⟨100, 60, 0⟩ 1 1 0 0.5
    obtain ⟨o, l', hreturns, -⟩ := hcompletes .empty
    exact ⟨o, l', hreturns, (normalStep_isRestored hc hJ).1 _ o l' hreturns⟩
  · have hinside : Vec.norm [(1 : ℝ)] ≤ updateRadius 4 8 1 0.5 := by
      rw [realLine.norm_one, updateRadius, Scalar.real_min, Scalar.real_max, Scalar.real_min]
      norm_num
    obtain ⟨o, hreturns, hpoint, -, -, hstatus⟩ :=
      (normalStep_isRestored hc hJ).2 realLine.first.jacobian rfl hinside .empty
    exact ⟨o, hreturns, hpoint, hstatus⟩

end InfeasibilityControl
