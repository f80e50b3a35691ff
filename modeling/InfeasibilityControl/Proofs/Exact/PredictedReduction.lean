import Mathlib
import InfeasibilityControl.Proofs.Exact.AffineStep
import InfeasibilityControl.Proofs.Exact.SingleEquation

set_option autoImplicit false
set_option relaxedAutoImplicit false

/-!
The predicted reduction of a normal step.

A trial whose least-squares problem has been solved lies at the end of a dogleg path that reduces
the linear model, so the reduction that is predicted for it is positive.
-/

namespace InfeasibilityControl

open Counted (Returns)

variable {p : Problem ℝ} {options : NormalOptions ℝ} {b : Budget ℝ}

/-- The least-squares problem of the trial has been solved. -/
def Trial.SolvesLeastSquares (p : Problem ℝ) (tolerances : LeastSquares.Tolerances ℝ)
    (t : Trial ℝ) : Prop :=
  ∀ c gaussNewton, p.constraints t.origin = .ok c →
    LeastSquares.solve t.jacobian.operator (Vec.negate c) tolerances none = .ok gaussNewton →
    t.jacobian.Minimizes c gaussNewton.vector

theorem Trial.solvesLeastSquares_exact {t : Trial ℝ} {m n : Nat} {lower upper : ℝ}
    (hJ : t.jacobian.HasShape m n)
    (hL : LeastSquares.IsConditioned (t.jacobian.linear m n) lower upper) :
    t.SolvesLeastSquares p .exact := fun _ _ _ hfound =>
  (LeastSquares.minimizesShortest_exact hJ hL hfound).toMinimizes

theorem pos_of_dogleg {gaussNewton g d : Vec ℝ} {cauchy : Option (Vec ℝ)} {radius : ℝ}
    (h : dogleg gaussNewton cauchy g radius = .ok d) : 0 < radius := by
  unfold dogleg at h
  split at h
  · cases h
  · rename_i hradius
    exact not_le.1 hradius

namespace NormalState

variable {s : NormalState ℝ} {g Jg : Vec ℝ} {t : Trial ℝ} {radius : ℝ}

theorem Makes.predicted_pos (h : s.Makes options.solver g Jg t)
    (haims : s.Aims options radius g Jg) (hc : p.constraints s.point = .ok s.constraints)
    (hJ : p.jacobian s.point = .ok s.jacobian) (hnorm : s.constraintNorm = Vec.norm s.constraints)
    (hsolves : t.SolvesLeastSquares p options.tolerances) : 0 < t.predicted := by
  have hshape := Problem.hasShape_of_jacobian hJ
  obtain ⟨gaussNewton, hfound, hd⟩ := h.displacement
  obtain ⟨modelled, normSquare, modelSquare, hmodel, hnormSquare, hmodelSquare, hpredicted⟩ :=
    h.predicted
  have hmin : s.jacobian.Minimizes s.constraints gaussNewton.vector := by
    rw [← h.jacobian] at hfound ⊢
    rw [← h.origin] at hc
    exact hsolves _ _ hc hfound
  have hnonzero := haims.gradient_nonzero
  rw [haims.gradient] at hnonzero
  obtain ⟨step, d, hcauchy, hd', hreduces⟩ :=
    exists_reducesModel hshape haims.length hnonzero (pos_of_dogleg hd) hmin
  rw [haims.image, haims.gradient, hcauchy, hd'] at hd
  obtain rfl := Except.ok.inj hd
  rw [Vec.add_of_length (haims.length.trans (hshape.length_apply _).symm)] at hmodel
  obtain rfl := Except.ok.inj hmodel
  obtain rfl : s.constraintNorm * s.constraintNorm = normSquare := Except.ok.inj hnormSquare
  obtain rfl : _ * _ = modelSquare := Except.ok.inj hmodelSquare
  have hless := mul_self_lt_mul_self (Vec.norm_nonneg _) hreduces.lt
  rw [hpredicted, hnorm]
  exact mul_pos (by norm_num) (sub_pos.2 hless)

/-- What is known between two trials: all trials so far have predicted a reduction. -/
private structure Predicts (p : Problem ℝ) (options : NormalOptions ℝ) (s : NormalState ℝ) :
    Prop where
  constraints : p.constraints s.point = .ok s.constraints
  jacobian : p.jacobian s.point = .ok s.jacobian
  constraintNorm : s.constraintNorm = Vec.norm s.constraints
  trials : ∀ t ∈ s.trials, t.SolvesLeastSquares p options.tolerances → 0 < t.predicted

private theorem Predicts.attempted (h : s.Predicts p options) (haims : s.Aims options radius g Jg)
    {s' : NormalState ℝ} {l l' : Ledger ℝ}
    (hattempt : Returns (s.attempt options.solver p options g Jg) l s' l') :
    s'.Predicts p options := by
  have htrials : ∀ t ∈ s'.trials, t.SolvesLeastSquares p options.tolerances →
      0 < t.predicted := by
    obtain ⟨t, htrials, hmakes⟩ := attempt_makes hattempt
    intro u hu hsolves
    rw [htrials] at hu
    obtain hu | hu := List.mem_append.1 hu
    · exact h.trials u hu hsolves
    · obtain rfl := List.mem_singleton.1 hu
      exact hmakes.predicted_pos haims h.constraints h.jacobian h.constraintNorm hsolves
  have hcurrent : s'.IsCurrent p :=
    IsCurrent.attempted ⟨h.constraints, h.jacobian, h.constraintNorm⟩ hattempt
  exact ⟨hcurrent.constraints, hcurrent.jacobian, hcurrent.constraintNorm, htrials⟩

end NormalState

/-- Where the gradient `g = Jᵀ c` does not vanish there is a Cauchy step, and the dogleg step to any
minimizer of the model makes it at least as small as the steps along `-g` inside the region, and
smaller than it is at zero. A normal step predicts a reduction at each of its trials. -/
theorem dogleg_reducesModel :
    (∀ (m n : Nat) (J : SparseMatrix ℝ) (c gaussNewton : Vec ℝ) (radius : ℝ), J.HasShape m n →
      c.length = m → Vec.isNonzero (J.applyTransposed c) = true → 0 < radius →
      J.Minimizes c gaussNewton →
      ∃ step d, cauchyStep (J.applyTransposed c) (J.apply (J.applyTransposed c)) = some step ∧
        dogleg gaussNewton (some step) (J.applyTransposed c) radius = .ok d ∧
        ReducesModel J c (J.applyTransposed c) d radius) ∧
    ∀ (p : Problem ℝ) (options : NormalOptions ℝ) (b : Budget ℝ) (start c : Vec ℝ)
      (jacobian? : Option (SparseMatrix ℝ)) (rho bound relativeDual floor : ℝ) (l l' : Ledger ℝ)
      (o : NormalOutcome ℝ), p.constraints start = .ok c →
      (∀ J ∈ jacobian?, p.jacobian start = .ok J) →
      Returns (normalStep p options b start c jacobian? rho bound relativeDual floor) l o l' →
      ∀ t ∈ o.trials, t.SolvesLeastSquares p options.tolerances → 0 < t.predicted := by
  constructor
  · intro m n J c gaussNewton radius hshape hc hg hradius hmin
    exact exists_reducesModel hshape hc hg hradius hmin
  · intro p options b start c jacobian? rho bound relativeDual floor l l' o hc hJ h
    obtain ⟨J, l₁, last, hjacobian, -, hpasses, ho⟩ := normalStep_passes_from h hJ
    have hfirst : NormalState.Predicts p options
        ⟨start, c, Vec.norm c, J, options.trustRadius, false, []⟩ :=
      ⟨hc, hjacobian, rfl, by simp⟩
    have hlast := NormalState.iterate_rule (P := fun s => s.Predicts p options) hpasses hfirst
      fun s g Jg l s' l' hs haims hattempt => hs.attempted haims hattempt
    rw [ho]
    exact hlast.trials

namespace tiltedLine

theorem isTotal : tiltedLine.IsTotal 1 where
  rowCount := rfl
  jacobian := by decide
  hessian := by simp [tiltedLine]
  objective_total _ _ := ⟨0, rfl⟩
  gradient_total _ _ := ⟨[0, 0], rfl, rfl⟩
  constraints_total _ _ := ⟨_, rfl, rfl⟩
  jacobian_total _ _ := ⟨[1, 1], rfl, rfl⟩
  hessian_total _ _ _ _ _ := ⟨[], rfl, rfl⟩

theorem minimizes_back : tiltedRow.Minimizes [2] [-1, -1] := by
  refine SparseMatrix.minimizes_of_meets 1 rfl ?_
  show _ = [0]
  simp [tiltedRow, SparseMatrix.apply, SparseMatrix.rowProduct, Vec.plus]
  norm_num

theorem exists_run : ∃ o l', Returns (normalStep tiltedLine .standard ⟨100, 60, 0⟩ [1, 1] [2]
    (some tiltedRow) 1 1 0 0.5) .empty o l' ∧ o.trials ≠ [] ∧
    ∀ t ∈ o.trials, t.SolvesLeastSquares tiltedLine NormalOptions.standard.tolerances := by
  obtain ⟨o, l', hreturns, -, -, -, hdefined⟩ := completes_normalStep isTotal
    NormalOptions.standard_minTrustRadius_pos rfl start_constraints rfl ⟨100, 60, 0⟩ 1 1 0 0.5
    .empty
  refine ⟨o, l', hreturns, ?_, ?_⟩
  · refine trials_ne_nil_of_isAffine isAffine rfl start_constraints zero_le_one zero_le_one le_rfl
      NormalOptions.standard_acceptance_le_one one_pos NormalOptions.standard_minTrustRadius_le
      (by decide) ?_ ⟨add_zero 0, fun _ => rfl⟩ (by decide) ?_ hreturns
    · have hnorm : Vec.norm [(2 : ℝ)] = 2 := by
        show Real.sqrt (0 + 2 * 2) = 2
        rw [zero_add, Real.sqrt_mul_self (by norm_num)]
      rw [hnorm, updateRadius, Scalar.real_min, Scalar.real_max, Scalar.real_min]
      norm_num
    · have hstart : (Ledger.empty : Ledger ℝ).time = 0 := add_zero 0
      rw [hstart]
      norm_num
  · intro t ht c gaussNewton hc hfound
    have hJ : tiltedRow = t.jacobian := Except.ok.inj (hdefined t ht).jacobian
    obtain rfl : _ = c := Except.ok.inj hc
    rw [← hJ] at hfound ⊢
    exact (LeastSquares.minimizesShortest_of_solve isAffine.hasShape rfl hfound).toMinimizes

end tiltedLine

/-- At the start of the way to the tilted line, and at all trials on it. -/
theorem tiltedLine_reducesModel :
    (∃ step d, cauchyStep (tiltedRow.applyTransposed [2])
        (tiltedRow.apply (tiltedRow.applyTransposed [2])) = some step ∧
      dogleg [-1, -1] (some step) (tiltedRow.applyTransposed [2]) 1 = .ok d ∧
      ReducesModel tiltedRow [2] (tiltedRow.applyTransposed [2]) d 1) ∧
    ∃ o l', Returns (normalStep tiltedLine .standard ⟨100, 60, 0⟩ [1, 1] [2]
        (some tiltedRow) 1 1 0 0.5) .empty o l' ∧
      o.trials ≠ [] ∧ ∀ t ∈ o.trials, 0 < t.predicted := by
  constructor
  · have hnonzero : Vec.isNonzero (tiltedRow.applyTransposed [2]) = true := by
      simp [tiltedRow, SparseMatrix.applyTransposed, SparseMatrix.addRow, Vec.zeros, Vec.isNonzero,
        Scalar.real_beq]
    exact dogleg_reducesModel.1 1 2 tiltedRow [2] [-1, -1] 1 tiltedLine.isAffine.hasShape rfl
      hnonzero one_pos tiltedLine.minimizes_back
  · obtain ⟨o, l', hreturns, hsome, hsolves⟩ := tiltedLine.exists_run
    refine ⟨o, l', hreturns, hsome, fun t ht => ?_⟩
    exact dogleg_reducesModel.2 tiltedLine .standard ⟨100, 60, 0⟩ [1, 1] [2] (some tiltedRow)
      1 1 0 0.5 .empty l' o tiltedLine.start_constraints
      (tiltedLine.isAffine.known rfl tiltedLine.known_eq) hreturns t ht (hsolves t ht)

end InfeasibilityControl
