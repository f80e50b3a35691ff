import InfeasibilityControl.Multipliers
import InfeasibilityControl.Proofs.Evaluation
import InfeasibilityControl.Proofs.Exact.NullSpace
import InfeasibilityControl.Proofs.Exact.Recurrence

set_option autoImplicit false
set_option relaxedAutoImplicit false

/-!
When a least-squares solve may say that it has converged.

A solve that reports convergence has either found nothing to do or passed a test, and the tests are
about the very vector that it returns: they compare its residual, what the transpose makes of that,
and its own norm. The exception is a solve that is allowed no step. It reports convergence whatever
the right side is.
-/

namespace InfeasibilityControl

open Counted (Completes)

namespace LeastSquares

variable {A : Operator ℝ} {m n : Nat}
  {L : EuclideanSpace ℝ (Fin n) →ₗ[ℝ] EuclideanSpace ℝ (Fin m)} {b : Vec ℝ} {s : Recurrence ℝ}
  {tolerances : Tolerances ℝ} {limit : Int}

/-- The test that an ending names holds of a vector, the operator being taken to be of this size.
The endings that name no such test do not speak for a vector. -/
def Ending.SpeaksFor (A : Operator ℝ) (b : Vec ℝ) (tolerances : Tolerances ℝ) (size : ℝ)
    (x : Vec ℝ) : Ending → Prop
  | .residual => Vec.norm (Vec.minus b (A.apply x)) ≤
      tolerances.rightSide * Vec.norm b + tolerances.operator * size * Vec.norm x
  | .normalEquations => Vec.norm (A.applyTransposed (Vec.minus b (A.apply x))) ≤
      tolerances.operator * (size * Vec.norm (Vec.minus b (A.apply x)) + precision)
  | .residualPrecision => Vec.norm (Vec.minus b (A.apply x)) = 0
  | .normalEquationsPrecision => Vec.norm (A.applyTransposed (Vec.minus b (A.apply x))) = 0
  | .atStart | .condition | .conditionPrecision | .stepLimit => False

theorem Measures.of_ending {K : Type} [Scalar K] {measures : Measures K} {tolerance : K}
    {limit steps : Int} {ending : Ending}
    (h : measures.ending tolerance limit steps = some ending)
    (hconverged : ending.isConverged = true) :
    (ending = .residual ∧ measures.test1 ≤ measures.allowed) ∨
    (ending = .normalEquations ∧ measures.test2 ≤ tolerance) ∨
    (ending = .residualPrecision ∧ 1 + measures.scaledTest1 ≤ 1) ∨
    (ending = .normalEquationsPrecision ∧ 1 + measures.test2 ≤ 1) := by
  unfold Measures.ending at h
  split at h
  · cases h
    exact .inl ⟨rfl, ‹_›⟩
  split at h
  · cases h
    exact .inr (.inl ⟨rfl, ‹_›⟩)
  split at h
  · cases h
    cases hconverged
  split at h
  · cases h
    exact .inr (.inr (.inl ⟨rfl, ‹_›⟩))
  split at h
  · cases h
    exact .inr (.inr (.inr ⟨rfl, ‹_›⟩))
  split at h
  · cases h
    cases hconverged
  split at h
  · cases h
    cases hconverged
  · cases h

theorem speaksFor_of_step (hA : A.Represents L) (hb : b.length = m) (hs : s.IsExact L b)
    (hd : s.IsDefined) (hpos : 0 < Vec.norm b) {ending : Ending}
    (h : (step A tolerances limit (Vec.norm b) s).2 = some ending)
    (hconverged : ending.isConverged = true) :
    ending.SpeaksFor A b tolerances (step A tolerances limit (Vec.norm b) s).1.operatorNorm
      (step A tolerances limit (Vec.norm b) s).1.solution := by
  have hr := isRotation_rotation (b := (s.extend A).beta) hd.rhoBar
  have hsize := operatorNorm_extend_nonneg A hd.operatorNorm
  rw [step_eq] at h ⊢
  have hmeasure := measure_eq hA hb hs hr rfl tolerances (Vec.norm b)
  dsimp only at h ⊢
  rw [hmeasure] at h
  show ending.SpeaksFor A b tolerances (s.extend A).operatorNorm _
  generalize (s.rotated (s.extend A) _ _ _).solution = x at h ⊢
  have hresidual := Vec.norm_nonneg (Vec.minus b (A.apply x))
  have hdivisor : 0 < (s.extend A).operatorNorm * Vec.norm (Vec.minus b (A.apply x)) + precision :=
    add_pos_of_nonneg_of_pos (mul_nonneg hsize hresidual) precision_pos
  obtain ⟨rfl, htest⟩ | ⟨rfl, htest⟩ | ⟨rfl, htest⟩ | ⟨rfl, htest⟩ :=
    Measures.of_ending h hconverged
  · dsimp only at htest
    rw [div_le_iff₀ hpos, add_mul, div_mul_cancel₀ _ hpos.ne'] at htest
    exact htest
  · exact (div_le_iff₀ hdivisor).1 htest
  · have hscale : 0 < 1 + (s.extend A).operatorNorm * Vec.norm x / Vec.norm b :=
      add_pos_of_pos_of_nonneg one_pos
        (div_nonneg (mul_nonneg hsize (Vec.norm_nonneg x)) hpos.le)
    have hquotient := nonpos_of_add_le_right htest
    rw [div_le_iff₀ hscale, zero_mul, div_le_iff₀ hpos, zero_mul] at hquotient
    exact le_antisymm hquotient hresidual
  · have hquotient := nonpos_of_add_le_right htest
    rw [div_le_iff₀ hdivisor, zero_mul] at hquotient
    exact le_antisymm hquotient (Vec.norm_nonneg _)

/-- The recurrence after so many steps, whether or not a test would have ended it earlier. -/
def after {K : Type} [Scalar K] (A : Operator K) (b : Vec K) : Nat → Recurrence K
  | 0 => start A b
  | k + 1 =>
      let s := after A b k
      let r := rotation s.rhoBar (s.extend A).beta
      s.rotated (s.extend A) r.1 r.2.1 r.2.2

theorem step_after (tolerances : Tolerances ℝ) (limit : Int) (k : Nat) :
    (step A tolerances limit (Vec.norm b) (after A b k)).1 = after A b (k + 1) := by
  rw [step_eq]
  rfl

theorem steps_after (k : Nat) : (after A b k).steps = k := by
  induction k with
  | zero => rfl
  | succ k ih => exact congrArg (· + 1) ih

theorem steps_lt_of_step (h : (step A tolerances limit (Vec.norm b) s).2 = none) :
    (s.steps + 1 : Int) < limit := by
  rw [step_eq] at h
  dsimp only [Measures.ending] at h
  split_ifs at h with _ _ _ _ _ _ hlimit
  push_cast at hlimit
  exact not_le.1 hlimit

/-- The recurrence ends with a step. What holds where it begins and is kept by every step that does
not end it holds where that step is made. -/
theorem iterate_ends {P : Recurrence ℝ → Prop}
    (hkeeps : ∀ s, P s → (step A tolerances limit (Vec.norm b) s).2 = none →
      P (step A tolerances limit (Vec.norm b) s).1)
    {allowance : Nat} (hallowance : 0 < allowance) {k : Nat}
    (hlimit : (k + allowance : Int) = limit) (hs : P (after A b k)) :
    ∃ j ending, iterate A tolerances limit (Vec.norm b) allowance (after A b k) =
        (after A b (j + 1), ending) ∧
      (j + 1 : Int) ≤ limit ∧
      (step A tolerances limit (Vec.norm b) (after A b j)).2 = some ending ∧ P (after A b j) := by
  induction allowance generalizing k with
  | zero => exact absurd hallowance (lt_irrefl 0)
  | succ allowance ih =>
    have hnext := step_after (A := A) (b := b) tolerances limit k
    rcases hstep : step A tolerances limit (Vec.norm b) (after A b k) with ⟨next, _ | ending⟩
    · have hnone := congrArg Prod.snd hstep
      have hleft := steps_lt_of_step hnone
      rw [steps_after] at hleft
      have hkept := hkeeps _ hs hnone
      rw [hnext] at hkept
      obtain ⟨j, ending, hiterate, hrest⟩ := ih (k := k + 1) (by omega) (by omega) hkept
      rw [hstep] at hnext
      subst hnext
      refine ⟨j, ending, ?_, hrest⟩
      rw [iterate, hstep]
      exact hiterate
    · refine ⟨k, ending, ?_, by omega, congrArg Prod.snd hstep, hs⟩
      rw [← hnext, iterate, hstep]

theorem run_ends (hA : A.Represents L) (hb : b.length = m) (hlimit : 0 < limit)
    (hundone : (start A b).alpha * (start A b).phiBar ≠ 0) {P : Recurrence ℝ → Prop}
    (hkeeps : ∀ s, s.IsExact L b → s.IsDefined → P s →
      (step A tolerances limit (Vec.norm b) s).2 = none →
      P (step A tolerances limit (Vec.norm b) s).1) (hstart : P (start A b)) :
    ∃ j ending, run A b tolerances limit = (after A b (j + 1), ending) ∧ (j + 1 : Int) ≤ limit ∧
      (step A tolerances limit (Vec.norm b) (after A b j)).2 = some ending ∧
      (after A b j).IsExact L b ∧ (after A b j).IsDefined ∧ P (after A b j) := by
  have hallowance : ((0 : Nat) + limit.toNat : Int) = limit := by omega
  have hstep : ∀ s : Recurrence ℝ, s.IsExact L b ∧ s.IsDefined ∧ P s →
      (step A tolerances limit (Vec.norm b) s).2 = none →
      (step A tolerances limit (Vec.norm b) s).1.IsExact L b ∧
        (step A tolerances limit (Vec.norm b) s).1.IsDefined ∧
        P (step A tolerances limit (Vec.norm b) s).1 := by
    rintro s ⟨hexact, hdefined, hP⟩ hnone
    exact ⟨hexact.step hA hdefined hnone, hdefined.step hnone, hkeeps s hexact hdefined hP hnone⟩
  obtain ⟨j, ending, hiterate, hwithin, hends, hexact, hdefined, hP⟩ := iterate_ends hstep
    (by omega) hallowance ⟨isExact_start hA hb hundone, isDefined_start hundone, hstart⟩
  refine ⟨j, ending, ?_, hwithin, hends, hexact, hdefined, hP⟩
  rw [run, if_neg (by simpa [Scalar.real_beq] using hundone)]
  exact hiterate

/-- What entitles a solve to report that it converged to a vector within so many steps: either zero
is a solution, the transpose taking the right side to zero, or a step was taken, and a test on the
residual or on the normal equations ended the recurrence there and holds of the vector. -/
inductive Warrants (A : Operator ℝ) (b : Vec ℝ) (tolerances : Tolerances ℝ) (limit : Int) :
    Vec ℝ → Nat → Prop
  | atStart (stationary : A.applyTransposed b = Vec.zeros A.columnCount)
      (least : ∀ y, Vec.norm (Vec.minus b (A.apply (Vec.zeros A.columnCount))) ≤
        Vec.norm (Vec.minus b (A.apply y))) :
      Warrants A b tolerances limit (Vec.zeros A.columnCount) 0
  | tested (k : Nat) (ending : Ending) (within : (k + 1 : Int) ≤ limit)
      (ends : (step A tolerances limit (Vec.norm b) (after A b k)).2 = some ending)
      (converged : ending.isConverged = true)
      (holds : ending.SpeaksFor A b tolerances (after A b (k + 1)).operatorNorm
        (after A b (k + 1)).solution) :
      Warrants A b tolerances limit (after A b (k + 1)).solution (k + 1)

theorem Warrants.stationary {x : Vec ℝ} (h : Warrants A b tolerances limit x 0) :
    A.applyTransposed b = Vec.zeros A.columnCount := by
  generalize hsteps : (0 : Nat) = steps at h
  cases h with
  | atStart stationary _ => exact stationary
  | tested => cases hsteps

theorem warrants_atStart (hA : A.Represents L) (hb : b.length = m)
    (h : A.applyTransposed b = Vec.zeros A.columnCount) :
    Warrants A b tolerances limit (Vec.zeros A.columnCount) 0 := by
  have hnorm : ∀ y, Vec.norm (Vec.minus b (A.apply y)) =
      ‖-b.euclid m + L (y.euclid n)‖ := by
    intro y
    have hlength := hA.length_apply y
    rw [Vec.norm_eq (Vec.length_minus_of_length hb hlength).le,
      Vec.euclid_minus (hb.trans hlength.symm), hA.apply, ← norm_neg, neg_sub, sub_eq_neg_add]
  have hzero : LinearMap.adjoint L (-b.euclid m + L ((Vec.zeros A.columnCount : Vec ℝ).euclid n)) =
      0 := by
    rw [Vec.euclid_zeros, map_zero, add_zero, map_neg, ← hA.applyTransposed, h, Vec.euclid_zeros,
      neg_zero]
  have hleast := (LinearModel.isMinimizer_iff_of_adjoint fun x u =>
    (LinearMap.adjoint_inner_right L x u).symm).2 hzero
  refine .atStart h fun y => ?_
  rw [hnorm, hnorm]
  exact hleast (y.euclid n)

theorem start_eq_zero_iff (hA : A.Represents L) (hpos : 0 < Vec.norm b) :
    (start A b).alpha * (start A b).phiBar = 0 ↔
      A.applyTransposed b = Vec.zeros A.columnCount := by
  have hscaled : normalize b (Vec.norm b) = Vec.scale (1 / Vec.norm b) b := if_pos hpos
  have himage : (A.applyTransposed (normalize b (Vec.norm b))).euclid n =
      (1 / Vec.norm b) • (A.applyTransposed b).euclid n := by
    rw [hscaled, hA.applyTransposed, Vec.euclid_scale, map_smul, hA.applyTransposed]
  rw [start_of_pos hpos hscaled.symm rfl rfl]
  dsimp only
  rw [mul_eq_zero, or_iff_left hpos.ne', Vec.norm_eq (hA.length_applyTransposed _).le, himage,
    norm_eq_zero, smul_eq_zero, or_iff_right (one_div_ne_zero hpos.ne'),
    ← Vec.euclid_inj (hA.length_applyTransposed b) ((Vec.length_zeros _).trans hA.columnCount),
    Vec.euclid_zeros]

/-- The recurrence ends at a test that warrants convergence, unless it is allowed no step although
there is something to do. -/
theorem run_isWarranted_iff (hA : A.Represents L) (hb : b.length = m) (hpos : 0 < Vec.norm b)
    (tolerances : Tolerances ℝ) (limit : Int) :
    ((run A b tolerances limit).2.isConverged = true → Warrants A b tolerances limit
      (run A b tolerances limit).1.solution (run A b tolerances limit).1.steps) ↔
      0 < limit ∨ A.applyTransposed b = Vec.zeros A.columnCount := by
  have hzero := start_eq_zero_iff hA hpos
  by_cases hdone : (start A b).alpha * (start A b).phiBar = 0
  · have hstationary := hzero.1 hdone
    refine iff_of_true (fun _ => ?_) (.inr hstationary)
    rw [run, if_pos (by simpa [Scalar.real_beq] using hdone)]
    exact warrants_atStart hA hb hstationary
  rw [or_iff_left (mt hzero.2 hdone)]
  constructor
  · intro hwarrants
    by_contra hlimit
    have hallowance : limit.toNat = 0 := Int.toNat_eq_zero.2 (not_lt.1 hlimit)
    rw [run, if_neg (by simpa [Scalar.real_beq] using hdone), hallowance] at hwarrants
    exact hdone (hzero.2 (hwarrants rfl).stationary)
  · intro hlimit hconverged
    obtain ⟨j, ending, hrun, hwithin, hends, hexact, hdefined, -⟩ := run_ends hA hb hlimit hdone
      (P := fun _ => True) (fun _ _ _ _ _ => trivial) trivial
    rw [hrun] at hconverged ⊢
    have hholds := speaksFor_of_step hA hb hexact hdefined hpos hends hconverged
    rw [step_after] at hholds
    dsimp only
    rw [steps_after]
    exact .tested j ending hwithin hends hconverged hholds

/-- A solve reports convergence only where it is warranted, unless it is allowed no step although
there is something to do. It then reports that it converged to zero. -/
theorem solve_isWarranted_iff (hA : A.Represents L) (hb : b.length = m)
    (tolerances : Tolerances ℝ) (limit? : Option Int) :
    ∃ s, solve A b tolerances limit? = .ok s ∧
      ((s.converged = true →
        Warrants A b tolerances (limit?.getD (standardLimit A.columnCount)) s.vector s.steps) ↔
        0 < limit?.getD (standardLimit A.columnCount) ∨
          A.applyTransposed b = Vec.zeros A.columnCount) := by
  have hrows : A.rowCount = b.length := hA.rowCount.trans hb.symm
  rw [solve, if_pos hrows]
  dsimp only
  split
  · rename_i hnonzero
    exact ⟨_, rfl, run_isWarranted_iff hA hb (Vec.norm_pos_of_isNonzero hnonzero) tolerances _⟩
  · rename_i hzero
    have hpoint := (Vec.isNonzero_eq_false_iff hb).1 (Bool.eq_false_iff.2 hzero)
    have hstationary : A.applyTransposed b = Vec.zeros A.columnCount := by
      rw [← Vec.euclid_inj (hA.length_applyTransposed b)
        ((Vec.length_zeros _).trans hA.columnCount), hA.applyTransposed, hpoint, map_zero,
        Vec.euclid_zeros]
    exact ⟨_, rfl, iff_of_true (fun _ => warrants_atStart hA hb hstationary) (.inr hstationary)⟩

/-- A solve with a matrix, and an estimate of multipliers with its transpose, report convergence
only where it is warranted, unless they are allowed no step although there is something to do. -/
theorem convergence_isWarranted_iff {J : SparseMatrix ℝ} (hJ : J.HasShape m n)
    (tolerances : Tolerances ℝ) (limit? : Option Int) :
    (∀ b, b.length = m → ∃ s, solve J.operator b tolerances limit? = .ok s ∧
      ((s.converged = true →
        Warrants J.operator b tolerances (limit?.getD (standardLimit n)) s.vector s.steps) ↔
        0 < limit?.getD (standardLimit n) ∨ J.applyTransposed b = Vec.zeros n)) ∧
    ∀ g, g.length = n → Completes (estimateMultipliers J g tolerances limit?) fun e =>
      ((e.converged = true →
        Warrants J.operator.transpose (Vec.negate g) tolerances
          (limit?.getD (standardLimit m)) e.multipliers e.steps) ↔
        0 < limit?.getD (standardLimit m) ∨ J.apply (Vec.negate g) = Vec.zeros m) := by
  have hrows : J.operator.transpose.columnCount = m := hJ.rowCount
  have hcolumns : J.operator.columnCount = n := hJ.columnCount
  constructor
  · intro b hb
    have hsolve := solve_isWarranted_iff hJ.represents hb tolerances limit?
    rw [hcolumns] at hsolve
    exact hsolve
  · intro g hg
    have hnegated : (Vec.negate g).length = n := (Vec.length_negate g).trans hg
    obtain ⟨s, hs, hwarranted⟩ := solve_isWarranted_iff hJ.represents.transpose hnegated
      tolerances limit?
    rw [hrows] at hwarranted
    intro l
    obtain ⟨e, l', he, t, ht, -, hmultipliers, hconverged, hsteps⟩ := hJ.estimateMultipliers hg l
    rw [hs] at ht
    cases ht
    refine ⟨e, l', he, ?_⟩
    dsimp only
    rw [hmultipliers, hconverged, hsteps]
    exact hwarranted

/-- The matrix of the equation `x = b`. -/
noncomputable def unit : SparseMatrix ℝ := ⟨1, 1, [[some 1]]⟩

/-- The solve of `x = 1` that is allowed no step reports that it converged to zero, without a
warrant. With one step it is warranted. -/
theorem unit_convergence_unwarranted :
    unit.HasShape 1 1 ∧
    (∃ s, solve unit.operator [1] .standard (some 0) = .ok s ∧ s.converged = true ∧
      ¬ Warrants unit.operator [1] .standard 0 s.vector s.steps) ∧
    ∃ s, solve unit.operator [1] .standard (some 1) = .ok s ∧
      (s.converged = true → Warrants unit.operator [1] .standard 1 s.vector s.steps) := by
  have hshape : unit.HasShape 1 1 := ⟨rfl, rfl, rfl, by simp [unit]⟩
  refine ⟨hshape, ?_, ?_⟩
  · obtain ⟨s, hs, hiff⟩ := (convergence_isWarranted_iff hshape .standard (some 0)).1 [1] rfl
    have himage : unit.applyTransposed [1] ≠ Vec.zeros 1 := by
      simp [unit, SparseMatrix.applyTransposed, SparseMatrix.addRow, Vec.zeros]
    have hnever := mt hiff.1 (not_or.2 ⟨lt_irrefl 0, himage⟩)
    exact ⟨s, hs, Classical.not_imp.1 hnever⟩
  · obtain ⟨s, hs, hiff⟩ := (convergence_isWarranted_iff hshape .standard (some 1)).1 [1] rfl
    exact ⟨s, hs, hiff.2 (.inl one_pos)⟩

end LeastSquares

end InfeasibilityControl
