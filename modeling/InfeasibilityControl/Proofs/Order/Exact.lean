import Mathlib
import InfeasibilityControl.Proofs.Order.Laws

set_option autoImplicit false
set_option relaxedAutoImplicit false

/-!
Exact arithmetic: the real numbers.

Every value is finite, comparisons are those of the order, and no square is too large.
-/

namespace InfeasibilityControl

noncomputable instance : Scalar ℝ where
  beq := fun a b => decide (a = b)
  decidableLt := fun a b => Real.decidableLT a b
  decidableLe := fun a b => Real.decidableLE a b
  sqrt := Real.sqrt
  abs := fun a => |a|
  logOnePlus := fun a => Real.log (1 + a)
  isFinite := fun _ => true
  isLeast := fun _ => false
  square? := fun a => some (a * a)

namespace Scalar

theorem real_min (a b : ℝ) : Scalar.min a b = Min.min a b := by
  unfold Scalar.min
  split
  · rename_i h
    exact (min_eq_right (le_of_lt h)).symm
  · rename_i h
    exact (min_eq_left (not_lt.1 h)).symm

theorem real_max (a b : ℝ) : Scalar.max a b = Max.max a b := by
  unfold Scalar.max
  split
  · rename_i h
    exact (max_eq_right (le_of_lt h)).symm
  · rename_i h
    exact (max_eq_left (not_lt.1 h)).symm

theorem real_beq (a b : ℝ) : (a == b) = decide (a = b) := rfl

theorem real_sqrt (a : ℝ) : Scalar.sqrt a = Real.sqrt a := rfl

theorem real_logOnePlus (a : ℝ) : logOnePlus a = Real.log (1 + a) := rfl

end Scalar

instance : ComparableScalar ℝ where
  lt_irrefl a := lt_irrefl a
  lt_trans := lt_trans
  lt_of_le_of_lt := lt_of_le_of_lt
  le_trans := le_trans
  le_of_lt := le_of_lt
  le_refl_left _ := le_rfl
  le_refl_right _ := le_rfl
  le_of_not_lt _ _ h := not_lt.1 h
  mul_self_eq h := by
    rw [Scalar.real_beq, decide_eq_true_eq] at h
    rw [h]

instance : SignedScalar ℝ where
  zero_le_zero := le_rfl
  sqrt_not_neg a := not_lt.2 (Real.sqrt_nonneg a)
  mul_not_neg ha hb := not_lt.2 (mul_nonneg (not_lt.1 ha) (not_lt.1 hb))
  div_succ_not_neg ha hb :=
    not_lt.2 (div_nonneg (not_lt.1 ha) (add_nonneg (not_lt.1 hb) zero_le_one))
  half_not_neg := by
    have hhalf : (0 : ℝ) ≤ 0.5 := by norm_num
    exact not_lt.2 hhalf
  three_quarters_not_neg := by
    have hthree : (0 : ℝ) ≤ 0.75 := by norm_num
    exact not_lt.2 hthree
  half_le := by
    intro a ha
    have hhalf : (0.5 : ℝ) ≤ 1 := by norm_num
    exact mul_le_of_le_one_left ha hhalf
  number_of_half _ := le_rfl

end InfeasibilityControl
