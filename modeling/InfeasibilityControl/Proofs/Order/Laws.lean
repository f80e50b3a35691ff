import InfeasibilityControl.Vec

set_option autoImplicit false
set_option relaxedAutoImplicit false

/-!
The laws of comparison and of signs.

They hold of the real numbers and of floating-point numbers alike. An undefined value compares with
nothing, itself included, so `a ≤ a` says that `a` is a number.
-/

namespace InfeasibilityControl

/-- Numbers whose comparisons obey the laws that floating-point numbers obey. -/
class ComparableScalar (K : Type) [Scalar K] : Prop where
  lt_irrefl (a : K) : ¬ a < a
  lt_trans {a b c : K} : a < b → b < c → a < c
  lt_of_le_of_lt {a b c : K} : a ≤ b → b < c → a < c
  le_trans {a b c : K} : a ≤ b → b ≤ c → a ≤ c
  le_of_lt {a b : K} : a < b → a ≤ b
  le_refl_left {a b : K} : a ≤ b → a ≤ a
  le_refl_right {a b : K} : a ≤ b → b ≤ b
  le_of_not_lt {a b : K} : a ≤ a → b ≤ b → ¬ a < b → b ≤ a
  mul_self_eq {a b : K} : (a == b) = true → a * a = b * b

/-- Numbers whose signs obey the laws that the signs of floating-point numbers obey: no operation on
values that are not negative makes a negative one, and half a value is not above it. -/
class SignedScalar (K : Type) [Scalar K] : Prop extends ComparableScalar K where
  zero_le_zero : (0 : K) ≤ 0
  sqrt_not_neg (a : K) : ¬ Scalar.sqrt a < 0
  mul_not_neg {a b : K} : ¬ a < 0 → ¬ b < 0 → ¬ a * b < 0
  div_succ_not_neg {a b : K} : ¬ a < 0 → ¬ b < 0 → ¬ a / (b + 1) < 0
  half_not_neg : ¬ (0.5 : K) < 0
  three_quarters_not_neg : ¬ (0.75 : K) < 0
  half_le {a : K} : 0 ≤ a → 0.5 * a ≤ a
  number_of_half {a : K} : (0.5 : K) * a ≤ 0.5 * a → a ≤ a

namespace Vec

variable {K : Type} [Scalar K] {u v : Vec K}

theorem norm_not_neg [SignedScalar K] (v : Vec K) : ¬ norm v < 0 :=
  SignedScalar.sqrt_not_neg _

theorem coincides_cons {a b : K} :
    coincides (a :: u) (b :: v) = true ↔ (a == b) = true ∧ coincides u v = true := by
  simp only [coincides, List.length_cons, List.zipWith_cons_cons, List.all_cons, id,
    Bool.and_eq_true, beq_iff_eq, Nat.add_right_cancel_iff]
  constructor
  · rintro ⟨hlength, hab, huv⟩
    exact ⟨hab, hlength, huv⟩
  · rintro ⟨hab, hlength, huv⟩
    exact ⟨hlength, hab, huv⟩

theorem norm_eq_of_coincides [ComparableScalar K] (h : coincides u v = true) :
    norm u = norm v := by
  have hsquares : List.zipWith (fun a b => a * b) u u = List.zipWith (fun a b => a * b) v v := by
    induction u generalizing v with
    | nil =>
      cases v with
      | nil => rfl
      | cons b v => simp [coincides] at h
    | cons a u ih =>
      cases v with
      | nil => simp [coincides] at h
      | cons b v =>
        obtain ⟨hab, huv⟩ := coincides_cons.1 h
        rw [List.zipWith_cons_cons, List.zipWith_cons_cons, ih huv,
          ComparableScalar.mul_self_eq hab]
  rw [norm, norm, dot, dot, hsquares]

end Vec

end InfeasibilityControl
