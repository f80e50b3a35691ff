import Mathlib
import InfeasibilityControl.Proofs.Exact.Vector

set_option autoImplicit false
set_option relaxedAutoImplicit false

/-!
Exact arithmetic without conventions: dividing by zero and taking the root of a negative number have
no result, and nothing comes of an operation on a number that is missing.

Wherever a computation with these partial numbers gives what the computation with real numbers
gives, no operation without a result has entered it. So it is for everything that is made of sums,
products and norms.
-/

namespace InfeasibilityControl

open Finset (range)

/-- A real number, or nothing where an operation has no result. -/
def PartialReal : Type := Option ℝ

namespace PartialReal

/-- A number that is there. -/
def of (a : ℝ) : PartialReal := some a

/-- A number that is not there. -/
def missing : PartialReal := none

/-- An operation on one number. -/
def apply (f : ℝ → Option ℝ) (a : PartialReal) : PartialReal := Option.bind a f

/-- An operation on two numbers. -/
def apply₂ (f : ℝ → ℝ → Option ℝ) (a b : PartialReal) : PartialReal :=
  Option.bind a fun x => Option.bind b (f x)

/-- Both numbers are there and compare. -/
def Compare (r : ℝ → ℝ → Prop) (a b : PartialReal) : Prop := ∃ x y, a = of x ∧ b = of y ∧ r x y

noncomputable instance : Scalar PartialReal where
  zero := of 0
  one := of 1
  add := apply₂ fun x y => some (x + y)
  sub := apply₂ fun x y => some (x - y)
  mul := apply₂ fun x y => some (x * y)
  div := apply₂ fun x y => if y = 0 then none else some (x / y)
  neg := apply fun x => some (-x)
  lt := Compare fun x y => x < y
  le := Compare fun x y => x ≤ y
  beq := fun a b => @decide (Compare (fun x y => x = y) a b) (Classical.propDecidable _)
  ofScientific := fun mantissa negative exponent =>
    of (OfScientific.ofScientific mantissa negative exponent)
  decidableLt := fun _ _ => Classical.propDecidable _
  decidableLe := fun _ _ => Classical.propDecidable _
  sqrt := apply fun x => if x < 0 then none else some (Scalar.sqrt x)
  abs := apply fun x => some (Scalar.abs x)
  logOnePlus := apply fun x => if x ≤ -1 then none else some (Scalar.logOnePlus x)
  isFinite := Option.isSome
  isLeast := fun _ => false
  square? := fun a => some (apply (fun x => some (x * x)) a)

variable {a b : ℝ}

theorem of_injective : Function.Injective of := Option.some_injective ℝ

@[simp] theorem of_zero : (0 : PartialReal) = of 0 := rfl

@[simp] theorem of_one : (1 : PartialReal) = of 1 := rfl

@[simp] theorem of_scientific {mantissa exponent : Nat} {sign : Bool} :
    (OfScientific.ofScientific mantissa sign exponent : PartialReal) =
      of (OfScientific.ofScientific mantissa sign exponent) := rfl

@[simp] theorem of_add : of a + of b = of (a + b) := rfl

@[simp] theorem of_sub : of a - of b = of (a - b) := rfl

@[simp] theorem of_mul : of a * of b = of (a * b) := rfl

@[simp] theorem of_neg : -of a = of (-a) := rfl

theorem of_div (h : b ≠ 0) : of a / of b = of (a / b) := if_neg h

theorem div_zero : of a / of 0 = missing := if_pos rfl

theorem missing_sub (b : PartialReal) : missing - b = missing := rfl

theorem of_sqrt (h : 0 ≤ a) : Scalar.sqrt (of a) = of (Scalar.sqrt a) := if_neg (not_lt.2 h)

private theorem compare_of {r : ℝ → ℝ → Prop} : Compare r (of a) (of b) ↔ r a b := by
  constructor
  · rintro ⟨x, y, hx, hy, h⟩
    rwa [of_injective hx, of_injective hy]
  · exact fun h => ⟨a, b, rfl, rfl, h⟩

@[simp] theorem of_lt : of a < of b ↔ a < b := compare_of

@[simp] theorem of_le : of a ≤ of b ↔ a ≤ b := compare_of

@[simp] theorem of_beq : (of a == of b) = (a == b) := by
  rw [Bool.eq_iff_iff, Scalar.real_beq, decide_eq_true_iff]
  exact (@decide_eq_true_iff _ (Classical.propDecidable _)).trans compare_of

@[simp] theorem square?_of : Scalar.square? (of a) = some (of (a * a)) := rfl

@[simp] theorem isFinite_of : Scalar.isFinite (of a) = true := rfl

theorem min_of : Scalar.min (of a) (of b) = of (Scalar.min a b) := by
  simp only [Scalar.min, of_lt]
  split <;> rfl

theorem max_of : Scalar.max (of a) (of b) = of (Scalar.max a b) := by
  simp only [Scalar.max, of_lt]
  split <;> rfl

end PartialReal

open PartialReal (of of_sqrt)

namespace Vec

/-- A vector of numbers that are all there. -/
def asPartial (v : Vec ℝ) : Vec PartialReal := v.map of

variable {u v : Vec ℝ} {a : ℝ}

@[simp] theorem length_asPartial : v.asPartial.length = v.length := List.length_map _

theorem zeros_asPartial (n : Nat) : zeros n = (zeros n : Vec ℝ).asPartial := by
  simp [zeros, asPartial]

theorem scale_asPartial : scale (of a) v.asPartial = (scale a v).asPartial := by
  simp [scale, asPartial]

theorem plus_asPartial : plus u.asPartial v.asPartial = (plus u v).asPartial := by
  simp [plus, asPartial, List.map_zipWith, List.zipWith_map]

theorem minus_asPartial : minus u.asPartial v.asPartial = (minus u v).asPartial := by
  simp [minus, asPartial, List.map_zipWith, List.zipWith_map]

theorem dot_asPartial : dot u.asPartial v.asPartial = of (dot u v) := by
  have hsum : ∀ (w : Vec ℝ) (s : ℝ), (w.map of).foldl (fun s t => s + t) (of s) =
      of (w.foldl (fun s t => s + t) s) := by
    intro w
    induction w with
    | nil => exact fun _ => rfl
    | cons t w ih => exact fun s => ih (s + t)
  rw [dot, dot, asPartial, asPartial, List.zipWith_map]
  simp only [PartialReal.of_mul, PartialReal.of_zero]
  rw [← hsum, List.map_zipWith]

theorem dot_self_nonneg : 0 ≤ dot v v := by
  rw [dot_eq_sum le_rfl]
  exact Finset.sum_nonneg fun i _ => mul_self_nonneg _

theorem dot_self_eq_zero : dot v v = 0 ↔ ∀ i, v.coord i = 0 := by
  rw [dot_eq_sum le_rfl, Finset.sum_eq_zero_iff_of_nonneg fun i _ => mul_self_nonneg _]
  constructor
  · intro h i
    by_cases hi : i < v.length
    · exact mul_self_eq_zero.1 (h i (Finset.mem_range.2 hi))
    · exact coord_of_length_le (Nat.not_lt.1 hi)
  · intro h i _
    rw [h i, mul_zero]

theorem norm_nonneg (v : Vec ℝ) : 0 ≤ norm v := Real.sqrt_nonneg _

theorem norm_sq : norm v * norm v = dot v v := Real.mul_self_sqrt dot_self_nonneg

theorem norm_asPartial (v : Vec ℝ) : norm v.asPartial = of (norm v) := by
  rw [norm, dot_asPartial, of_sqrt dot_self_nonneg, norm]

end Vec

end InfeasibilityControl
