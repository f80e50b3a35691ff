import Mathlib
import InfeasibilityControl.Proofs.Order.Exact

set_option autoImplicit false
set_option relaxedAutoImplicit false

/-!
Vectors over the real numbers, coordinate by coordinate.

A coordinate past the last one is zero, so that sums may run over any range that covers the vector.
-/

namespace InfeasibilityControl.Vec

open Finset (range sum_range_succ' sum_congr)

section

variable {K : Type} [Scalar K] {u v : Vec K}

@[simp] theorem length_zeros (n : Nat) : (zeros n : Vec K).length = n := List.length_replicate

@[simp] theorem length_negate (v : Vec K) : (negate v).length = v.length := List.length_map _

@[simp] theorem length_scale (a : K) (v : Vec K) : (scale a v).length = v.length :=
  List.length_map _

@[simp] theorem length_plus (u v : Vec K) : (plus u v).length = min u.length v.length :=
  List.length_zipWith

@[simp] theorem length_minus (u v : Vec K) : (minus u v).length = min u.length v.length :=
  List.length_zipWith

theorem length_plus_of_length {n : Nat} (hu : u.length = n) (hv : v.length = n) :
    (plus u v).length = n := by
  rw [length_plus, hu, hv, Nat.min_self]

theorem length_minus_of_length {n : Nat} (hu : u.length = n) (hv : v.length = n) :
    (minus u v).length = n := by
  rw [length_minus, hu, hv, Nat.min_self]

omit [Scalar K] in
theorem combine_of_length {f : K → K → K} (h : u.length = v.length) :
    combine f u v = .ok (List.zipWith f u v) := by
  unfold combine
  split
  · cases v with
    | nil => cases h
    | cons b v =>
      obtain rfl : v = [] := List.length_eq_zero_iff.1 (by simpa using h.symm)
      rfl
  · cases u with
    | nil => cases h
    | cons a u =>
      obtain rfl : u = [] := List.length_eq_zero_iff.1 (by simpa using h)
      rfl
  · rw [if_pos h]

theorem add_of_length (h : u.length = v.length) : add u v = .ok (plus u v) := combine_of_length h

theorem subtract_of_length (h : u.length = v.length) : subtract u v = .ok (minus u v) :=
  combine_of_length h

theorem inner_of_length (h : u.length = v.length) : inner u v = .ok (dot u v) := if_pos h

end

variable {u v w : Vec ℝ} {n i : Nat}

/-- The coordinate at an index, zero past the last one. -/
def coord (v : Vec ℝ) (i : Nat) : ℝ := v.getD i 0

theorem coord_of_length_le (h : v.length ≤ i) : v.coord i = 0 :=
  List.getD_eq_default _ _ h

theorem ext_coord (hlength : u.length = v.length) (h : ∀ i < u.length, u.coord i = v.coord i) :
    u = v := by
  refine List.ext_getElem hlength fun i hu hv => ?_
  have hi := h i hu
  rwa [coord, coord, List.getD_eq_getElem _ _ hu, List.getD_eq_getElem _ _ hv] at hi

@[simp] theorem coord_nil : coord ([] : Vec ℝ) i = 0 := rfl

@[simp] theorem coord_cons_zero {a : ℝ} : coord (a :: v) 0 = a := rfl

@[simp] theorem coord_cons_succ {a : ℝ} : coord (a :: v) (i + 1) = v.coord i := rfl

@[simp] theorem coord_zeros : (zeros n : Vec ℝ).coord i = 0 := by
  by_cases h : i < n
  · simp [coord, zeros, h]
  · exact coord_of_length_le (by simpa using h)

@[simp] theorem coord_scale {a : ℝ} : (scale a v).coord i = a * v.coord i := by
  by_cases h : i < v.length
  · simp [coord, scale, h]
  · rw [coord_of_length_le (by simpa using h), coord_of_length_le (by simpa using h), mul_zero]

theorem scale_one (v : Vec ℝ) : scale 1 v = v := by
  simp [scale]

theorem coord_plus (h : u.length = v.length) : (plus u v).coord i = u.coord i + v.coord i := by
  by_cases hi : i < u.length
  · simp [coord, plus, hi, h ▸ hi]
  · rw [coord_of_length_le (by simp; omega), coord_of_length_le (by omega),
      coord_of_length_le (by omega), add_zero]

theorem coord_minus (h : u.length = v.length) : (minus u v).coord i = u.coord i - v.coord i := by
  by_cases hi : i < u.length
  · simp [coord, minus, hi, h ▸ hi]
  · rw [coord_of_length_le (by simp; omega), coord_of_length_le (by omega),
      coord_of_length_le (by omega), sub_zero]

theorem coord_append_left (h : i < u.length) : coord (u ++ v) i = u.coord i := by
  simp [coord, List.getElem?_append_left h]

theorem coord_append_right (h : u.length = n) : coord (u ++ v) (n + i) = v.coord i := by
  subst h
  rw [coord, List.getD_append_right _ _ _ _ (Nat.le_add_right _ _), Nat.add_sub_cancel_left, coord]

theorem coord_tabulate {f : Nat → ℝ} (h : i < n) : coord ((List.range n).map f) i = f i := by
  simp [coord, h]

private theorem foldl_add (a : ℝ) (v : Vec ℝ) :
    v.foldl (fun s t => s + t) a = a + v.foldl (fun s t => s + t) 0 := by
  induction v generalizing a with
  | nil => simp
  | cons b v ih =>
    rw [List.foldl_cons, List.foldl_cons, ih (a + b), ih (0 + b)]
    ring

@[simp] theorem dot_nil_left : dot [] v = 0 := rfl

@[simp] theorem dot_nil_right : dot u [] = 0 := by
  rw [dot, List.zipWith_nil_right]
  rfl

@[simp] theorem dot_cons {a b : ℝ} : dot (a :: u) (b :: v) = a * b + dot u v := by
  rw [dot, List.zipWith_cons_cons, List.foldl_cons, foldl_add, zero_add]
  rfl

theorem dot_eq_sum (h : u.length ≤ n) : dot u v = ∑ i ∈ range n, u.coord i * v.coord i := by
  induction u generalizing v n with
  | nil => simp
  | cons a u ih =>
    have hsome : n ≠ 0 := by
      rintro rfl
      cases h
    obtain ⟨n, rfl⟩ := Nat.exists_eq_succ_of_ne_zero hsome
    cases v with
    | nil => simp
    | cons b v =>
      rw [dot_cons, sum_range_succ', ih (Nat.le_of_succ_le_succ h), add_comm]
      rfl

theorem dot_comm (u v : Vec ℝ) : dot u v = dot v u := by
  induction u generalizing v with
  | nil => simp
  | cons a u ih =>
    cases v with
    | nil => simp
    | cons b v => rw [dot_cons, dot_cons, ih, mul_comm]

theorem dot_scale_left (a : ℝ) : dot (scale a u) v = a * dot u v := by
  rw [dot_eq_sum (length_scale a u).le, dot_eq_sum le_rfl, Finset.mul_sum]
  exact sum_congr rfl fun i _ => by rw [coord_scale, mul_assoc]

theorem dot_plus_left (h : u.length = v.length) : dot (plus u v) w = dot u w + dot v w := by
  rw [dot_eq_sum (length_plus_of_length h rfl).le, dot_eq_sum h.le, dot_eq_sum le_rfl,
    ← Finset.sum_add_distrib]
  exact sum_congr rfl fun i _ => by rw [coord_plus h, add_mul]

theorem dot_minus_left (h : u.length = v.length) : dot (minus u v) w = dot u w - dot v w := by
  rw [dot_eq_sum (length_minus_of_length h rfl).le, dot_eq_sum h.le, dot_eq_sum le_rfl,
    ← Finset.sum_sub_distrib]
  exact sum_congr rfl fun i _ => by rw [coord_minus h, sub_mul]

end InfeasibilityControl.Vec
