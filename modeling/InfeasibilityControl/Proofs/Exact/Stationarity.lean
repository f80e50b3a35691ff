import Mathlib
import InfeasibilityControl.Proofs.Exact.NullSpace

set_option autoImplicit false
set_option relaxedAutoImplicit false

/-!
What the test for stationarity decides, in exact arithmetic.

The constraints are called stationary if no step along `-g`, where `g = Jᵀ c`, brings `‖c‖²` down by
more than the square of the tolerance, in proportion. The test compares norms and forms no minimum,
and it does not depend on the units in which the constraints and the Jacobian are given.
-/

namespace InfeasibilityControl

namespace LinearModel

variable {E F : Type*} [NormedAddCommGroup E] [InnerProductSpace ℝ E] [NormedAddCommGroup F]
  [InnerProductSpace ℝ F] {J : E →ₗ[ℝ] F} {c : F} {g : E} {tolerance : ℝ}

namespace IsGradient

theorem norm_sq_eq_zero (h : IsGradient J c g) (himage : J g = 0) : ‖g‖ ^ 2 = 0 := by
  rw [h.norm_sq, himage, inner_zero_right]

/-- The least square of the model along the negative gradient. On a flat model the quotient is zero,
as is the reduction. -/
theorem isLeast_model_sq (h : IsGradient J c g) :
    IsLeast (Set.range fun t : ℝ => ‖c - t • J g‖ ^ 2)
      (‖c‖ ^ 2 - (‖g‖ ^ 2) ^ 2 / ‖J g‖ ^ 2) := by
  obtain ⟨s, hs, hvalue⟩ : ∃ s : ℝ, s * ‖J g‖ ^ 2 = ‖g‖ ^ 2 ∧
      ‖c - s • J g‖ ^ 2 = ‖c‖ ^ 2 - (‖g‖ ^ 2) ^ 2 / ‖J g‖ ^ 2 := by
    by_cases himage : J g = 0
    · refine ⟨0, ?_, ?_⟩
      · rw [zero_mul, h.norm_sq_eq_zero himage]
      · simp [himage]
    · have hcurved : ‖J g‖ ^ 2 ≠ 0 := pow_ne_zero 2 (norm_ne_zero_iff.2 himage)
      refine ⟨‖g‖ ^ 2 / ‖J g‖ ^ 2, div_mul_cancel₀ _ hcurved, ?_⟩
      rw [h.model_sq]
      field_simp
      ring
  refine ⟨⟨s, hvalue⟩, ?_⟩
  rintro _ ⟨t, rfl⟩
  rw [← hvalue]
  exact pow_le_pow_left₀ (norm_nonneg _) (h.model_least hs t) 2

/-- The reduction along the negative gradient is within the tolerance exactly if the least square
that is reached there is not too small. -/
theorem norm_sq_le_iff (h : IsGradient J c g) (htolerance : 0 ≤ tolerance) :
    ‖g‖ ^ 2 ≤ tolerance * ‖c‖ * ‖J g‖ ↔
      (1 - tolerance ^ 2) * ‖c‖ ^ 2 ≤ ‖c‖ ^ 2 - (‖g‖ ^ 2) ^ 2 / ‖J g‖ ^ 2 := by
  by_cases himage : J g = 0
  · have hslack : 0 ≤ tolerance ^ 2 * ‖c‖ ^ 2 := by positivity
    rw [h.norm_sq_eq_zero himage, himage, norm_zero, mul_zero, zero_pow two_ne_zero, zero_div,
      sub_zero]
    exact ⟨fun _ => by linarith, fun _ => le_rfl⟩
  · have hcurved : 0 < ‖J g‖ ^ 2 := pow_pos (norm_pos_iff.2 himage) 2
    have hbound : 0 ≤ tolerance * ‖c‖ * ‖J g‖ := by positivity
    calc ‖g‖ ^ 2 ≤ tolerance * ‖c‖ * ‖J g‖
        ↔ (‖g‖ ^ 2) ^ 2 ≤ (tolerance * ‖c‖ * ‖J g‖) ^ 2 :=
          (sq_le_sq₀ (sq_nonneg _) hbound).symm
      _ ↔ (‖g‖ ^ 2) ^ 2 ≤ tolerance ^ 2 * ‖c‖ ^ 2 * ‖J g‖ ^ 2 := by rw [mul_pow, mul_pow]
      _ ↔ (‖g‖ ^ 2) ^ 2 / ‖J g‖ ^ 2 ≤ tolerance ^ 2 * ‖c‖ ^ 2 := (div_le_iff₀ hcurved).symm
      _ ↔ (1 - tolerance ^ 2) * ‖c‖ ^ 2 ≤ ‖c‖ ^ 2 - (‖g‖ ^ 2) ^ 2 / ‖J g‖ ^ 2 := by
          constructor <;> intro hle <;> linarith

theorem norm_sq_le_of_one_le (h : IsGradient J c g) (htolerance : 1 ≤ tolerance) :
    ‖g‖ ^ 2 ≤ tolerance * ‖c‖ * ‖J g‖ := by
  have hnonneg : 0 ≤ ‖c‖ * ‖J g‖ := by positivity
  calc ‖g‖ ^ 2 ≤ ‖c‖ * ‖J g‖ := h.norm_sq_le
    _ ≤ tolerance * (‖c‖ * ‖J g‖) := le_mul_of_one_le_left hnonneg htolerance
    _ = tolerance * ‖c‖ * ‖J g‖ := (mul_assoc _ _ _).symm

end IsGradient

end LinearModel

namespace SparseMatrix

section

variable {K : Type} [Scalar K]

/-- A multiple of a matrix, entry by entry. -/
def scale (factor : K) (A : SparseMatrix K) : SparseMatrix K :=
  { A with rows := A.rows.map fun row => row.map fun entry => entry.map fun a => factor * a }

/-- The test for stationarity of the constraints `c` whose Jacobian is `J`. -/
def stationarityTest (J : SparseMatrix K) (c : Vec K) (tolerance : K) : Except Fault Bool :=
  isStationary (J.applyTransposed c) (J.apply (J.applyTransposed c)) (Vec.norm c) tolerance

end

variable {J : SparseMatrix ℝ} {c : Vec ℝ} {m n : Nat} {s t tolerance : ℝ}

theorem HasShape.scale (h : J.HasShape m n) (s : ℝ) : (J.scale s).HasShape m n where
  rowCount := h.rowCount
  columnCount := h.columnCount
  rows := by rw [SparseMatrix.scale, List.length_map, h.rows]
  columns := by
    simp only [SparseMatrix.scale, List.mem_map]
    rintro _ ⟨row, hrow, rfl⟩
    rw [List.length_map, h.columns row hrow]

theorem toRows_scale (s : ℝ) (J : SparseMatrix ℝ) :
    (J.scale s).toRows = J.toRows.map fun row => Vec.scale s row := by
  have hentry : ∀ entry : Option ℝ, (entry.map fun a => s * a).getD 0 = s * entry.getD 0 := by
    rintro (_ | a)
    · exact (mul_zero s).symm
    · rfl
  simp [toRows, SparseMatrix.scale, Vec.scale, hentry]

theorem coeff_scale (s : ℝ) (J : SparseMatrix ℝ) (i j : Nat) :
    (J.scale s).coeff i j = s * J.coeff i j := by
  rw [coeff, coeff, toRows_scale]
  by_cases hi : i < J.toRows.length
  · rw [tableEntry_of_lt (by simpa using hi), tableEntry_of_lt hi, List.getElem_map,
      Vec.coord_scale]
  · have hi := Nat.not_lt.1 hi
    rw [tableEntry_of_length_le (by simpa using hi), tableEntry_of_length_le hi, mul_zero]

theorem linear_scale (s : ℝ) (J : SparseMatrix ℝ) :
    (J.scale s).linear m n = s • J.linear m n := by
  ext x i
  simp only [linear_apply, coeff_scale, LinearMap.smul_apply, PiLp.smul_apply, smul_eq_mul,
    Finset.mul_sum, mul_assoc]

theorem HasShape.stationarityTest_eq (h : J.HasShape m n) (hc : c.length = m) (tolerance : ℝ) :
    J.stationarityTest c tolerance = .ok (decide (‖(J.applyTransposed c).euclid n‖ ^ 2 ≤
      tolerance * ‖c.euclid m‖ * ‖J.linear m n ((J.applyTransposed c).euclid n)‖)) := by
  have hsquare : Scalar.square? ‖(J.applyTransposed c).euclid n‖ =
      some (‖(J.applyTransposed c).euclid n‖ ^ 2) := by
    rw [sq]
    rfl
  rw [stationarityTest, isStationary, Vec.norm_eq (h.length_applyTransposed c).le,
    Vec.norm_eq hc.le, Vec.norm_eq (h.length_apply _).le, h.euclid_apply, hsquare]

theorem HasShape.euclid_applyTransposed_scale (h : J.HasShape m n) (s t : ℝ) (c : Vec ℝ) :
    ((J.scale s).applyTransposed (Vec.scale t c)).euclid n =
      (s * t) • (J.applyTransposed c).euclid n := by
  rw [(h.scale s).euclid_applyTransposed, h.euclid_applyTransposed, linear_scale, Vec.euclid_scale,
    map_smul, map_smul, LinearMap.smul_apply, smul_smul, mul_comm]

theorem HasShape.stationarityTest_scale (h : J.HasShape m n) (hc : c.length = m) (hs : s ≠ 0)
    (ht : t ≠ 0) :
    (J.scale s).stationarityTest (Vec.scale t c) tolerance = J.stationarityTest c tolerance := by
  have hfactor : 0 < (s * t) ^ 2 := by positivity
  have hleft : ‖(s * t) • (J.applyTransposed c).euclid n‖ ^ 2 =
      (s * t) ^ 2 * ‖(J.applyTransposed c).euclid n‖ ^ 2 := by
    rw [norm_smul, mul_pow, Real.norm_eq_abs, sq_abs]
  have hright : tolerance * ‖t • c.euclid m‖ *
      ‖(s • J.linear m n) ((s * t) • (J.applyTransposed c).euclid n)‖ =
        (s * t) ^ 2 * (tolerance * ‖c.euclid m‖ *
          ‖J.linear m n ((J.applyTransposed c).euclid n)‖) := by
    rw [LinearMap.smul_apply, map_smul, norm_smul, norm_smul, norm_smul, Real.norm_eq_abs,
      Real.norm_eq_abs, Real.norm_eq_abs, ← sq_abs (s * t), abs_mul]
    ring
  rw [(h.scale s).stationarityTest_eq ((Vec.length_scale t c).trans hc), h.stationarityTest_eq hc,
    h.euclid_applyTransposed_scale, linear_scale, Vec.euclid_scale, hleft, hright]
  simp only [mul_le_mul_iff_right₀ hfactor]

end SparseMatrix

variable {J : SparseMatrix ℝ} {c : Vec ℝ} {m n : Nat} {tolerance : ℝ}

/-- On every matrix the test has a verdict. It says whether the least `‖c - a J g‖²` along the
negative gradient is at least `(1 - tolerance²) ‖c‖²`, which it is for every tolerance from one on.
Other units for the Jacobian or for the constraints leave the verdict as it is. -/
theorem stationarity_exact (h : J.HasShape m n) (hc : c.length = m) (htolerance : 0 ≤ tolerance) :
    ∃ verdict least, J.stationarityTest c tolerance = .ok verdict ∧
      IsLeast (Set.range fun a : ℝ => Vec.norm (Vec.minus c
        (Vec.scale a (J.apply (J.applyTransposed c)))) ^ 2) least ∧
      (verdict = true ↔ (1 - tolerance ^ 2) * Vec.norm c ^ 2 ≤ least) ∧
      (1 ≤ tolerance → verdict = true) ∧
      ∀ s t : ℝ, s ≠ 0 → t ≠ 0 →
        (J.scale s).stationarityTest (Vec.scale t c) tolerance = .ok verdict := by
  have hgradient := h.isGradient c
  have hverdict := h.stationarityTest_eq hc tolerance
  have hleast := hgradient.isLeast_model_sq
  simp only [← h.norm_model_along hc] at hleast
  refine ⟨_, _, hverdict, hleast, ?_, ?_, fun s t hs ht => ?_⟩
  · rw [decide_eq_true_iff, Vec.norm_eq hc.le]
    exact hgradient.norm_sq_le_iff htolerance
  · intro hone
    exact decide_eq_true (hgradient.norm_sq_le_of_one_le hone)
  · rw [h.stationarityTest_scale hc hs ht, hverdict]

/-- A column that leaves the second equation alone. -/
noncomputable def tallColumn : SparseMatrix ℝ := ⟨2, 1, [[some 1], [some 0]]⟩

theorem tallColumn_hasShape : tallColumn.HasShape 2 1 := ⟨rfl, rfl, rfl, by simp [tallColumn]⟩

/-- At the constraints `(3, 4)` the column brings `‖c‖²` down from `25` to `16`, which is more than
a tolerance of a half puts up with, in whatever units. -/
theorem tallColumn_exact : tallColumn.HasShape 2 1 ∧ (0 : ℝ) ≤ 1 / 2 ∧
    IsLeast (Set.range fun a : ℝ => Vec.norm (Vec.minus [3, 4]
      (Vec.scale a (tallColumn.apply (tallColumn.applyTransposed [3, 4])))) ^ 2) 16 ∧
    tallColumn.stationarityTest [3, 4] (1 / 2) = .ok false ∧
    (tallColumn.scale (-2)).stationarityTest (Vec.scale 5 [3, 4]) (1 / 2) = .ok false := by
  have htolerance : (0 : ℝ) ≤ 1 / 2 := by norm_num
  have hvalue : ∀ a : ℝ, Vec.norm (Vec.minus [3, 4]
      (Vec.scale a (tallColumn.apply (tallColumn.applyTransposed [3, 4])))) ^ 2 =
        (3 - a * 3) ^ 2 + 16 := by
    intro a
    rw [sq, Vec.norm_sq]
    simp [tallColumn, SparseMatrix.apply, SparseMatrix.applyTransposed, SparseMatrix.addRow,
      SparseMatrix.rowProduct, Vec.zeros, Vec.scale, Vec.minus]
    ring
  have hleast : IsLeast (Set.range fun a : ℝ => Vec.norm (Vec.minus [3, 4]
      (Vec.scale a (tallColumn.apply (tallColumn.applyTransposed [3, 4])))) ^ 2) 16 := by
    refine ⟨⟨1, ?_⟩, ?_⟩
    · norm_num [hvalue]
    · rintro _ ⟨a, rfl⟩
      simp only [hvalue]
      exact le_add_of_nonneg_left (sq_nonneg _)
  obtain ⟨verdict, least, hverdict, hminimum, hiff, -, hscaled⟩ :=
    stationarity_exact tallColumn_hasShape (c := [3, 4]) rfl htolerance
  obtain rfl := hminimum.unique hleast
  have hnorm : Vec.norm [(3 : ℝ), 4] ^ 2 = 25 := by
    rw [sq, Vec.norm_sq]
    norm_num
  have hfalse : verdict = false := by
    rw [← Bool.not_eq_true, hiff, hnorm]
    norm_num
  subst hfalse
  exact ⟨tallColumn_hasShape, htolerance, hleast, hverdict,
    hscaled (-2) 5 (by norm_num) (by norm_num)⟩

end InfeasibilityControl
