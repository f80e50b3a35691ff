import Mathlib
import InfeasibilityControl.Matrix.Elimination
import InfeasibilityControl.Proofs.Exact.Euclidean

set_option autoImplicit false
set_option relaxedAutoImplicit false

/-!
Gaussian elimination over the real numbers.

The leading coefficient of the pivot is the largest of all, so where it vanishes the first unknown
is free. Otherwise the pivot determines the first unknown from the others, and these solve the
equations that are left. By induction on the number of unknowns, elimination ends at the only
solution, or else the matrix is singular.
-/

namespace InfeasibilityControl

namespace Equation

section

variable {K : Type} [Scalar K]

theorem takePivot_perm (best : Equation K) (others : List (Equation K)) :
    ((takePivot best others).1 :: (takePivot best others).2).Perm (best :: others) := by
  induction others generalizing best with
  | nil => exact .refl _
  | cons e others ih =>
    rw [takePivot]
    split
    · exact (List.Perm.swap _ _ _).trans ((ih e).cons best)
    · calc (takePivot best others).1 :: e :: (takePivot best others).2
          |>.Perm (e :: (takePivot best others).1 :: (takePivot best others).2) := .swap _ _ _
        _ |>.Perm (e :: best :: others) := (ih best).cons e
        _ |>.Perm (best :: e :: others) := .swap _ _ _

end

variable {e pivot : Equation ℝ} {equations : List (Equation ℝ)} {n : Nat} {a : ℝ} {x v : Vec ℝ}

theorem abs_leading_le (best : Equation ℝ) (others : List (Equation ℝ)) :
    ∀ e ∈ best :: others, |e.leading| ≤ |(takePivot best others).1.leading| := by
  induction others generalizing best with
  | nil => simp [takePivot]
  | cons e others ih =>
    rw [takePivot]
    split
    · rename_i hlarger
      have hbest : |best.leading| < |e.leading| := hlarger
      refine List.forall_mem_cons.2 ⟨?_, ih e⟩
      exact hbest.le.trans (ih e e List.mem_cons_self)
    · rename_i hsmaller
      have hbest : |e.leading| ≤ |best.leading| := not_lt.1 hsmaller
      obtain ⟨hfirst, hothers⟩ := List.forall_mem_cons.1 (ih best)
      exact List.forall_mem_cons.2 ⟨hfirst, List.forall_mem_cons.2 ⟨hbest.trans hfirst, hothers⟩⟩

/-- The vector solves the equation. -/
def Holds (e : Equation ℝ) (x : Vec ℝ) : Prop := Vec.dot e.coefficients x = e.rightSide

/-- The equation with zero on its right. -/
def homogeneous (e : Equation ℝ) : Equation ℝ := ⟨e.coefficients, 0⟩

/-- A vector other than zero solves all the homogeneous equations. -/
def Degenerate (n : Nat) (equations : List (Equation ℝ)) : Prop :=
  ∃ v : Vec ℝ, v.length = n ∧ Vec.isNonzero v = true ∧ ∀ e ∈ equations, e.homogeneous.Holds v

theorem dot_cons_of_length (h : e.coefficients.length = n + 1) :
    Vec.dot e.coefficients (a :: x) = e.leading * a + Vec.dot e.coefficients.tail x := by
  rcases hcoefficients : e.coefficients with _ | ⟨c, coefficients⟩
  · simp [hcoefficients] at h
  · rw [Vec.dot_cons, leading, hcoefficients]
    rfl

theorem length_reduce (hpivot : pivot.coefficients.length = n + 1)
    (h : e.coefficients.length = n + 1) : (reduce pivot e).coefficients.length = n := by
  simp [reduce, hpivot, h]

theorem reduce_homogeneous :
    reduce pivot.homogeneous e.homogeneous = (reduce pivot e).homogeneous := by
  simp [reduce, homogeneous, leading]

theorem reduce_holds_iff (hpivot : pivot.coefficients.length = n + 1)
    (h : e.coefficients.length = n + 1) (hne : pivot.leading ≠ 0) (hholds : pivot.Holds (a :: x)) :
    (reduce pivot e).Holds x ↔ e.Holds (a :: x) := by
  have hleading : e.leading / pivot.leading * pivot.leading = e.leading :=
    div_mul_cancel₀ _ hne
  have hreduced : Vec.dot (reduce pivot e).coefficients x = Vec.dot e.coefficients.tail x -
      e.leading / pivot.leading * Vec.dot pivot.coefficients.tail x := by
    rw [reduce, Vec.dot_minus_left (by simp [hpivot, h]), Vec.dot_scale_left]
  have hright : (reduce pivot e).rightSide = e.rightSide - e.leading * a -
      e.leading / pivot.leading * Vec.dot pivot.coefficients.tail x := by
    rw [Holds, dot_cons_of_length hpivot] at hholds
    rw [reduce, ← hholds, mul_add, ← mul_assoc, hleading]
    ring
  rw [Holds, hreduced, hright, Holds, dot_cons_of_length h]
  constructor
  · intro heq
    linarith
  · intro heq
    linarith

theorem holds_cons_iff (hpivot : pivot.coefficients.length = n + 1) (hne : pivot.leading ≠ 0) :
    pivot.Holds (a :: x) ↔
      a = (pivot.rightSide - Vec.dot pivot.coefficients.tail x) / pivot.leading := by
  rw [Holds, dot_cons_of_length hpivot, eq_div_iff hne]
  constructor
  · intro heq
    linarith
  · intro heq
    linarith

/-- The equations hold if the pivot determines the first unknown and the others solve the equations
that are left. -/
theorem holds_all_iff {rest : List (Equation ℝ)} (hpivot : pivot.coefficients.length = n + 1)
    (hrest : ∀ e ∈ rest, e.coefficients.length = n + 1) (hne : pivot.leading ≠ 0) :
    (∀ e ∈ pivot :: rest, e.Holds (a :: x)) ↔
      a = (pivot.rightSide - Vec.dot pivot.coefficients.tail x) / pivot.leading ∧
        ∀ e ∈ rest.map (reduce pivot), e.Holds x := by
  rw [List.forall_mem_cons, ← holds_cons_iff hpivot hne, List.forall_mem_map]
  refine and_congr_right fun hholds => ?_
  constructor
  · intro hall e he
    exact (reduce_holds_iff hpivot (hrest e he) hne hholds).2 (hall e he)
  · intro hall e he
    exact (reduce_holds_iff hpivot (hrest e he) hne hholds).1 (hall e he)

theorem Degenerate.of_reduced {rest : List (Equation ℝ)}
    (hpivot : pivot.coefficients.length = n + 1)
    (hrest : ∀ e ∈ rest, e.coefficients.length = n + 1) (hne : pivot.leading ≠ 0)
    (h : Degenerate n (rest.map (reduce pivot))) : Degenerate (n + 1) (pivot :: rest) := by
  obtain ⟨v, hlength, hnonzero, hholds⟩ := h
  let first := (0 - Vec.dot pivot.coefficients.tail v) / pivot.leading
  refine ⟨first :: v, congrArg Nat.succ hlength, ?_, ?_⟩
  · rw [Vec.isNonzero, List.any_cons, ← Vec.isNonzero, hnonzero, Bool.or_true]
  · have hhead : pivot.homogeneous.coefficients.length = n + 1 := hpivot
    have hheadNe : pivot.homogeneous.leading ≠ 0 := hne
    have htail : ∀ e ∈ rest.map homogeneous, e.coefficients.length = n + 1 :=
      List.forall_mem_map.2 hrest
    have hall : ∀ e ∈ pivot.homogeneous :: rest.map homogeneous, e.Holds (first :: v) := by
      refine (holds_all_iff hhead htail hheadNe).2 ⟨rfl, ?_⟩
      rw [List.map_map, List.forall_mem_map]
      intro e he
      rw [Function.comp_apply, reduce_homogeneous]
      exact hholds _ (List.mem_map_of_mem he)
    rw [← List.map_cons (f := homogeneous)] at hall
    exact List.forall_mem_map.1 hall

theorem degenerate_of_leading_eq_zero (hlength : ∀ e ∈ equations, e.coefficients.length = n + 1)
    (hzero : ∀ e ∈ equations, e.leading = 0) : Degenerate (n + 1) equations := by
  refine ⟨1 :: Vec.zeros n, by simp, by simp [Vec.isNonzero, Scalar.real_beq], ?_⟩
  intro e he
  have hrest : Vec.dot e.coefficients.tail (Vec.zeros n) = 0 := by
    rw [Vec.dot_eq_sum le_rfl]
    simp
  have hdot : Vec.dot e.coefficients (1 :: Vec.zeros n) = 0 := by
    rw [dot_cons_of_length (hlength e he), hzero e he, hrest, zero_mul, add_zero]
  exact hdot

theorem holds_iff_of_reduced {rest : List (Equation ℝ)}
    (hpivot : pivot.coefficients.length = n + 1)
    (hrest : ∀ e ∈ rest, e.coefficients.length = n + 1) (hne : pivot.leading ≠ 0)
    (hunique : ∀ v : Vec ℝ, v.length = n →
      ((∀ e ∈ rest.map (reduce pivot), e.Holds v) ↔ v = x)) {v : Vec ℝ} (hv : v.length = n + 1) :
    (∀ e ∈ pivot :: rest, e.Holds v) ↔
      v = (pivot.rightSide - Vec.dot pivot.coefficients.tail x) / pivot.leading :: x := by
  rcases v with _ | ⟨a, v⟩
  · cases hv
  rw [holds_all_iff hpivot hrest hne, hunique v (Nat.succ_injective hv), List.cons.injEq]
  constructor
  · rintro ⟨rfl, rfl⟩
    exact ⟨rfl, rfl⟩
  · rintro ⟨rfl, rfl⟩
    exact ⟨rfl, rfl⟩

/-- Elimination ends at the only solution, or there is a solution besides zero of the homogeneous
equations. -/
theorem solve_cases (hcount : equations.length = n)
    (hlength : ∀ e ∈ equations, e.coefficients.length = n) :
    (∃ x, solve n equations = some x ∧ x.length = n ∧
        ∀ v : Vec ℝ, v.length = n → ((∀ e ∈ equations, e.Holds v) ↔ v = x)) ∨
      (solve n equations = none ∧ Degenerate n equations) := by
  induction n generalizing equations with
  | zero =>
    obtain rfl : equations = [] := List.length_eq_zero_iff.1 hcount
    refine .inl ⟨[], rfl, rfl, fun v hv => ?_⟩
    simp [List.length_eq_zero_iff.1 hv]
  | succ n ih =>
    rcases equations with _ | ⟨first, others⟩
    · cases hcount
    have hperm := takePivot_perm first others
    have hlargest := abs_leading_le first others
    rw [solve]
    rcases hchosen : takePivot first others with ⟨pivot, rest⟩
    rw [hchosen] at hperm hlargest
    have hsame : ∀ P : Equation ℝ → Prop,
        (∀ e ∈ pivot :: rest, P e) ↔ ∀ e ∈ first :: others, P e := by
      intro P
      simp only [hperm.mem_iff]
    obtain ⟨hpivot, hrest⟩ := List.forall_mem_cons.1 ((hsame _).2 hlength)
    by_cases hzero : pivot.leading = 0
    · refine .inr ⟨by simp [hzero], ?_⟩
      refine degenerate_of_leading_eq_zero hlength fun e he => ?_
      have hle : |e.leading| ≤ |pivot.leading| := hlargest e he
      rw [hzero, abs_zero] at hle
      exact abs_eq_zero.1 (le_antisymm hle (abs_nonneg _))
    · have hleft : (rest.map (reduce pivot)).length = n := by
        have hlengths := hperm.length_eq
        simp only [List.length_cons] at hlengths hcount
        rw [List.length_map]
        omega
      have hleftLength : ∀ e ∈ rest.map (reduce pivot), e.coefficients.length = n :=
        List.forall_mem_map.2 fun e he => length_reduce hpivot (hrest e he)
      obtain ⟨x, hx, hxlength, hunique⟩ | ⟨hnone, hdegenerate⟩ := ih hleft hleftLength
      · exact .inl ⟨(pivot.rightSide - Vec.dot pivot.coefficients.tail x) / pivot.leading :: x,
          by simp [hzero, hx], congrArg Nat.succ hxlength, fun v hv =>
          (hsame _).symm.trans (holds_iff_of_reduced hpivot hrest hzero hunique hv)⟩
      · refine .inr ⟨by simp [hzero, hnone], ?_⟩
        obtain ⟨v, hv, hnonzero, hholds⟩ := hdegenerate.of_reduced hpivot hrest hzero
        exact ⟨v, hv, hnonzero, (hsame _).1 hholds⟩

end Equation

/-- A square table as a matrix. -/
noncomputable def tableMatrix (n : Nat) (rows : List (Vec ℝ)) : Matrix (Fin n) (Fin n) ℝ :=
  Matrix.of fun i j => tableEntry rows i j

section

variable {rows : List (Vec ℝ)} {rightSide v : Vec ℝ} {n : Nat}

theorem tableMatrix_mulVec (hcolumns : ∀ row ∈ rows, row.length = n) (i : Fin n) :
    (tableMatrix n rows).mulVec (v.euclid n).ofLp i = (tableProduct rows v).coord i := by
  rw [coord_tableProduct fun row hrow => (hcolumns row hrow).le, Finset.sum_range]
  rfl

theorem det_tableMatrix_eq_zero_iff (hrows : rows.length = n)
    (hcolumns : ∀ row ∈ rows, row.length = n) : (tableMatrix n rows).det = 0 ↔
      ∃ v : Vec ℝ, v.length = n ∧ Vec.isNonzero v = true ∧ tableProduct rows v = Vec.zeros n := by
  have hkernel : ∀ v : Vec ℝ, (tableMatrix n rows).mulVec (v.euclid n).ofLp = 0 ↔
      tableProduct rows v = Vec.zeros n := by
    intro v
    constructor
    · intro hzero
      refine Vec.ext_coord (by simp [hrows]) fun i hi => ?_
      have hi : i < n := by simpa [hrows] using hi
      rw [← tableMatrix_mulVec hcolumns ⟨i, hi⟩, hzero, Vec.coord_zeros]
      rfl
    · intro hzero
      ext i
      rw [tableMatrix_mulVec hcolumns, hzero, Vec.coord_zeros]
      rfl
  rw [← Matrix.exists_mulVec_eq_zero_iff]
  constructor
  · rintro ⟨x, hx, hzero⟩
    obtain ⟨v, hv, hpoint⟩ := Vec.exists_euclid (WithLp.toLp 2 x)
    refine ⟨v, hv, (Vec.isNonzero_iff hv).2 ?_, (hkernel v).1 ?_⟩
    · rw [hpoint]
      exact fun h => hx (congrArg WithLp.ofLp h)
    · rw [hpoint]
      exact hzero
  · rintro ⟨v, hv, hnonzero, hzero⟩
    refine ⟨(v.euclid n).ofLp, fun h => (Vec.isNonzero_iff hv).1 hnonzero ?_, (hkernel v).2 hzero⟩
    exact congrArg (WithLp.toLp 2) h

namespace Equation

theorem holds_zipWith_iff (h : rows.length = rightSide.length) :
    (∀ e ∈ List.zipWith mk rows rightSide, e.Holds v) ↔ tableProduct rows v = rightSide := by
  induction rows generalizing rightSide with
  | nil =>
    obtain rfl : rightSide = [] := List.length_eq_zero_iff.1 h.symm
    simp [tableProduct]
  | cons row rows ih =>
    rcases rightSide with _ | ⟨b, rightSide⟩
    · cases h
    rw [List.zipWith_cons_cons, List.forall_mem_cons, ih (Nat.succ_injective h)]
    simp only [tableProduct, List.map_cons, List.cons.injEq, Holds]

theorem degenerate_zipWith_iff (hrows : rows.length = n) (hright : rightSide.length = n)
    (hcolumns : ∀ row ∈ rows, row.length = n) :
    Degenerate n (List.zipWith mk rows rightSide) ↔ (tableMatrix n rows).det = 0 := by
  have hzero : (List.zipWith mk rows rightSide).map homogeneous =
      List.zipWith mk rows (Vec.zeros n) := by
    refine List.ext_getElem (by simp [hrows, hright]) fun i _ _ => ?_
    simp [homogeneous, Vec.zeros]
  rw [det_tableMatrix_eq_zero_iff hrows hcolumns]
  refine exists_congr fun v => and_congr_right fun _ => and_congr_right fun _ => ?_
  rw [← holds_zipWith_iff (by simp [hrows]), ← hzero, List.forall_mem_map]

/-- Elimination fails on the singular tables only, and ends at the only solution on the others. -/
theorem solve_table (hrows : rows.length = n) (hright : rightSide.length = n)
    (hcolumns : ∀ row ∈ rows, row.length = n) :
    ((tableMatrix n rows).det = 0 ∧ solve n (List.zipWith mk rows rightSide) = none) ∨
      ((tableMatrix n rows).det ≠ 0 ∧ ∃ x, solve n (List.zipWith mk rows rightSide) = some x ∧
        x.length = n ∧ ∀ v : Vec ℝ, v.length = n → (tableProduct rows v = rightSide ↔ v = x)) := by
  have hcount : (List.zipWith mk rows rightSide).length = n := by simp [hrows, hright]
  have hlength : ∀ e ∈ List.zipWith mk rows rightSide, e.coefficients.length = n := by
    intro e he
    obtain ⟨i, hi, rfl⟩ := List.getElem_of_mem he
    rw [List.getElem_zipWith]
    exact hcolumns _ (List.getElem_mem _)
  obtain ⟨x, hx, hxlength, hunique⟩ | ⟨hnone, hdegenerate⟩ := solve_cases hcount hlength
  · simp only [holds_zipWith_iff (hrows.trans hright.symm)] at hunique
    refine .inr ⟨fun hdet => ?_, x, hx, hxlength, hunique⟩
    -- A vector of the kernel could be added to the solution.
    obtain ⟨v, hv, hnonzero, hzero⟩ := (det_tableMatrix_eq_zero_iff hrows hcolumns).1 hdet
    have hrowZero : ∀ row ∈ rows, Vec.dot row v = 0 := by
      have hreplicate := (List.eq_replicate_iff.1 hzero).2
      exact fun row hrow => hreplicate _ (List.mem_map_of_mem hrow)
    have hsum : tableProduct rows (Vec.plus x v) = rightSide := by
      rw [← (hunique x hxlength).2 rfl]
      refine List.map_congr_left fun row hrow => ?_
      rw [Vec.dot_comm, Vec.dot_plus_left (hxlength.trans hv.symm), Vec.dot_comm, Vec.dot_comm v,
        hrowZero row hrow, add_zero]
    have hsame : Vec.plus x v = x :=
      (hunique _ (Vec.length_plus_of_length hxlength hv)).1 hsum
    refine (Vec.isNonzero_iff hv).1 hnonzero ?_
    have hpoint := Vec.euclid_plus (n := n) (hxlength.trans hv.symm)
    rw [hsame] at hpoint
    exact left_eq_add.1 hpoint
  · exact .inl ⟨(degenerate_zipWith_iff hrows hright hcolumns).1 hdegenerate, hnone⟩

end Equation

end

end InfeasibilityControl
