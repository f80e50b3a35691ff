import Mathlib
import InfeasibilityControl.Matrix.Sparse
import InfeasibilityControl.Proofs.Exact.Vector

set_option autoImplicit false
set_option relaxedAutoImplicit false

/-!
Sparse matrices over the real numbers, entry by entry.

An absent entry counts as zero. The products with a matrix and with its transpose are the sums that
define them, and a matrix in coordinate form has at each place the sum of the values put there.
-/

namespace InfeasibilityControl

open Finset (range sum_range_succ' sum_congr)

namespace SparseMatrix

/-- The matrix has so many rows and columns, and its rows are complete. -/
structure HasShape {K : Type} (A : SparseMatrix K) (m n : Nat) : Prop where
  rowCount : A.rowCount = m
  columnCount : A.columnCount = n
  rows : A.rows.length = m
  columns : ∀ row ∈ A.rows, row.length = n

section

variable {K : Type} [Scalar K] {A : SparseMatrix K} {m n : Nat}

@[simp] theorem length_apply (v : Vec K) : (A.apply v).length = A.rows.length :=
  List.length_map _

theorem HasShape.length_apply (h : A.HasShape m n) (v : Vec K) : (A.apply v).length = m := by
  rw [SparseMatrix.length_apply, h.rows]

theorem HasShape.length_applyTransposed (h : A.HasShape m n) (w : Vec K) :
    (A.applyTransposed w).length = n := by
  have hadd : ∀ (pairs : List (List (Option K) × K)) (sum : Vec K),
      (∀ p ∈ pairs, p.1.length = n) → sum.length = n →
      (pairs.foldl (fun sum p => addRow p.2 sum p.1) sum).length = n := by
    intro pairs
    induction pairs with
    | nil => exact fun sum _ hsum => hsum
    | cons p pairs ih =>
      intro sum hpairs hsum
      refine ih _ (fun q hq => hpairs q (List.mem_cons_of_mem p hq)) ?_
      simp [addRow, hpairs p, hsum]
  refine hadd _ _ (fun p hp => h.columns _ (List.of_mem_zip hp).1) ?_
  simp [h.columnCount]

theorem ofCoordinates_eq_ok {positions : List Position} {values : List K}
    (hlength : positions.length = values.length)
    (hinside : ∀ p ∈ positions, p.isInside m n = true) :
    ∃ A, ofCoordinates m n positions values = .ok A := by
  rw [ofCoordinates, if_pos ⟨hlength, List.all_eq_true.2 hinside⟩]
  exact ⟨_, rfl⟩

theorem ofCoordinates_hasShape {positions : List Position} {values : List K}
    (h : ofCoordinates m n positions values = .ok A) : A.HasShape m n := by
  unfold ofCoordinates at h
  split at h
  · cases h
    refine ⟨rfl, rfl, by simp, ?_⟩
    simp only [List.mem_map]
    rintro row ⟨i, -, rfl⟩
    simp
  · cases h

end

end SparseMatrix

/-- The entry of a table of rows, zero outside. -/
def tableEntry (table : List (Vec ℝ)) (i j : Nat) : ℝ := Vec.coord (table.getD i []) j

/-- The product of a table with a vector. -/
noncomputable def tableProduct (table : List (Vec ℝ)) (v : Vec ℝ) : Vec ℝ :=
  table.map fun row => Vec.dot row v

section

variable {table : List (Vec ℝ)} {m n i j : Nat} {v : Vec ℝ}

@[simp] theorem length_tableProduct : (tableProduct table v).length = table.length :=
  List.length_map _

theorem tableEntry_of_length_le (h : table.length ≤ i) : tableEntry table i j = 0 := by
  rw [tableEntry, List.getD_eq_default _ _ h, Vec.coord_nil]

theorem tableEntry_of_columns_le (h : ∀ row ∈ table, row.length ≤ j) :
    tableEntry table i j = 0 := by
  by_cases hi : i < table.length
  · rw [tableEntry, List.getD_eq_getElem _ _ hi]
    exact Vec.coord_of_length_le (h _ (List.getElem_mem hi))
  · exact tableEntry_of_length_le (Nat.not_lt.1 hi)

theorem tableEntry_of_lt (h : i < table.length) : tableEntry table i j = table[i].coord j := by
  rw [tableEntry, List.getD_eq_getElem _ _ h]

theorem tableEntry_tabulate {f : Nat → Nat → ℝ} (hi : i < m) (hj : j < n) :
    tableEntry ((List.range m).map fun i => (List.range n).map fun j => f i j) i j = f i j := by
  rw [tableEntry_of_lt (by simpa using hi), List.getElem_map, List.getElem_range,
    Vec.coord_tabulate hj]

theorem coord_tableProduct (h : ∀ row ∈ table, row.length ≤ n) :
    (tableProduct table v).coord i = ∑ j ∈ range n, tableEntry table i j * v.coord j := by
  by_cases hi : i < table.length
  · have hcoord : (tableProduct table v).coord i = Vec.dot table[i] v := by
      simp [Vec.coord, tableProduct, hi]
    rw [hcoord, Vec.dot_eq_sum (h _ (List.getElem_mem hi))]
    exact sum_congr rfl fun j _ => by rw [tableEntry_of_lt hi]
  · have hi := Nat.not_lt.1 hi
    rw [Vec.coord_of_length_le (by simpa using hi)]
    simp [tableEntry_of_length_le hi]

end

namespace SparseMatrix

variable {A : SparseMatrix ℝ} {m n i j : Nat} {v w : Vec ℝ}

/-- The entry in a row and a column, zero where none is stored. -/
noncomputable def coeff (A : SparseMatrix ℝ) (i j : Nat) : ℝ := tableEntry A.toRows i j

theorem HasShape.length_of_mem_toRows (h : A.HasShape m n) :
    ∀ row ∈ A.toRows, row.length = n := by
  simp only [toRows, List.mem_map]
  rintro row ⟨stored, hmem, rfl⟩
  rw [List.length_map, h.columns stored hmem]

theorem rowProduct_eq_dot (row : List (Option ℝ)) (v : Vec ℝ) :
    rowProduct row v = Vec.dot (row.map fun entry => entry.getD 0) v := by
  have hdense : rowProduct row v = (row.zip v).foldl (fun s p => s + p.1.getD 0 * p.2) 0 := by
    rw [rowProduct]
    congr 1
    funext s p
    rcases p with ⟨_ | c, b⟩
    · simp
    · rfl
  have hfold : ∀ (row : List (Option ℝ)) (v : Vec ℝ) (a : ℝ),
      (row.zip v).foldl (fun s p => s + p.1.getD 0 * p.2) a =
        a + Vec.dot (row.map fun entry => entry.getD 0) v := by
    intro row
    induction row with
    | nil => simp
    | cons entry row ih =>
      intro v a
      cases v with
      | nil => simp
      | cons b v =>
        rw [List.zip_cons_cons, List.foldl_cons, ih, List.map_cons, Vec.dot_cons, add_assoc]
  rw [hdense, hfold, zero_add]

theorem apply_eq_tableProduct (A : SparseMatrix ℝ) (v : Vec ℝ) :
    A.apply v = tableProduct A.toRows v := by
  simp [apply, tableProduct, toRows, rowProduct_eq_dot]

theorem HasShape.coord_apply (h : A.HasShape m n) :
    (A.apply v).coord i = ∑ j ∈ range n, A.coeff i j * v.coord j := by
  rw [apply_eq_tableProduct, coord_tableProduct fun row hrow =>
    (h.length_of_mem_toRows row hrow).le]
  rfl

theorem addRow_eq_plus (factor : ℝ) (sum : Vec ℝ) (row : List (Option ℝ)) :
    addRow factor sum row =
      Vec.plus sum (Vec.scale factor (row.map fun entry => entry.getD 0)) := by
  induction sum generalizing row with
  | nil => rfl
  | cons a sum ih =>
    cases row with
    | nil => rfl
    | cons entry row =>
      have hrest : addRow factor sum row =
          Vec.plus sum (Vec.scale factor (row.map fun entry => entry.getD 0)) := ih row
      cases entry with
      | none =>
        change a :: addRow factor sum row = (a + factor * 0) :: _
        rw [hrest, mul_zero, add_zero]
        rfl
      | some c =>
        change (a + c * factor) :: addRow factor sum row = (a + factor * c) :: _
        rw [hrest, mul_comm c factor]
        rfl

theorem HasShape.coord_applyTransposed (h : A.HasShape m n) :
    (A.applyTransposed w).coord j = ∑ i ∈ range m, A.coeff i j * w.coord i := by
  have hfold : ∀ (rows : List (List (Option ℝ))) (w sum : Vec ℝ),
      (∀ row ∈ rows, row.length = n) → sum.length = n →
      Vec.coord ((rows.zip w).foldl (fun sum p => addRow p.2 sum p.1) sum) j =
        sum.coord j + ∑ i ∈ range rows.length,
          tableEntry (rows.map fun row => row.map fun entry => entry.getD 0) i j * w.coord i := by
    intro rows
    induction rows with
    | nil => simp
    | cons row rows ih =>
      intro w sum hrows hsum
      cases w with
      | nil => simp
      | cons b w =>
        have hrow : row.length = n := hrows row List.mem_cons_self
        have hrest : ∀ row ∈ rows, row.length = n := fun r hr =>
          hrows r (List.mem_cons_of_mem _ hr)
        rw [List.zip_cons_cons, List.foldl_cons, ih _ _ hrest (by simp [addRow, hrow, hsum]),
          addRow_eq_plus, Vec.coord_plus (by simp [hrow, hsum]), Vec.coord_scale, List.length_cons,
          sum_range_succ']
        simp only [tableEntry, List.map_cons, List.getD_cons_succ, List.getD_cons_zero,
          Vec.coord_cons_succ, Vec.coord_cons_zero]
        ring
  rw [applyTransposed, hfold _ _ _ h.columns (by simp [h.columnCount]), Vec.coord_zeros, zero_add,
    h.rows]
  rfl

/-- The values that are put at a position, added up. -/
def placed (positions : List Position) (values : Vec ℝ) (i j : Nat) : ℝ :=
  (List.zipWith (fun (p : Position) a => if p = ((i : Int), (j : Int)) then a else 0) positions
    values).sum

theorem gather_getD (values : List ℝ) : (gather values).getD 0 = values.sum := by
  cases values with
  | nil => rfl
  | cons first others =>
    change others.foldl (fun s a => s + a) first = _
    rw [List.sum_cons]
    induction others generalizing first with
    | nil => simp
    | cons second others ih => rw [List.foldl_cons, ih, List.sum_cons, add_assoc]

private theorem sum_filter_eq_placed (positions : List Position) (values : Vec ℝ) (i j : Nat) :
    (((((positions.zip values).filter fun e => e.1.1 == (i : Int)).filter
      fun e => e.1.2 == (j : Int))).map fun e => e.2).sum = placed positions values i j := by
  rw [List.filter_filter]
  induction positions generalizing values with
  | nil => rfl
  | cons p positions ih =>
    cases values with
    | nil => rfl
    | cons a values =>
      have hp : p = ((i : Int), (j : Int)) ↔
          ((p.2 == (j : Int)) && (p.1 == (i : Int))) = true := by
        simp [Prod.ext_iff, and_comm]
      rw [placed, List.zip_cons_cons, List.zipWith_cons_cons, List.sum_cons, List.filter_cons]
      split
      · rename_i hmatch
        rw [if_pos (hp.2 hmatch), List.map_cons, List.sum_cons, ih]
        rfl
      · rename_i hmatch
        rw [if_neg fun h => hmatch (hp.1 h), ih, zero_add]
        rfl

theorem coeff_ofCoordinates {positions : List Position} {values : Vec ℝ}
    (h : ofCoordinates m n positions values = .ok A) (hi : i < m) (hj : j < n) :
    A.coeff i j = placed positions values i j := by
  unfold ofCoordinates at h
  split at h
  · cases h
    rw [← sum_filter_eq_placed, ← gather_getD, coeff]
    simp only [toRows, List.map_map, Function.comp_def]
    exact tableEntry_tabulate hi hj
  · cases h

theorem placed_append {first second : List Position} {values others : Vec ℝ}
    (h : first.length = values.length) :
    placed (first ++ second) (values ++ others) i j =
      placed first values i j + placed second others i j := by
  rw [placed, List.zipWith_append h, List.sum_append, placed, placed]

theorem placed_eq_zero {positions : List Position} (values : Vec ℝ)
    (h : ∀ p ∈ positions, p ≠ ((i : Int), (j : Int))) : placed positions values i j = 0 := by
  induction positions generalizing values with
  | nil => rfl
  | cons p positions ih =>
    cases values with
    | nil => rfl
    | cons a values =>
      rw [placed, List.zipWith_cons_cons, List.sum_cons, if_neg (h p List.mem_cons_self), zero_add]
      exact ih values fun q hq => h q (List.mem_cons_of_mem p hq)

theorem placed_diagonal (n shift : Nat) (a : ℝ) :
    placed ((List.range n).map fun k => Position.diagonal (shift + k)) (List.replicate n a) i j =
      if i = j ∧ shift ≤ i ∧ i < shift + n then a else 0 := by
  induction n with
  | zero =>
    rw [if_neg (by omega)]
    rfl
  | succ n ih =>
    have hlast : placed ([n].map fun k => Position.diagonal (shift + k)) [a] i j =
        if i = j ∧ i = shift + n then a else 0 := by
      simp only [placed, Position.diagonal, List.map_cons, List.map_nil, List.zipWith_cons_cons,
        List.zipWith_nil_left, List.sum_cons, List.sum_nil, add_zero, Prod.ext_iff]
      exact if_congr (by omega) rfl rfl
    rw [List.range_succ, List.map_append, List.replicate_succ', placed_append (by simp), ih, hlast]
    by_cases hold : i = j ∧ shift ≤ i ∧ i < shift + n
    · rw [if_pos hold, if_neg (by omega), if_pos (by omega), add_zero]
    · rw [if_neg hold, zero_add]
      exact if_congr (by omega) rfl rfl

theorem placed_below {positions : List Position} {values : Vec ℝ} (shift : Nat) :
    placed (positions.map (Position.below shift)) values (shift + i) j =
      placed positions values i j := by
  rw [placed, List.zipWith_map_left, placed]
  congr 2
  funext p a
  exact if_congr (by simp only [Position.below, Prod.ext_iff]; omega) rfl rfl

end SparseMatrix

end InfeasibilityControl
