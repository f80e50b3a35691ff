import Mathlib
import InfeasibilityControl.Proofs.Exact.Matrix
import InfeasibilityControl.Proofs.Kkt.Operations

set_option autoImplicit false
set_option relaxedAutoImplicit false

/-!
The matrix of a KKT system in exact arithmetic.

Its lower triangle is put together from four blocks of coordinates. Mirrored, it is the block matrix
of the Hessian and the Jacobian, and it acts on a vector as the products with the symmetric Hessian
and with the Jacobian of the problem do.
-/

namespace InfeasibilityControl

open Finset (range sum_congr sum_range_add)
open SparseMatrix (placed placed_append placed_below placed_diagonal placed_eq_zero)

/-- The pattern of the Hessian lists positions of its lower triangle only. -/
structure Problem.IsTriangular {K : Type} (p : Problem K) (m : Nat) : Prop
    extends p.IsPatterned m where
  lower : ∀ q ∈ p.hessianPattern, q.2 ≤ q.1

/-- An entry of the symmetric matrix with the given lower triangle; values at one place add up. -/
noncomputable def mirrored (positions : List Position) (values : Vec ℝ) (i j : Nat) : ℝ :=
  placed positions values (max i j) (min i j)

/-- The product of the symmetric matrix with the given lower triangle with a vector. -/
noncomputable def mirroredProduct (n : Nat) (positions : List Position) (values d : Vec ℝ) :
    Vec ℝ :=
  (List.range n).map fun i => ∑ j ∈ range n, mirrored positions values i j * d.coord j

namespace KktSystem

variable {p : Problem ℝ} {m i j : Nat} {hessian jacobian : Vec ℝ} {gamma delta : ℝ}

/-- An entry of the lower triangle that a system keeps, block by block. -/
noncomputable def triangle (p : Problem ℝ) (m : Nat) (hessian jacobian : Vec ℝ)
    (gamma delta : ℝ) (i j : Nat) : ℝ :=
  placed p.hessianPattern hessian i j +
    placed (p.jacobianPattern.map (Position.below p.variableCount)) jacobian i j +
    (if i = j ∧ i < p.variableCount then gamma else 0) +
    if i = j ∧ p.variableCount ≤ i ∧ i < p.variableCount + m then -delta else 0

theorem placed_positions (hhessian : hessian.length = p.hessianPattern.length)
    (hjacobian : jacobian.length = p.jacobianPattern.length) :
    placed (holding p m hessian jacobian gamma delta).positions
      (holding p m hessian jacobian gamma delta).values i j =
      triangle p m hessian jacobian gamma delta i j := by
  have hprimal : placed ((List.range p.variableCount).map Position.diagonal)
      (List.replicate p.variableCount gamma) i j =
      if i = j ∧ i < p.variableCount then gamma else 0 := by
    have h := placed_diagonal (i := i) (j := j) p.variableCount 0 gamma
    simp only [Nat.zero_add, Nat.zero_le, true_and] at h
    exact h
  simp only [positions, values, holding]
  rw [placed_append (by simp [hhessian, hjacobian]), placed_append (by simp [hhessian, hjacobian]),
    placed_append hhessian.symm, placed_diagonal, hprimal, triangle]

theorem placed_hessian_outside (hp : p.IsTriangular m)
    (h : p.variableCount ≤ i ∨ p.variableCount ≤ j) : placed p.hessianPattern hessian i j = 0 := by
  refine placed_eq_zero _ fun q hq => ?_
  have hinside := Position.isInside_iff.1 (hp.hessian q hq)
  simp only [ne_eq, Prod.ext_iff]
  omega

theorem placed_below_outside (hp : p.IsTriangular m)
    (h : i < p.variableCount ∨ p.variableCount ≤ j) :
    placed (p.jacobianPattern.map (Position.below p.variableCount)) jacobian i j = 0 := by
  refine placed_eq_zero _ fun q hq => ?_
  obtain ⟨below, hbelow, rfl⟩ := List.mem_map.1 hq
  have hinside := Position.isInside_iff.1 (hp.jacobian below hbelow)
  simp only [Position.below, ne_eq, Prod.ext_iff]
  omega

theorem triangle_hessian (hp : p.IsTriangular m) (hi : i < p.variableCount) :
    triangle p m hessian jacobian gamma delta i j =
      placed p.hessianPattern hessian i j + if i = j then gamma else 0 := by
  rw [triangle, placed_below_outside hp (.inl hi),
    if_neg (by omega : ¬ (i = j ∧ p.variableCount ≤ i ∧ _)), add_zero, add_zero]
  congr 1
  exact if_congr (by omega) rfl rfl

theorem triangle_above (hp : p.IsTriangular m) (hi : i < p.variableCount) :
    triangle p m hessian jacobian gamma delta i (p.variableCount + j) = 0 := by
  rw [triangle_hessian hp hi, placed_hessian_outside hp (.inr (Nat.le_add_right _ _)),
    if_neg (by omega), add_zero]

theorem triangle_jacobian (hp : p.IsTriangular m) (hj : j < p.variableCount) :
    triangle p m hessian jacobian gamma delta (p.variableCount + i) j =
      placed p.jacobianPattern jacobian i j := by
  rw [triangle, placed_hessian_outside hp (.inl (Nat.le_add_right _ _)), placed_below,
    if_neg (by omega), if_neg (by omega), zero_add, add_zero, add_zero]

theorem triangle_dual (hp : p.IsTriangular m) (hi : i < m) :
    triangle p m hessian jacobian gamma delta (p.variableCount + i) (p.variableCount + j) =
      if i = j then -delta else 0 := by
  rw [triangle, placed_hessian_outside hp (.inl (Nat.le_add_right _ _)),
    placed_below_outside hp (.inr (Nat.le_add_right _ _)), if_neg (by omega), zero_add, zero_add,
    zero_add]
  exact if_congr (by omega) rfl rfl

/-- An entry of the whole matrix: the triangle and its mirror image, less the diagonal that both
have. -/
noncomputable def whole (p : Problem ℝ) (m : Nat) (hessian jacobian : Vec ℝ) (gamma delta : ℝ)
    (i j : Nat) : ℝ :=
  triangle p m hessian jacobian gamma delta i j + triangle p m hessian jacobian gamma delta j i -
    if i = j then triangle p m hessian jacobian gamma delta i i else 0

theorem whole_comm :
    whole p m hessian jacobian gamma delta i j = whole p m hessian jacobian gamma delta j i := by
  by_cases h : i = j
  · rw [h]
  · rw [whole, whole, if_neg h, if_neg (Ne.symm h), add_comm]

theorem whole_hessian (hp : p.IsTriangular m) (hi : i < p.variableCount)
    (hj : j < p.variableCount) : whole p m hessian jacobian gamma delta i j =
      mirrored p.hessianPattern hessian i j + if i = j then gamma else 0 := by
  -- Of two mirrored places off the diagonal the upper one is empty.
  have hupper : ∀ {i j : Nat}, i < j → placed p.hessianPattern hessian i j = 0 := by
    intro i j hij
    refine placed_eq_zero _ fun q hq => ?_
    have hlower := hp.lower q hq
    simp only [ne_eq, Prod.ext_iff]
    omega
  rw [whole, triangle_hessian hp hi, triangle_hessian hp hj, triangle_hessian hp hi, mirrored]
  obtain hij | rfl | hij := lt_trichotomy i j
  · rw [hupper hij, max_eq_right hij.le, min_eq_left hij.le]
    simp [hij.ne, hij.ne']
  · simp
  · rw [hupper hij, max_eq_left hij.le, min_eq_right hij.le]
    simp [hij.ne, hij.ne']

theorem whole_jacobian (hp : p.IsTriangular m) (hj : j < p.variableCount) :
    whole p m hessian jacobian gamma delta (p.variableCount + i) j =
      placed p.jacobianPattern jacobian i j := by
  rw [whole, triangle_jacobian hp hj, triangle_above hp hj, if_neg (by omega), add_zero, sub_zero]

theorem whole_dual (hp : p.IsTriangular m) (hi : i < m) (hj : j < m) :
    whole p m hessian jacobian gamma delta (p.variableCount + i) (p.variableCount + j) =
      if i = j then -delta else 0 := by
  rw [whole, triangle_dual hp hi, triangle_dual hp hj, triangle_dual hp hi]
  by_cases h : i = j
  · simp [h]
  · simp [h, Ne.symm h]

/-- The whole matrix as a table. -/
noncomputable def wholeTable (p : Problem ℝ) (m : Nat) (hessian jacobian : Vec ℝ)
    (gamma delta : ℝ) : List (Vec ℝ) :=
  (List.range (p.variableCount + m)).map fun i => (List.range (p.variableCount + m)).map fun j =>
    whole p m hessian jacobian gamma delta i j

theorem matrix_holding (hp : p.IsTriangular m) (hhessian : hessian.length = p.hessianPattern.length)
    (hjacobian : jacobian.length = p.jacobianPattern.length) :
    (holding p m hessian jacobian gamma delta).matrix =
      .ok (wholeTable p m hessian jacobian gamma delta) := by
  have hfits : (holding p m hessian jacobian gamma delta).Fits p m :=
    holding_fits hhessian hjacobian
  obtain ⟨A, hA⟩ := SparseMatrix.ofCoordinates_eq_ok hfits.values_length.symm
    (hfits.isInside hp.toIsPatterned)
  have hentry : ∀ {i j : Nat}, i < p.variableCount + m → j < p.variableCount + m →
      entry A.toRows i j = triangle p m hessian jacobian gamma delta i j := by
    intro i j hi hj
    rw [← placed_positions hhessian hjacobian, ← SparseMatrix.coeff_ofCoordinates hA hi hj]
    rfl
  rw [matrix, lower, hA]
  change Except.ok _ = Except.ok _
  rw [symmetrize, hfits.dimension]
  congr 1
  refine List.map_congr_left fun i hi => List.map_congr_left fun j hj => ?_
  have hi := List.mem_range.1 hi
  have hj := List.mem_range.1 hj
  rw [hentry hi hj, hentry hj hi, hentry hi hi]
  rfl

theorem length_wholeTable :
    (wholeTable p m hessian jacobian gamma delta).length = p.variableCount + m := by
  simp [wholeTable]

theorem length_of_mem_wholeTable :
    ∀ row ∈ wholeTable p m hessian jacobian gamma delta, row.length = p.variableCount + m := by
  simp [wholeTable]

theorem tableEntry_wholeTable_comm :
    tableEntry (wholeTable p m hessian jacobian gamma delta) i j =
      tableEntry (wholeTable p m hessian jacobian gamma delta) j i := by
  have houtside : ∀ {i j : Nat}, ¬ i < p.variableCount + m →
      tableEntry (wholeTable p m hessian jacobian gamma delta) i j =
        tableEntry (wholeTable p m hessian jacobian gamma delta) j i := by
    intro i j hi
    rw [tableEntry_of_length_le (by rw [length_wholeTable]; omega), tableEntry_of_columns_le
      fun row hrow => by rw [length_of_mem_wholeTable row hrow]; omega]
  by_cases hi : i < p.variableCount + m
  · by_cases hj : j < p.variableCount + m
    · rw [wholeTable, tableEntry_tabulate hi hj, tableEntry_tabulate hj hi, whole_comm]
    · exact (houtside hj).symm
  · exact houtside hi

variable {J : SparseMatrix ℝ} {d w : Vec ℝ}

theorem coord_product_wholeTable (hd : d.length = p.variableCount)
    (hi : i < p.variableCount + m) :
    (tableProduct (wholeTable p m hessian jacobian gamma delta) (d ++ w)).coord i =
      ∑ j ∈ range p.variableCount, whole p m hessian jacobian gamma delta i j * d.coord j +
        ∑ j ∈ range m, whole p m hessian jacobian gamma delta i (p.variableCount + j) *
          w.coord j := by
  rw [coord_tableProduct fun row hrow => (length_of_mem_wholeTable row hrow).le, sum_range_add]
  congr 1
  · refine sum_congr rfl fun j hj => ?_
    have hj := Finset.mem_range.1 hj
    rw [wholeTable, tableEntry_tabulate hi (by omega), Vec.coord_append_left (by omega)]
  · refine sum_congr rfl fun j hj => ?_
    have hj := Finset.mem_range.1 hj
    rw [wholeTable, tableEntry_tabulate hi (by omega), Vec.coord_append_right hd]

theorem coord_product_upper (hp : p.IsTriangular m)
    (hJ : SparseMatrix.ofCoordinates m p.variableCount p.jacobianPattern jacobian = .ok J)
    (hd : d.length = p.variableCount) (hi : i < p.variableCount) :
    (tableProduct (wholeTable p m hessian jacobian gamma delta) (d ++ w)).coord i =
      (mirroredProduct p.variableCount p.hessianPattern hessian d).coord i + gamma * d.coord i +
        (J.applyTransposed w).coord i := by
  have hentry : ∀ j ∈ range p.variableCount,
      whole p m hessian jacobian gamma delta i j * d.coord j =
        mirrored p.hessianPattern hessian i j * d.coord j +
          if i = j then gamma * d.coord i else 0 := by
    intro j hj
    rw [whole_hessian hp hi (Finset.mem_range.1 hj), add_mul]
    split
    · rename_i hij
      rw [hij]
    · rw [zero_mul]
  rw [coord_product_wholeTable hd (by omega), sum_congr rfl hentry, Finset.sum_add_distrib,
    Finset.sum_ite_eq, if_pos (Finset.mem_range.2 hi), mirroredProduct, Vec.coord_tabulate hi,
    (SparseMatrix.ofCoordinates_hasShape hJ).coord_applyTransposed]
  congr 1
  refine sum_congr rfl fun k hk => ?_
  rw [whole_comm, whole_jacobian hp hi,
    SparseMatrix.coeff_ofCoordinates hJ (Finset.mem_range.1 hk) hi]

theorem coord_product_lower (hp : p.IsTriangular m)
    (hJ : SparseMatrix.ofCoordinates m p.variableCount p.jacobianPattern jacobian = .ok J)
    (hd : d.length = p.variableCount) (hi : i < m) :
    (tableProduct (wholeTable p m hessian jacobian gamma delta) (d ++ w)).coord
        (p.variableCount + i) = (J.apply d).coord i - delta * w.coord i := by
  have hentry : ∀ j ∈ range m,
      whole p m hessian jacobian gamma delta (p.variableCount + i) (p.variableCount + j) *
        w.coord j = if i = j then -(delta * w.coord i) else 0 := by
    intro j hj
    rw [whole_dual hp hi (Finset.mem_range.1 hj)]
    split
    · rename_i hij
      rw [hij, neg_mul]
    · rw [zero_mul]
  rw [coord_product_wholeTable hd (by omega), sum_congr rfl hentry, Finset.sum_ite_eq,
    if_pos (Finset.mem_range.2 hi), (SparseMatrix.ofCoordinates_hasShape hJ).coord_apply,
    ← sub_eq_add_neg]
  congr 1
  refine sum_congr rfl fun k hk => ?_
  have hk := Finset.mem_range.1 hk
  rw [whole_jacobian hp hk, SparseMatrix.coeff_ofCoordinates hJ hi hk]

theorem product_wholeTable (hp : p.IsTriangular m)
    (hJ : SparseMatrix.ofCoordinates m p.variableCount p.jacobianPattern jacobian = .ok J)
    (hd : d.length = p.variableCount) (hw : w.length = m) :
    tableProduct (wholeTable p m hessian jacobian gamma delta) (d ++ w) =
      Vec.plus (Vec.plus (mirroredProduct p.variableCount p.hessianPattern hessian d)
        (Vec.scale gamma d)) (J.applyTransposed w) ++
      Vec.minus (J.apply d) (Vec.scale delta w) := by
  have hshape := SparseMatrix.ofCoordinates_hasShape hJ
  have hJw := hshape.length_applyTransposed w
  have hJd := hshape.length_apply d
  have hH : (mirroredProduct p.variableCount p.hessianPattern hessian d).length =
      p.variableCount := by simp [mirroredProduct]
  have hupper : (Vec.plus (Vec.plus (mirroredProduct p.variableCount p.hessianPattern hessian d)
      (Vec.scale gamma d)) (J.applyTransposed w)).length = p.variableCount := by
    simp [hH, hd, hJw]
  refine Vec.ext_coord (by simp [length_wholeTable, hH, hd, hw, hJw, hJd]) fun i hi => ?_
  have hi : i < p.variableCount + m := by simpa [length_wholeTable] using hi
  by_cases hrow : i < p.variableCount
  · rw [coord_product_upper hp hJ hd hrow, Vec.coord_append_left (by omega),
      Vec.coord_plus (by simp [hH, hd, hJw]), Vec.coord_plus (by simp [hH, hd]), Vec.coord_scale]
  · obtain ⟨k, rfl⟩ := Nat.exists_eq_add_of_le (Nat.not_lt.1 hrow)
    rw [coord_product_lower hp hJ hd (by omega), Vec.coord_append_right hupper,
      Vec.coord_minus (by simp [hJd, hw]), Vec.coord_scale]

/-- A table that is the KKT matrix of a problem with these second derivatives and this Jacobian: it
is symmetric, and it acts as the Hessian, the counted products with the Jacobian and the
regularization do. -/
structure IsMatrixOf (p : Problem ℝ) (m : Nat) (hessian : Vec ℝ) (J : SparseMatrix ℝ)
    (gamma delta : ℝ) (M : List (Vec ℝ)) : Prop where
  rows : M.length = p.variableCount + m
  columns : ∀ row ∈ M, row.length = p.variableCount + m
  symmetric : ∀ i j, tableEntry M i j = tableEntry M j i
  acts : ∀ d w : Vec ℝ, d.length = p.variableCount → w.length = m →
    ∃ Jd Jw, Counted.Always (J.product d) Jd ∧ Counted.Always (J.transposedProduct w) Jw ∧
      tableProduct M (d ++ w) =
        Vec.plus (Vec.plus (mirroredProduct p.variableCount p.hessianPattern hessian d)
          (Vec.scale gamma d)) Jw ++ Vec.minus Jd (Vec.scale delta w)

theorem isMatrixOf_wholeTable (hp : p.IsTriangular m)
    (hJ : SparseMatrix.ofCoordinates m p.variableCount p.jacobianPattern jacobian = .ok J) :
    IsMatrixOf p m hessian J gamma delta (wholeTable p m hessian jacobian gamma delta) := by
  have hshape := SparseMatrix.ofCoordinates_hasShape hJ
  refine ⟨length_wholeTable, length_of_mem_wholeTable, fun i j => tableEntry_wholeTable_comm,
    fun d w hd hw => ⟨J.apply d, J.applyTransposed w, fun l => ?_, fun l => ?_,
      product_wholeTable hp hJ hd hw⟩⟩
  · simp only [SparseMatrix.product, hshape.columnCount, hd, if_true, Counted.count,
      Counted.returns_bind, Counted.returns_modify, Counted.returns_pure]
    exact ⟨_, (), _, rfl, trivial, rfl⟩
  · simp only [SparseMatrix.transposedProduct, hshape.rowCount, hw, if_true, Counted.count,
      Counted.returns_bind, Counted.returns_modify, Counted.returns_pure]
    exact ⟨_, (), _, rfl, trivial, rfl⟩

/-- A problem has a system, and whatever is asked of it, its pattern is the one that it was made
with. After a refresh that succeeds with values that match the pattern, and with no refresh since,
its matrix is the KKT matrix of that refresh, whatever was before. -/
theorem matrix_of_operations (hp : p.IsTriangular m) :
    ∃ first : KktSystem ℝ, ofProblem p = .ok first ∧
      (∀ operations l, ((first.performAll p operations).run l).run.1.positions = first.positions ∧
        ((first.performAll p operations).run l).run.1.values.length = first.values.length) ∧
      ∀ (x y hessian jacobian : Vec ℝ) (gamma delta : ℝ),
        p.hessianValues x y 1 = .ok hessian → hessian.length = p.hessianPattern.length →
        p.jacobianValues x = .ok jacobian → jacobian.length = p.jacobianPattern.length →
        ∃ J M, Counted.Always (p.jacobianAt x) J ∧ IsMatrixOf p m hessian J gamma delta M ∧
          ∀ before after : List (KktOperation ℝ),
            (∀ operation ∈ after, operation.isRefresh = false) →
            ∀ l, ((first.performAll p (before ++ .refresh x y gamma delta :: after)).run
              l).run.1.matrix = .ok M := by
  obtain ⟨first, hfirst⟩ := exists_ofProblem hp.rowCount
  have hfits := fits_of_ofProblem hp.rowCount hfirst
  refine ⟨first, hfirst, fun operations l => ?_, ?_⟩
  · have hlast := hfits.performAll operations l
    rw [hlast.values_length, hfits.values_length, hlast.positions, hfits.positions]
    exact ⟨rfl, rfl⟩
  · intro x y hessian jacobian gamma delta hhessian hhessianLength hjacobian hjacobianLength
    obtain ⟨J, hJ⟩ := SparseMatrix.ofCoordinates_eq_ok hjacobianLength.symm hp.jacobian
    refine ⟨J, wholeTable p m hessian jacobian gamma delta,
      Problem.jacobianAt_always ((hp.jacobian_eq hjacobian).trans hJ),
      isMatrixOf_wholeTable hp hJ, fun before after hafter l => ?_⟩
    rw [performAll_of_lastRefresh hfits hhessian hhessianLength hjacobian hjacobianLength before
      after hafter l]
    exact matrix_holding hp hhessianLength hjacobianLength

/-- A problem in two variables whose derivatives are reported with repeated positions, on the
diagonal and off it. -/
noncomputable def repeatedPositions : Problem ℝ where
  name := "repeated"
  start := [0, 0]
  constraintCount := 1
  inequalityCount := 0
  bounded := false
  evaluationTime := 0
  objective := fun _ => .ok 0
  gradient := fun _ => .ok [0, 0]
  constraints := fun _ => .ok [0]
  jacobianPattern := [(0, 1), (0, 0), (0, 1)]
  jacobianValues := fun _ => .ok [1, 2, 3]
  hessianPattern := [(1, 0), (0, 0), (1, 0), (0, 0)]
  hessianValues := fun _ _ _ => .ok [1, 2, 3, 4]

theorem isTriangular_repeatedPositions : repeatedPositions.IsTriangular 1 where
  rowCount := rfl
  jacobian := by decide
  hessian := by decide
  lower := by decide

/-- Refreshed twice, with other operations before, between and after, the system has the matrix of
its last refresh. -/
theorem repeatedPositions_matrix :
    ∃ first J M, ofProblem repeatedPositions = .ok first ∧
      IsMatrixOf repeatedPositions 1 [1, 2, 3, 4] J 5 6 M ∧
      ∀ l, ((first.performAll repeatedPositions [.matrix, .refresh [] [] 7 8, .buildPattern,
        .refresh [0, 0] [0] 5 6, .solve [1, 1, 1], .buildPattern, .matrix]).run l).run.1.matrix =
          .ok M := by
  obtain ⟨first, hfirst, -, hmatrix⟩ := matrix_of_operations isTriangular_repeatedPositions
  obtain ⟨J, M, -, hM, hlast⟩ := hmatrix [0, 0] [0] [1, 2, 3, 4] [1, 2, 3] 5 6 rfl rfl rfl rfl
  exact ⟨first, J, M, hfirst, hM, hlast [.matrix, .refresh [] [] 7 8, .buildPattern]
    [.solve [1, 1, 1], .buildPattern, .matrix] (by simp [KktOperation.isRefresh])⟩

end KktSystem

end InfeasibilityControl
