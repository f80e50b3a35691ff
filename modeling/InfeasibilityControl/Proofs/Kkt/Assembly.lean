import Mathlib
import InfeasibilityControl.Proofs.DensePattern
import InfeasibilityControl.Proofs.Exact.Elimination
import InfeasibilityControl.Proofs.Kkt.Matrix

set_option autoImplicit false
set_option relaxedAutoImplicit false

/-!
The KKT matrix of a model that gives its derivatives as matrices, in exact arithmetic.

It is the block matrix of these very matrices: the values that a refresh takes over reach the places
that they were read from, on both sides of the diagonal.
-/

namespace InfeasibilityControl

open KktSystem (entry wholeTable)
open SparseMatrix (placed coeff_ofCoordinates)

/-- The matrix of a table of rows. -/
def tableBlock (m n : Nat) (rows : List (Vec ℝ)) : Matrix (Fin m) (Fin n) ℝ :=
  Matrix.of fun i j => tableEntry rows i j

/-- The block matrix of a regularized Hessian and a Jacobian. -/
noncomputable def kktBlocks {m n : Nat} (H : Matrix (Fin n) (Fin n) ℝ)
    (J : Matrix (Fin m) (Fin n) ℝ) (gamma delta : ℝ) : Matrix (Fin (n + m)) (Fin (n + m)) ℝ :=
  Matrix.reindex finSumFinEquiv finSumFinEquiv
    (Matrix.fromBlocks (H + gamma • 1) J.transpose J (-(delta • 1)))

theorem tableEntry_eq_entry (rows : List (Vec ℝ)) (i j : Nat) :
    tableEntry rows i j = entry rows i j := by
  simp [tableEntry, entry, Vec.coord, List.getD_eq_getElem?_getD]

/-- The whole table is the block matrix of the tables whose entries the coordinates give. -/
theorem KktSystem.tableMatrix_wholeTable {p : Problem ℝ} {m : Nat} (hp : p.IsTriangular m)
    {hessian jacobian : Vec ℝ} {H J : List (Vec ℝ)}
    (hhessian : ∀ {i j}, i < p.variableCount → j < p.variableCount →
      mirrored p.hessianPattern hessian i j = tableEntry H i j)
    (hjacobian : ∀ {i j}, i < m → j < p.variableCount →
      placed p.jacobianPattern jacobian i j = tableEntry J i j) (gamma delta : ℝ) :
    tableMatrix (p.variableCount + m) (wholeTable p m hessian jacobian gamma delta) =
      kktBlocks (tableMatrix p.variableCount H) (tableBlock m p.variableCount J) gamma delta := by
  ext i j
  refine (tableEntry_tabulate i.isLt j.isLt).trans ?_
  obtain ⟨i, rfl⟩ := finSumFinEquiv.surjective i
  obtain ⟨j, rfl⟩ := finSumFinEquiv.surjective j
  rw [kktBlocks, Matrix.reindex_apply, Matrix.submatrix_apply, Equiv.symm_apply_apply,
    Equiv.symm_apply_apply]
  rcases i with i | i <;> rcases j with j | j
  · rw [Matrix.fromBlocks_apply₁₁, finSumFinEquiv_apply_left, finSumFinEquiv_apply_left,
      Fin.val_castAdd, Fin.val_castAdd, whole_hessian hp i.isLt j.isLt, hhessian i.isLt j.isLt]
    simp [tableMatrix, Matrix.one_apply, Fin.ext_iff]
  · rw [Matrix.fromBlocks_apply₁₂, finSumFinEquiv_apply_left, finSumFinEquiv_apply_right,
      Fin.val_castAdd, Fin.val_natAdd, whole_comm, whole_jacobian hp i.isLt,
      hjacobian j.isLt i.isLt]
    rfl
  · rw [Matrix.fromBlocks_apply₂₁, finSumFinEquiv_apply_right, finSumFinEquiv_apply_left,
      Fin.val_castAdd, Fin.val_natAdd, whole_jacobian hp j.isLt, hjacobian i.isLt j.isLt]
    rfl
  · rw [Matrix.fromBlocks_apply₂₂, finSumFinEquiv_apply_right, finSumFinEquiv_apply_right,
      Fin.val_natAdd, Fin.val_natAdd, whole_dual hp i.isLt j.isLt]
    by_cases hij : i = j
    · simp [hij]
    · simp [hij, Fin.val_ne_of_ne hij]

namespace DenseModel

variable {d : DenseModel ℝ} {p : Problem ℝ} {m : Nat} {x y : Vec ℝ} {G : GivenMatrix ℝ}
  {H : List (Vec ℝ)} {gamma delta : ℝ}

theorem Describes.isTriangular (h : d.Describes m p) : p.IsTriangular m where
  rowCount := h.rowCount
  jacobian q hq := by
    rw [h.variableCount]
    exact h.mem_jacobianPattern.1 hq
  hessian q hq := by
    rw [h.variableCount]
    exact (h.mem_hessianPattern.1 hq).1
  lower q hq := (h.mem_hessianPattern.1 hq).2

theorem Describes.mirrored_eq (h : d.Describes m p)
    (htable : IsTable d.start.length d.start.length H) (hsymmetric : IsSymmetric H) {i j : Nat}
    (hi : i < d.start.length) (hj : j < d.start.length) :
    mirrored p.hessianPattern (p.hessianPattern.map fun q => entry H q.1.toNat q.2.toNat) i j =
      tableEntry H i j := by
  obtain ⟨L, hL, hmirror⟩ := h.exists_triangle htable hsymmetric
  have hentry : entry (mirror d.start.length L.toRows) i j = entry L.toRows (max i j) (min i j) :=
    entry_tabulate hi hj
  rw [mirrored, ← coeff_ofCoordinates hL (max_lt hi hj) ((min_le_left i j).trans_lt hi),
    SparseMatrix.coeff, tableEntry_eq_entry, tableEntry_eq_entry, ← hentry, hmirror]

theorem Describes.placed_eq (h : d.Describes m p) (hG : d.jacobian x = .ok G)
    (hshape : G.HasShape m d.start.length) {i j : Nat} (hi : i < m) (hj : j < d.start.length) :
    placed p.jacobianPattern (p.jacobianPattern.map fun q =>
      entry G.toRows q.1.toNat q.2.toNat) i j = tableEntry G.toRows i j := by
  obtain ⟨J, -, hJ, hrows⟩ := h.exists_jacobian hG hshape
  rw [← coeff_ofCoordinates hJ hi hj, SparseMatrix.coeff, hrows]

theorem Describes.tableMatrix_wholeTable (h : d.Describes m p) (hG : d.jacobian x = .ok G)
    (hshape : G.HasShape m d.start.length) (htable : IsTable d.start.length d.start.length H)
    (hsymmetric : IsSymmetric H) (gamma delta : ℝ) :
    tableMatrix (d.start.length + m) (wholeTable p m
      (p.hessianPattern.map fun q => entry H q.1.toNat q.2.toNat)
      (p.jacobianPattern.map fun q => entry G.toRows q.1.toNat q.2.toNat) gamma delta) =
      kktBlocks (tableMatrix d.start.length H) (tableBlock m d.start.length G.toRows) gamma
        delta := by
  have hn := h.variableCount
  rw [← hn]
  refine KktSystem.tableMatrix_wholeTable h.isTriangular (fun hi hj => ?_) (fun hi hj => ?_) _ _
  · rw [hn] at hi hj
    exact h.mirrored_eq htable hsymmetric hi hj
  · rw [hn] at hj
    exact h.placed_eq hG hshape hi hj

/-- What a model gives as matrices can be read back from the coordinates that its problem reports,
and a KKT system that is refreshed with them has the block matrix of these matrices. -/
theorem problem_presents :
    (∀ (K : Type) [Scalar K] (d : DenseModel K) (m : Nat), d.countConstraints = .ok (m : Int) →
      (boundFits d.start.length d.lower? && boundFits d.start.length d.upper?) = true →
      ∃ p, d.problem = .ok p ∧ d.Presents m p) ∧
    ∀ (d : DenseModel ℝ) (m : Nat), d.countConstraints = .ok (m : Int) →
      (boundFits d.start.length d.lower? && boundFits d.start.length d.upper?) = true →
      ∃ p first, d.problem = .ok p ∧ KktSystem.ofProblem p = .ok first ∧
        ∀ (x y : Vec ℝ) (gamma delta : ℝ) (G : GivenMatrix ℝ) (H : List (Vec ℝ)),
          d.jacobian x = .ok G → G.HasShape m d.start.length →
          d.hessian x y 1 = .ok H → IsTable d.start.length d.start.length H → IsSymmetric H →
          ∃ M, IsTable (d.start.length + m) (d.start.length + m) M ∧
            tableMatrix (d.start.length + m) M =
              kktBlocks (tableMatrix d.start.length H) (tableBlock m d.start.length G.toRows)
                gamma delta ∧
            ∀ before l l₁ kkt, ((first.performAll p before).run l).run = (kkt, l₁) →
              ∃ kkt' l₂, ((kkt.refresh p x y gamma delta).run l₁).run = ((kkt', .ok ()), l₂) ∧
                kkt'.matrix = .ok M := by
  refine ⟨fun K _ d m hcount hbounds => ?_, fun d m hcount hbounds => ?_⟩
  · obtain ⟨p, hp, h⟩ := exists_problem hcount hbounds
    exact ⟨p, hp, h.presents⟩
  · obtain ⟨p, hp, h⟩ := exists_problem hcount hbounds
    obtain ⟨first, hfirst⟩ := KktSystem.exists_ofProblem h.rowCount
    refine ⟨p, first, hp, hfirst, fun x y gamma delta G H hG hshape hH htable hsymmetric => ?_⟩
    refine ⟨_, ?_, h.tableMatrix_wholeTable hG hshape htable hsymmetric gamma delta, ?_⟩
    · rw [← h.variableCount]
      exact isTable_tabulate _
    · intro before l l₁ kkt hbefore
      have hfits := (KktSystem.fits_of_ofProblem h.rowCount hfirst).performAll before l
      rw [hbefore] at hfits
      have hloaded : kkt.loaded p x y gamma delta = .ok _ :=
        hfits.loaded (h.hessianValues_eq hH htable) (List.length_map _)
          (h.jacobianValues_eq hG hshape) (List.length_map _)
      obtain ⟨l₂, hrefresh⟩ := KktSystem.refresh_of_loaded hloaded l₁
      exact ⟨_, l₂, hrefresh, KktSystem.matrix_holding h.isTriangular (List.length_map _)
        (List.length_map _)⟩

/-- A model in two variables with a dense Hessian and a sparse Jacobian of one row. -/
noncomputable def sparseRow : DenseModel ℝ where
  name := "sparse row"
  start := [0, 0]
  constraintCount? := some 1
  lower? := none
  upper? := none
  inequalityCount := 0
  evaluationTime := 0
  objective := fun _ => .ok 0
  gradient := fun _ => .ok [0, 0]
  constraints := fun _ => .ok [0]
  jacobian := fun _ => .ok (.sparse ⟨1, 2, [[none, some 1]]⟩)
  hessian := fun _ _ _ => .ok [[1, -1], [-1, 0]]

/-- Its KKT system, refreshed with `5` and `6` for regularization, has the matrix of these
blocks. -/
theorem sparseRow_presents :
    sparseRow.countConstraints = .ok 1 ∧ IsTable 2 2 ([[1, -1], [-1, 0]] : List (Vec ℝ)) ∧
    IsSymmetric ([[1, -1], [-1, 0]] : List (Vec ℝ)) ∧
    ∃ p first M, sparseRow.problem = .ok p ∧ sparseRow.Presents 1 p ∧
      KktSystem.ofProblem p = .ok first ∧
      tableMatrix 3 M =
        kktBlocks (tableMatrix 2 [[1, -1], [-1, 0]]) (tableBlock 1 2 [[0, 1]]) 5 6 ∧
      ∀ l, ∃ kkt l₁, ((first.refresh p [0, 0] [0] 5 6).run l).run = ((kkt, .ok ()), l₁) ∧
        kkt.matrix = .ok M := by
  have hcount : sparseRow.countConstraints = .ok ((1 : Nat) : Int) := rfl
  have hshape : GivenMatrix.HasShape 1 2 (.sparse ⟨1, 2, [[none, some (1 : ℝ)]]⟩) :=
    ⟨rfl, rfl, rfl, by simp⟩
  have htable : IsTable 2 2 ([[1, -1], [-1, 0]] : List (Vec ℝ)) := ⟨rfl, by simp⟩
  have hsymmetric : IsSymmetric ([[1, -1], [-1, 0]] : List (Vec ℝ)) := by
    rintro (_ | _ | i) (_ | _ | j) <;> simp [entry]
  obtain ⟨hgeneric, hreal⟩ := problem_presents
  obtain ⟨p, hp, hpresents⟩ := hgeneric ℝ sparseRow 1 hcount rfl
  obtain ⟨p', first, hp', hfirst, hmatrix⟩ := hreal sparseRow 1 hcount rfl
  rw [hp] at hp'
  cases hp'
  obtain ⟨M, -, hM, hrefresh⟩ := hmatrix [0, 0] [0] 5 6 _ _ rfl hshape rfl htable hsymmetric
  exact ⟨hcount, htable, hsymmetric, p, first, M, hp, hpresents, hfirst, hM,
    fun l => hrefresh [] l l first rfl⟩

end DenseModel

end InfeasibilityControl
