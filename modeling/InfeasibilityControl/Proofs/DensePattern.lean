import Mathlib
import InfeasibilityControl.Model.Dense
import InfeasibilityControl.Proofs.Evaluation
import InfeasibilityControl.Proofs.Exact.Matrix
import InfeasibilityControl.Proofs.Kkt.Operations

set_option autoImplicit false
set_option relaxedAutoImplicit false

/-!
From matrices to coordinates and back.

A model with matrices for derivatives reports them at fixed positions: those of a whole matrix for
the Jacobian, those of a triangle for the Hessian. Each position occurs once, and the values come in
the order of the positions, so that the matrices can be put together again, entry for entry.
-/

namespace InfeasibilityControl

open Counted (Always)
open KktSystem (entry)

variable {K : Type} {m n i j : Nat}

/-- The table has so many rows of so many entries. -/
structure IsTable (m n : Nat) (rows : List (Vec K)) : Prop where
  length : rows.length = m
  columns : ∀ row ∈ rows, row.length = n

theorem Position.isInside_inRow (hi : i < m) (hj : j < n) :
    (Position.inRow i j).isInside m n = true := by
  rw [Position.isInside_iff, Position.inRow]
  omega

theorem isTable_tabulate (f : Nat → Nat → K) :
    IsTable m n ((List.range m).map fun i => (List.range n).map fun j => f i j) :=
  ⟨by simp, by simp⟩

theorem count_positions (width : Nat → Nat) (q : Position) :
    List.count q ((List.range m).flatMap fun i =>
      (List.range (width i)).map (Position.inRow i)) =
      if 0 ≤ q.1 ∧ q.1 < m ∧ 0 ≤ q.2 ∧ q.2 < width q.1.toNat then 1 else 0 := by
  have hnodup : ((List.range m).flatMap fun i =>
      (List.range (width i)).map (Position.inRow i)).Nodup := by
    rw [List.nodup_flatMap]
    refine ⟨fun i _ => List.nodup_range.map fun j k hjk => ?_, List.nodup_range.imp ?_⟩
    · have hsecond := congrArg Prod.snd hjk
      exact Int.ofNat_inj.1 hsecond
    · intro i k hne q hi hk
      obtain ⟨_, -, rfl⟩ := List.mem_map.1 hi
      obtain ⟨_, -, hsame⟩ := List.mem_map.1 hk
      exact hne (Int.ofNat_inj.1 (congrArg Prod.fst hsame)).symm
  have hmem : q ∈ ((List.range m).flatMap fun i =>
      (List.range (width i)).map (Position.inRow i)) ↔
        0 ≤ q.1 ∧ q.1 < m ∧ 0 ≤ q.2 ∧ q.2 < width q.1.toNat := by
    simp only [List.mem_flatMap, List.mem_map, List.mem_range, Position.inRow]
    constructor
    · rintro ⟨i, hi, j, hj, rfl⟩
      simp only [Int.toNat_natCast]
      omega
    · rintro ⟨hrow, hi, hcolumn, hj⟩
      exact ⟨q.1.toNat, by omega, q.2.toNat, by omega,
        Prod.ext (by simp [hrow]) (by simp [hcolumn])⟩
  rw [hnodup.count]
  exact if_congr hmem rfl rfl

namespace DenseModel

theorem count_densePattern (q : Position) :
    List.count q (densePattern m n) = if q.isInside m n = true then 1 else 0 := by
  rw [densePattern, count_positions]
  exact if_congr Position.isInside_iff.symm rfl rfl

theorem count_trianglePattern (q : Position) :
    List.count q (trianglePattern n) = if q.isInside n n = true ∧ q.2 ≤ q.1 then 1 else 0 := by
  rw [trianglePattern, count_positions]
  refine if_congr ?_ rfl rfl
  rw [Position.isInside_iff]
  omega

end DenseModel

variable [Scalar K]

theorem entry_tabulate {f : Nat → Nat → K} (hi : i < m) (hj : j < n) :
    entry ((List.range m).map fun i => (List.range n).map fun j => f i j) i j = f i j := by
  simp [entry, hi, hj]

namespace IsTable

variable {rows : List (Vec K)}

theorem tabulate_entry (h : IsTable m n rows) :
    ((List.range m).map fun i => (List.range n).map fun j => entry rows i j) = rows := by
  refine List.ext_getElem (by simp [h.length]) fun i hi hi' => ?_
  have hrow := h.columns _ (List.getElem_mem hi')
  refine List.ext_getElem (by simp [hrow]) fun j hj hj' => ?_
  simp [entry, hi', hj']

theorem eq_tabulate (h : IsTable m n rows) {f : Nat → Nat → K}
    (hentry : ∀ i j, i < m → j < n → f i j = entry rows i j) :
    ((List.range m).map fun i => (List.range n).map fun j => f i j) = rows := by
  refine Eq.trans ?_ h.tabulate_entry
  exact List.map_congr_left fun i hi => List.map_congr_left fun j hj =>
    hentry i j (List.mem_range.1 hi) (List.mem_range.1 hj)

omit [Scalar K] in
theorem length_flatten (h : IsTable m n rows) : rows.flatten.length = m * n := by
  obtain ⟨rfl, hcolumns⟩ := h
  induction rows with
  | nil => simp
  | cons row rows ih =>
    rw [List.flatten_cons, List.length_append, hcolumns row List.mem_cons_self,
      ih fun row hrow => hcolumns row (List.mem_cons_of_mem _ hrow), List.length_cons, Nat.succ_mul,
      Nat.add_comm]

theorem getD_flatten (h : IsTable m n rows) (hj : j < n) :
    rows.flatten.getD (i * n + j) 0 = entry rows i j := by
  obtain ⟨-, hcolumns⟩ := h
  induction rows generalizing i with
  | nil => rfl
  | cons row rows ih =>
    have hrow := hcolumns row List.mem_cons_self
    rw [List.flatten_cons]
    cases i with
    | zero =>
      rw [Nat.zero_mul, Nat.zero_add, List.getD_append _ _ _ _ (hrow ▸ hj)]
      rfl
    | succ i =>
      have hplace : (i + 1) * n + j = n + (i * n + j) := by rw [Nat.succ_mul]; omega
      rw [hplace, List.getD_append_right _ _ _ _ (by omega), hrow, Nat.add_sub_cancel_left,
        ih fun row hrow => hcolumns row (List.mem_cons_of_mem _ hrow)]
      rfl

theorem entriesAt (h : IsTable m n rows) {positions : List Position}
    (hinside : ∀ q ∈ positions, q.isInside m n = true) :
    DenseModel.entriesAt m n positions rows =
      .ok (positions.map fun q => entry rows q.1.toNat q.2.toNat) := by
  have hfits : DenseModel.shapeFits (m : Int) n rows.flatten.length = true := by
    rw [h.length_flatten]
    exact beq_self_eq_true _
  rw [DenseModel.entriesAt, if_pos hfits]
  refine congrArg Except.ok (List.map_congr_left fun q hq => h.getD_flatten ?_)
  have hq := Position.isInside_iff.1 (hinside q hq)
  omega

end IsTable

namespace SparseMatrix

theorem HasShape.isTable {A : SparseMatrix K} (h : A.HasShape m n) : IsTable m n A.toRows := by
  refine ⟨(List.length_map _).trans h.rows, ?_⟩
  simp only [toRows, List.mem_map]
  rintro row ⟨stored, hmem, rfl⟩
  rw [List.length_map, h.columns stored hmem]

omit [Scalar K] in
private theorem values_at (f : Position → K) {positions : List Position}
    (hcount : ∀ q ∈ positions, List.count q positions = 1) (i j : Nat) :
    ((((positions.zip (positions.map f)).filter fun e => e.1.1 == (i : Int)).filter
      fun e => e.1.2 == (j : Int)).map fun e => e.2) =
      if Position.inRow i j ∈ positions then [f (Position.inRow i j)] else [] := by
  have hzip : positions.zip (positions.map f) = positions.map fun q => (q, f q) := by
    have hboth : (positions.map id).zip (positions.map f) = _ := List.zip_map'
    rwa [List.map_id] at hboth
  have hfilter : (positions.filter fun q => (q.2 == (j : Int)) && (q.1 == (i : Int))) =
      List.replicate (List.count (Position.inRow i j) positions) (Position.inRow i j) := by
    rw [← List.filter_beq]
    refine List.filter_congr fun q _ => ?_
    rw [Bool.eq_iff_iff]
    simp [Position.inRow, Prod.ext_iff, and_comm]
  rw [hzip, List.filter_map, List.filter_map, List.filter_filter, List.map_map]
  simp only [Function.comp_def]
  rw [hfilter, List.map_replicate]
  split
  · rename_i hmem
    rw [hcount _ hmem]
    rfl
  · rename_i hmem
    rw [List.count_eq_zero.2 hmem]
    rfl

/-- A matrix that is put together from different positions has at each of them the value given
there, and zeros elsewhere. -/
theorem toRows_ofCoordinates (f : Position → K) {positions : List Position}
    (hcount : ∀ q ∈ positions, List.count q positions = 1)
    (hinside : ∀ q ∈ positions, q.isInside m n = true) :
    ∃ A, ofCoordinates m n positions (positions.map f) = .ok A ∧
      A.toRows = (List.range m).map fun i => (List.range n).map fun j =>
        if Position.inRow i j ∈ positions then f (Position.inRow i j) else 0 := by
  obtain ⟨A, hA⟩ := ofCoordinates_eq_ok (List.length_map f).symm hinside
  refine ⟨A, hA, ?_⟩
  rw [ofCoordinates, if_pos ⟨(List.length_map f).symm, List.all_eq_true.2 hinside⟩] at hA
  rw [← Except.ok.inj hA]
  simp only [toRows, List.map_map, Function.comp_def, values_at f hcount]
  refine List.map_congr_left fun i _ => List.map_congr_left fun j _ => ?_
  split
  · rfl
  · rfl

end SparseMatrix

/-- The matrix has so many rows and columns, in whatever form it is given. -/
def GivenMatrix.HasShape (m n : Nat) : GivenMatrix K → Prop
  | .dense rows => IsTable m n rows
  | .sparse A => A.HasShape m n

theorem GivenMatrix.HasShape.isTable {G : GivenMatrix K} (h : G.HasShape m n) :
    IsTable m n G.toRows := by
  cases G with
  | dense rows => exact h
  | sparse A => exact SparseMatrix.HasShape.isTable h

/-- The entries of a table do not change if its rows and columns change places. -/
def IsSymmetric (rows : List (Vec K)) : Prop := ∀ i j, entry rows i j = entry rows j i

/-- The symmetric table with the lower triangle of the given one. -/
def mirror (n : Nat) (lower : List (Vec K)) : List (Vec K) :=
  (List.range n).map fun i => (List.range n).map fun j => entry lower (max i j) (min i j)

namespace DenseModel

variable {d : DenseModel K} {p : Problem K} {x y : Vec K} {weight : K} {G : GivenMatrix K}
  {H : List (Vec K)}

/-- The problem reports the derivatives of the model at the positions of its patterns. -/
structure Describes (d : DenseModel K) (m : Nat) (p : Problem K) : Prop where
  start : p.start = d.start
  constraintCount : p.constraintCount = m
  objective : p.objective = d.objective
  gradient : p.gradient = d.gradient
  constraints : p.constraints = d.constraints
  jacobianPattern : p.jacobianPattern = densePattern m d.start.length
  jacobianValues : ∀ {x G}, d.jacobian x = .ok G → p.jacobianValues x =
    entriesAt m d.start.length (densePattern m d.start.length) G.toRows
  hessianPattern : p.hessianPattern = trianglePattern d.start.length
  hessianValues : ∀ {x y weight H}, d.hessian x y weight = .ok H → p.hessianValues x y weight =
    entriesAt d.start.length d.start.length (trianglePattern d.start.length) H

theorem exists_problem (hcount : d.countConstraints = .ok (m : Int))
    (hbounds : (boundFits d.start.length d.lower? && boundFits d.start.length d.upper?) = true) :
    ∃ p, d.problem = .ok p ∧ d.Describes m p := by
  simp only [problem, hcount, bind, Except.bind, hbounds, if_true]
  refine ⟨_, rfl, rfl, rfl, rfl, rfl, rfl, rfl, fun hG => ?_, rfl, fun hH => ?_⟩
  · simp only [hG, Int.toNat_natCast]
  · simp only [hH]

namespace Describes

theorem rowCount (h : d.Describes m p) : p.rowCount = .ok m := by
  rw [Problem.rowCount, h.constraintCount]

theorem variableCount (h : d.Describes m p) : p.variableCount = d.start.length :=
  congrArg List.length h.start

theorem mem_jacobianPattern (h : d.Describes m p) {q : Position} :
    q ∈ p.jacobianPattern ↔ q.isInside m d.start.length = true := by
  rw [← List.count_pos_iff, h.jacobianPattern, count_densePattern]
  split <;> simp [*]

theorem mem_hessianPattern (h : d.Describes m p) {q : Position} :
    q ∈ p.hessianPattern ↔ q.isInside d.start.length d.start.length = true ∧ q.2 ≤ q.1 := by
  rw [← List.count_pos_iff, h.hessianPattern, count_trianglePattern]
  split <;> simp [*]

theorem jacobianValues_eq (h : d.Describes m p) (hG : d.jacobian x = .ok G)
    (hshape : G.HasShape m d.start.length) : p.jacobianValues x =
      .ok (p.jacobianPattern.map fun q => entry G.toRows q.1.toNat q.2.toNat) := by
  rw [h.jacobianValues hG, h.jacobianPattern]
  refine hshape.isTable.entriesAt fun q hq => ?_
  rwa [← h.mem_jacobianPattern, h.jacobianPattern]

theorem hessianValues_eq (h : d.Describes m p) (hH : d.hessian x y weight = .ok H)
    (htable : IsTable d.start.length d.start.length H) : p.hessianValues x y weight =
      .ok (p.hessianPattern.map fun q => entry H q.1.toNat q.2.toNat) := by
  rw [h.hessianValues hH, h.hessianPattern]
  refine htable.entriesAt fun q hq => ?_
  exact (h.mem_hessianPattern.1 (h.hessianPattern ▸ hq)).1

theorem exists_jacobian (h : d.Describes m p) (hG : d.jacobian x = .ok G)
    (hshape : G.HasShape m d.start.length) : ∃ J, p.jacobian x = .ok J ∧
      SparseMatrix.ofCoordinates m d.start.length p.jacobianPattern
        (p.jacobianPattern.map fun q => entry G.toRows q.1.toNat q.2.toNat) = .ok J ∧
      J.toRows = G.toRows := by
  obtain ⟨J, hJ, hrows⟩ := SparseMatrix.toRows_ofCoordinates
    (fun q : Position => entry G.toRows q.1.toNat q.2.toNat)
    (fun q hq => by rw [h.jacobianPattern, count_densePattern, if_pos (h.mem_jacobianPattern.1 hq)])
    (fun q hq => h.mem_jacobianPattern.1 hq)
  refine ⟨J, ?_, hJ, ?_⟩
  · simp only [Problem.jacobian, h.jacobianValues_eq hG hshape, h.rowCount, h.variableCount, bind,
      Except.bind]
    exact hJ
  · rw [hrows]
    refine hshape.isTable.eq_tabulate fun i j hi hj => ?_
    rw [if_pos (h.mem_jacobianPattern.2 (Position.isInside_inRow hi hj))]
    rfl

/-- The lower triangle that is put together from the Hessian's coordinates has the Hessian that was
given as its mirror image. -/
theorem exists_triangle (h : d.Describes m p)
    (htable : IsTable d.start.length d.start.length H) (hsymmetric : IsSymmetric H) :
    ∃ L, SparseMatrix.ofCoordinates d.start.length d.start.length p.hessianPattern
        (p.hessianPattern.map fun q => entry H q.1.toNat q.2.toNat) = .ok L ∧
      mirror d.start.length L.toRows = H := by
  obtain ⟨L, hL, hrows⟩ := SparseMatrix.toRows_ofCoordinates
    (fun q : Position => entry H q.1.toNat q.2.toNat)
    (fun q hq => by
      rw [h.hessianPattern, count_trianglePattern, if_pos (h.mem_hessianPattern.1 hq)])
    (fun q hq => (h.mem_hessianPattern.1 hq).1)
  refine ⟨L, hL, htable.eq_tabulate fun i j hi hj => ?_⟩
  have hinside := Position.isInside_inRow (max_lt hi hj) ((min_le_left i j).trans_lt hi)
  rw [hrows, entry_tabulate (max_lt hi hj) ((min_le_left i j).trans_lt hi),
    if_pos (h.mem_hessianPattern.2 ⟨hinside, Int.ofNat_le.2 min_le_max⟩)]
  show entry H (max i j) (min i j) = entry H i j
  obtain hij | hij := le_total i j
  · rw [max_eq_right hij, min_eq_left hij, hsymmetric]
  · rw [max_eq_left hij, min_eq_right hij]

end Describes

/-- What a problem reports can be read back: each position is listed once, and the matrices that are
put together from the coordinates are those of the model, entry for entry. -/
structure Presents (d : DenseModel K) (m : Nat) (p : Problem K) : Prop where
  jacobianPattern : ∀ q, List.count q p.jacobianPattern =
    if q.isInside m d.start.length = true then 1 else 0
  hessianPattern : ∀ q, List.count q p.hessianPattern =
    if q.isInside d.start.length d.start.length = true ∧ q.2 ≤ q.1 then 1 else 0
  jacobian : ∀ x G, d.jacobian x = .ok G → G.HasShape m d.start.length →
    ∃ J, Always (p.jacobianAt x) J ∧ J.HasShape m d.start.length ∧ J.toRows = G.toRows
  hessian : ∀ x y weight H, d.hessian x y weight = .ok H →
    IsTable d.start.length d.start.length H → IsSymmetric H →
    ∃ values L, Always (p.hessianValuesAt x y weight) values ∧
      SparseMatrix.ofCoordinates d.start.length d.start.length p.hessianPattern values = .ok L ∧
      mirror d.start.length L.toRows = H

theorem Describes.presents (h : d.Describes m p) : d.Presents m p where
  jacobianPattern q := by rw [h.jacobianPattern, count_densePattern]
  hessianPattern q := by rw [h.hessianPattern, count_trianglePattern]
  jacobian x G hG hshape := by
    obtain ⟨J, hJ, hcoordinates, hrows⟩ := h.exists_jacobian hG hshape
    exact ⟨J, Problem.jacobianAt_always hJ, SparseMatrix.ofCoordinates_hasShape hcoordinates, hrows⟩
  hessian x y weight H hH htable hsymmetric := by
    obtain ⟨L, hL, hmirror⟩ := h.exists_triangle htable hsymmetric
    exact ⟨_, L, Problem.hessianValuesAt_always (h.hessianValues_eq hH htable), hL, hmirror⟩

end DenseModel

end InfeasibilityControl
