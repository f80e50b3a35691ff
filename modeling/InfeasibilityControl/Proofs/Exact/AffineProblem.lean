import Mathlib
import InfeasibilityControl.Proofs.Completion
import InfeasibilityControl.Proofs.Exact.ModelDecrease

set_option autoImplicit false
set_option relaxedAutoImplicit false

/-!
Problems whose constraints are affine and can be met.

The linear model of such constraints is exact and has zeros, and these are its minimizers.
-/

namespace InfeasibilityControl

namespace Problem

/-- The constraints are `A x - b`, with `A` as their Jacobian, and can be met. -/
structure IsAffine (p : Problem ℝ) (A : SparseMatrix ℝ) (b : Vec ℝ) : Prop where
  hasShape : A.HasShape b.length p.variableCount
  constraints : ∀ x : Vec ℝ, x.length = p.variableCount →
    p.constraints x = .ok (Vec.minus (A.apply x) b)
  jacobian : ∀ x : Vec ℝ, x.length = p.variableCount → p.jacobian x = .ok A
  consistent : ∃ x : Vec ℝ, x.length = p.variableCount ∧ A.apply x = b

namespace IsAffine

variable {p : Problem ℝ} {A : SparseMatrix ℝ} {b c d q x : Vec ℝ}

theorem isConstrained (hp : p.IsAffine A b) : p.IsConstrained b.length where
  constraints x hx :=
    ⟨_, hp.constraints x hx, Vec.length_minus_of_length (hp.hasShape.length_apply x) rfl⟩
  jacobian x hx := ⟨A, hp.jacobian x hx, hp.hasShape⟩

theorem known (hp : p.IsAffine A b) (hx : x.length = p.variableCount)
    {jacobian? : Option (SparseMatrix ℝ)} (hJ : ∀ J ∈ jacobian?, J = A) :
    ∀ J ∈ jacobian?, p.jacobian x = .ok J := by
  intro J hmem
  rw [hJ J hmem]
  exact hp.jacobian x hx

theorem constraints_eq (hp : p.IsAffine A b) (hx : x.length = p.variableCount)
    (hc : p.constraints x = .ok c) : c = Vec.minus (A.apply x) b :=
  (Except.ok.inj ((hp.constraints x hx).symm.trans hc)).symm

theorem length_constraints (hp : p.IsAffine A b) (hx : x.length = p.variableCount)
    (hc : p.constraints x = .ok c) : c.length = b.length :=
  hp.isConstrained.length_constraints hx hc

theorem euclid_constraints (hp : p.IsAffine A b) (hx : x.length = p.variableCount)
    (hc : p.constraints x = .ok c) :
    c.euclid b.length =
      A.linear b.length p.variableCount (x.euclid p.variableCount) - b.euclid b.length := by
  rw [hp.constraints_eq hx hc, Vec.euclid_minus (hp.hasShape.length_apply x),
    hp.hasShape.euclid_apply]

theorem constraints_plus (hp : p.IsAffine A b) (hx : x.length = p.variableCount)
    (hc : p.constraints x = .ok c) (hd : d.length = p.variableCount) :
    p.constraints (Vec.plus x d) = .ok (Vec.plus c (A.apply d)) := by
  rw [hp.constraints _ (Vec.length_plus_of_length hx hd), hp.hasShape.residual_plus rfl hx hd,
    hp.constraints_eq hx hc]

theorem exists_zero (hp : p.IsAffine A b) (hx : x.length = p.variableCount)
    (hc : p.constraints x = .ok c) :
    ∃ v : Vec ℝ, v.length = p.variableCount ∧ c.euclid b.length +
      A.linear b.length p.variableCount (v.euclid p.variableCount) = 0 := by
  obtain ⟨w, hw, hwb⟩ := hp.consistent
  refine ⟨Vec.minus w x, Vec.length_minus_of_length hw hx, ?_⟩
  have hmet : A.linear b.length p.variableCount (w.euclid p.variableCount) =
      b.euclid b.length := by
    rw [← hp.hasShape.euclid_apply, hwb]
  rw [hp.euclid_constraints hx hc, Vec.euclid_minus (hw.trans hx.symm), map_sub, hmet]
  abel

theorem minimizes_iff (hp : p.IsAffine A b) (hx : x.length = p.variableCount)
    (hc : p.constraints x = .ok c) (hq : q.length = p.variableCount) :
    A.Minimizes c q ↔ c.euclid b.length +
      A.linear b.length p.variableCount (q.euclid p.variableCount) = 0 := by
  have hlength := hp.length_constraints hx hc
  constructor
  · intro hleast
    obtain ⟨v, -, hzero⟩ := hp.exists_zero hx hc
    have hle := hleast.isMinimizer hp.hasShape hlength (v.euclid p.variableCount)
    rw [hzero, norm_zero] at hle
    exact norm_le_zero_iff.1 hle
  · intro hzero
    refine hp.hasShape.minimizes_of_isMinimizer hlength hq fun v => ?_
    rw [hzero, norm_zero]
    exact norm_nonneg _

theorem gradient_nonzero (hp : p.IsAffine A b) (hx : x.length = p.variableCount)
    (hc : p.constraints x = .ok c) (hoff : Vec.norm c ≠ 0) :
    Vec.isNonzero (A.applyTransposed c) = true := by
  obtain ⟨v, -, hzero⟩ := hp.exists_zero hx hc
  rw [Vec.norm_eq (hp.length_constraints hx hc).le] at hoff
  exact (Vec.isNonzero_iff (hp.hasShape.length_applyTransposed c)).2
    ((hp.hasShape.isGradient c).ne_zero hzero (norm_ne_zero_iff.1 hoff))

end IsAffine

end Problem

/-- The equation of a line through the origin of the plane. -/
noncomputable def tiltedRow : SparseMatrix ℝ := ⟨1, 2, [[some 1, some 1]]⟩

/-- The line is to be found from a point that is farther from it than the first region reaches. -/
noncomputable def tiltedLine : Problem ℝ where
  name := "tilted_line"
  start := [1, 1]
  constraintCount := 1
  inequalityCount := 0
  bounded := false
  evaluationTime := 0
  objective := fun _ => .ok 0
  gradient := fun _ => .ok [0, 0]
  constraints := fun x => .ok (Vec.minus (tiltedRow.apply x) [0])
  jacobianPattern := [⟨0, 0⟩, ⟨0, 1⟩]
  jacobianValues := fun _ => .ok [1, 1]
  hessianPattern := []
  hessianValues := fun _ _ _ => .ok []

namespace tiltedLine

theorem isAffine : tiltedLine.IsAffine tiltedRow [0] where
  hasShape := ⟨rfl, rfl, rfl, by simp [tiltedRow, tiltedLine, Problem.variableCount]⟩
  constraints _ _ := rfl
  jacobian _ _ := rfl
  consistent := ⟨[0, 0], rfl, by simp [tiltedRow, SparseMatrix.apply, SparseMatrix.rowProduct]⟩

theorem known_eq : ∀ J ∈ some tiltedRow, J = tiltedRow := fun _ hJ =>
  (Option.mem_some.1 hJ).symm

theorem start_constraints : tiltedLine.constraints [1, 1] = .ok [2] := by
  have hvalue : Vec.minus (tiltedRow.apply [1, 1]) [0] = [2] := by
    simp [tiltedRow, SparseMatrix.apply, SparseMatrix.rowProduct, Vec.minus]
    norm_num
  exact congrArg Except.ok hvalue

end tiltedLine

/-- Two lines through the origin of the plane, in space. -/
noncomputable def crossingRows : SparseMatrix ℝ :=
  ⟨2, 3, [[some 1, none, none], [none, some 0.5, none]]⟩

/-- The point where the lines cross is to be found. Nothing depends on the third coordinate. -/
noncomputable def crossingLines : Problem ℝ where
  name := "crossing_lines"
  start := [1, 1, 1]
  constraintCount := 2
  inequalityCount := 0
  bounded := false
  evaluationTime := 0
  objective := fun _ => .ok 0
  gradient := fun _ => .ok [0, 0, 0]
  constraints := fun x => .ok (Vec.minus (crossingRows.apply x) [0, 0])
  jacobianPattern := [⟨0, 0⟩, ⟨1, 1⟩]
  jacobianValues := fun _ => .ok [1, 0.5]
  hessianPattern := []
  hessianValues := fun _ _ _ => .ok []

namespace crossingLines

theorem isAffine : crossingLines.IsAffine crossingRows [0, 0] where
  hasShape := ⟨rfl, rfl, rfl, by simp [crossingRows, crossingLines, Problem.variableCount]⟩
  constraints _ _ := rfl
  jacobian _ _ := rfl
  consistent := ⟨[0, 0, 0], rfl, by simp [crossingRows, SparseMatrix.apply,
    SparseMatrix.rowProduct]⟩

theorem hasShape : crossingRows.HasShape 2 3 := isAffine.hasShape

theorem isTotal : crossingLines.IsTotal 2 where
  rowCount := rfl
  jacobian := by decide
  hessian := by simp [crossingLines]
  objective_total _ _ := ⟨0, rfl⟩
  gradient_total _ _ := ⟨[0, 0, 0], rfl, rfl⟩
  constraints_total _ _ := ⟨_, rfl, rfl⟩
  jacobian_total _ _ := ⟨[1, 0.5], rfl, rfl⟩
  hessian_total _ _ _ _ _ := ⟨[], rfl, rfl⟩

theorem known_eq : ∀ J ∈ some crossingRows, J = crossingRows := fun _ hJ =>
  (Option.mem_some.1 hJ).symm

theorem start_constraints : crossingLines.constraints [1, 1, 1] = .ok [1, 0.5] := by
  have hvalue : Vec.minus (crossingRows.apply [1, 1, 1]) [0, 0] = [1, 0.5] := by
    simp [crossingRows, SparseMatrix.apply, SparseMatrix.rowProduct, Vec.minus]
  exact congrArg Except.ok hvalue

end crossingLines

end InfeasibilityControl
