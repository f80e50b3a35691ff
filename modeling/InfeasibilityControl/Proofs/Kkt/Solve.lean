import Mathlib
import InfeasibilityControl.Proofs.Exact.Elimination
import InfeasibilityControl.Proofs.Kkt.Matrix

set_option autoImplicit false
set_option relaxedAutoImplicit false

/-!
What a KKT system answers in exact arithmetic.

A right-hand side of the wrong length is refused, and a solve fails where the matrix is singular.
Otherwise the answer is the only solution of the system, block by block. A solve changes nothing,
whichever of the three it comes to.
-/

namespace InfeasibilityControl

namespace KktSystem

variable {p : Problem ℝ} {m : Nat} {kkt : KktSystem ℝ} {J : SparseMatrix ℝ}
  {d w rightSide : Vec ℝ}

/-- The Jacobian whose values a system holds. -/
noncomputable def jacobian (kkt : KktSystem ℝ) : Except Fault (SparseMatrix ℝ) :=
  SparseMatrix.ofCoordinates kkt.constraintCount kkt.variableCount kkt.jacobianPattern
    kkt.jacobianValues

/-- The product of a vector with the Hessian whose values a system holds. -/
noncomputable def hessianProduct (kkt : KktSystem ℝ) (d : Vec ℝ) : Vec ℝ :=
  mirroredProduct kkt.variableCount kkt.hessianPattern kkt.hessianValues d

/-- The two vectors solve the system with this Jacobian, `H d + γ d + Jᵀ w` and `J d - δ w` being
the two parts of the right-hand side. -/
structure IsSolution (kkt : KktSystem ℝ) (J : SparseMatrix ℝ) (rightSide d w : Vec ℝ) : Prop where
  primal : d.length = kkt.variableCount
  dual : w.length = kkt.constraintCount
  upper : Vec.plus (Vec.plus (kkt.hessianProduct d) (Vec.scale kkt.gamma d))
    (J.applyTransposed w) = rightSide.take kkt.variableCount
  lower : Vec.minus (J.apply d) (Vec.scale kkt.delta w) = rightSide.drop kkt.variableCount

/-- The matrix of a system has the determinant zero. -/
def IsSingular (kkt : KktSystem ℝ) : Prop :=
  ∃ M, kkt.matrix = .ok M ∧ (tableMatrix kkt.dimension M).det = 0

theorem Fits.eq_holding (h : kkt.Fits p m) :
    kkt = holding p m kkt.hessianValues kkt.jacobianValues kkt.gamma kkt.delta := by
  rw [holding, ← h.variableCount, ← h.constraintCount, ← h.hessianPattern, ← h.jacobianPattern]

theorem Fits.exists_jacobian (h : kkt.Fits p m) (hp : p.IsPatterned m) :
    ∃ J, kkt.jacobian = .ok J := by
  rw [jacobian, h.constraintCount, h.variableCount, h.jacobianPattern]
  exact SparseMatrix.ofCoordinates_eq_ok h.jacobianValues.symm hp.jacobian

theorem hasShape_of_jacobian (hJ : kkt.jacobian = .ok J) :
    J.HasShape kkt.constraintCount kkt.variableCount :=
  SparseMatrix.ofCoordinates_hasShape hJ

theorem Fits.hasShape (h : kkt.Fits p m) (hJ : kkt.jacobian = .ok J) :
    J.HasShape m p.variableCount := by
  rw [← h.constraintCount, ← h.variableCount]
  exact hasShape_of_jacobian hJ

theorem Fits.exists_blocks (h : kkt.Fits p m) (hp : p.IsTriangular m)
    (hJ : kkt.jacobian = .ok J) :
    ∃ M, kkt.matrix = .ok M ∧ M.length = kkt.dimension ∧
      (∀ row ∈ M, row.length = kkt.dimension) ∧
      ∀ d w : Vec ℝ, d.length = kkt.variableCount → w.length = kkt.constraintCount →
        tableProduct M (d ++ w) =
          Vec.plus (Vec.plus (kkt.hessianProduct d) (Vec.scale kkt.gamma d))
            (J.applyTransposed w) ++ Vec.minus (J.apply d) (Vec.scale kkt.delta w) := by
  have hmatrix : kkt.matrix =
      .ok (wholeTable p m kkt.hessianValues kkt.jacobianValues kkt.gamma kkt.delta) := by
    have hholding : (holding p m kkt.hessianValues kkt.jacobianValues kkt.gamma
        kkt.delta).matrix = .ok _ := matrix_holding hp h.hessianValues h.jacobianValues
    rwa [← h.eq_holding] at hholding
  have hcoordinates : SparseMatrix.ofCoordinates m p.variableCount p.jacobianPattern
      kkt.jacobianValues = .ok J := by
    rwa [jacobian, h.constraintCount, h.variableCount, h.jacobianPattern] at hJ
  rw [h.dimension]
  refine ⟨_, hmatrix, length_wholeTable, length_of_mem_wholeTable, fun d w hd hw => ?_⟩
  rw [product_wholeTable hp hcoordinates (hd.trans h.variableCount) (hw.trans h.constraintCount),
    hessianProduct, h.variableCount, h.hessianPattern]

theorem isSingular_iff {M : List (Vec ℝ)} (hM : kkt.matrix = .ok M) :
    kkt.IsSingular ↔ (tableMatrix kkt.dimension M).det = 0 := by
  constructor
  · rintro ⟨M', hM', hdet⟩
    cases hM.symm.trans hM'
    exact hdet
  · intro hdet
    exact ⟨M, hM, hdet⟩

theorem solve_of_matrix {M : List (Vec ℝ)} (hM : kkt.matrix = .ok M)
    (hright : rightSide.length = kkt.dimension) : kkt.solve rightSide =
      match Equation.solve kkt.dimension (List.zipWith Equation.mk M rightSide) with
      | none => .error .kktSingular
      | some x => .ok (x.take kkt.variableCount, x.drop kkt.variableCount) := by
  have hfinite : ∀ v : Vec ℝ, v.all Scalar.isFinite = true := fun v =>
    List.all_eq_true.2 fun _ _ => rfl
  simp only [solve, if_pos hright, hM, bind, Except.bind, hfinite, List.all_eq_true,
    implies_true, if_true]
  rcases Equation.solve kkt.dimension (List.zipWith Equation.mk M rightSide) with _ | x
  · rfl
  · rfl

theorem Fits.isSolution_iff (h : kkt.Fits p m) (hp : p.IsTriangular m)
    (hJ : kkt.jacobian = .ok J) {M : List (Vec ℝ)} (hM : kkt.matrix = .ok M)
    (hd : d.length = kkt.variableCount) (hw : w.length = kkt.constraintCount) :
    kkt.IsSolution J rightSide d w ↔ tableProduct M (d ++ w) = rightSide := by
  obtain ⟨M', hM', -, -, hblocks⟩ := h.exists_blocks hp hJ
  cases hM.symm.trans hM'
  have hupper : (Vec.plus (Vec.plus (kkt.hessianProduct d) (Vec.scale kkt.gamma d))
      (J.applyTransposed w)).length = kkt.variableCount := by
    have hshape := (h.hasShape hJ).length_applyTransposed w
    simp [hessianProduct, mirroredProduct, hd, hshape, h.variableCount]
  rw [hblocks d w hd hw]
  constructor
  · intro hsolution
    rw [hsolution.upper, hsolution.lower, List.take_append_drop]
  · intro hproduct
    refine ⟨hd, hw, ?_, ?_⟩
    · rw [← hproduct, List.take_left' hupper]
    · rw [← hproduct, List.drop_left' hupper]

/-- A solve fails on a singular matrix, and otherwise it ends at the only solution. -/
theorem Fits.solve_exact (h : kkt.Fits p m) (hp : p.IsTriangular m) (hJ : kkt.jacobian = .ok J)
    (hright : rightSide.length = kkt.dimension) :
    (kkt.IsSingular ∧ kkt.solve rightSide = .error .kktSingular) ∨
      (¬ kkt.IsSingular ∧ ∃ d w, kkt.solve rightSide = .ok (d, w) ∧
        d.length = kkt.variableCount ∧ w.length = kkt.constraintCount ∧
        ∀ d' w', kkt.IsSolution J rightSide d' w' ↔ d' = d ∧ w' = w) := by
  obtain ⟨M, hM, hrows, hcolumns, -⟩ := h.exists_blocks hp hJ
  rw [isSingular_iff hM, solve_of_matrix hM hright]
  obtain ⟨hdet, hnone⟩ | ⟨hdet, x, hx, hxlength, hunique⟩ :=
    Equation.solve_table hrows hright hcolumns
  · exact .inl ⟨hdet, by rw [hnone]⟩
  · have hd : (x.take kkt.variableCount).length = kkt.variableCount := by
      rw [List.length_take, hxlength, KktSystem.dimension]
      omega
    have hw : (x.drop kkt.variableCount).length = kkt.constraintCount := by
      rw [List.length_drop, hxlength, KktSystem.dimension]
      omega
    refine .inr ⟨hdet, _, _, by rw [hx], hd, hw, fun d' w' => ?_⟩
    constructor
    · intro hsolution
      have hproduct := (h.isSolution_iff hp hJ hM hsolution.primal hsolution.dual).1
        hsolution
      have hlength : (d' ++ w').length = kkt.dimension := by
        rw [List.length_append, hsolution.primal, hsolution.dual,
          KktSystem.dimension]
      rw [← (hunique _ hlength).1 hproduct, List.take_left' hsolution.primal,
        List.drop_left' hsolution.primal]
      exact ⟨rfl, rfl⟩
    · rintro ⟨rfl, rfl⟩
      rw [h.isSolution_iff hp hJ hM hd hw, List.take_append_drop]
      exact (hunique x hxlength).2 rfl

theorem Fits.isSolution_of_solve (h : kkt.Fits p m) (hp : p.IsTriangular m)
    (hJ : kkt.jacobian = .ok J) (hright : rightSide.length = kkt.dimension)
    (hsolve : kkt.solve rightSide = .ok (d, w)) : kkt.IsSolution J rightSide d w := by
  obtain ⟨-, hfailed⟩ | ⟨-, d', w', hfound, -, -, hunique⟩ := h.solve_exact hp hJ hright
  · cases hsolve.symm.trans hfailed
  · cases hsolve.symm.trans hfound
    exact (hunique d w).2 ⟨rfl, rfl⟩

/-- What a system answers to a right-hand side: it refuses one of the wrong length, a singular
matrix makes it fail, and otherwise it gives the only solution. -/
structure Answers (kkt : KktSystem ℝ) (J : SparseMatrix ℝ) (rightSide : Vec ℝ) : Prop where
  refusal : kkt.solve rightSide = .error .rightSideLength ↔
    rightSide.length ≠ kkt.variableCount + kkt.constraintCount
  failure : (∃ fault, kkt.solve rightSide = .error fault ∧ isSolveFault fault = true) ↔
    rightSide.length = kkt.variableCount + kkt.constraintCount ∧ kkt.IsSingular
  answer : rightSide.length = kkt.variableCount + kkt.constraintCount → ¬ kkt.IsSingular →
    ∃ d w, kkt.solve rightSide = .ok (d, w) ∧
      d.length = kkt.variableCount ∧ w.length = kkt.constraintCount ∧
      ∀ d' w', kkt.IsSolution J rightSide d' w' ↔ d' = d ∧ w' = w

theorem Fits.answers (h : kkt.Fits p m) (hp : p.IsTriangular m) (hJ : kkt.jacobian = .ok J)
    (rightSide : Vec ℝ) : kkt.Answers J rightSide := by
  by_cases hright : rightSide.length = kkt.variableCount + kkt.constraintCount
  · obtain ⟨hsingular, hsolve⟩ | ⟨hregular, d, w, hsolve, hanswer⟩ := h.solve_exact hp hJ hright
    · refine ⟨?_, ?_, fun _ hregular => absurd hsingular hregular⟩
      · simp [hsolve, hright]
      · simp [hsolve, hright, hsingular, isSolveFault]
    · refine ⟨?_, ?_, fun _ _ => ⟨d, w, hsolve, hanswer⟩⟩
      · simp [hsolve, hright]
      · simp [hsolve, hregular]
  · have hsolve : kkt.solve rightSide = .error .rightSideLength := if_neg hright
    refine ⟨?_, ?_, fun hlength => absurd hlength hright⟩
    · simp [hsolve, hright]
    · simp [hsolve, hright, isSolveFault]

theorem performAll_without_solve (before after : List (KktOperation ℝ)) :
    kkt.performAll p (before ++ .solve rightSide :: after) =
      kkt.performAll p (before ++ after) := by
  rw [performAll_append, performAll_append]
  congr 1

/-- A problem has a system, and whatever was asked of it, the system answers each right-hand side
from the values that it holds, which after a refresh are those of the refresh. A solve that is left
out changes none of the later answers. -/
theorem answers_of_operations (hp : p.IsTriangular m) :
    ∃ first : KktSystem ℝ, ofProblem p = .ok first ∧
      (∀ operations l, ∃ J, ((first.performAll p operations).run l).run.1.jacobian = .ok J ∧
        ∀ rightSide, ((first.performAll p operations).run l).run.1.Answers J rightSide) ∧
      (∀ (x y hessian jacobian : Vec ℝ) (gamma delta : ℝ),
        p.hessianValues x y 1 = .ok hessian → hessian.length = p.hessianPattern.length →
        p.jacobianValues x = .ok jacobian → jacobian.length = p.jacobianPattern.length →
        ∀ before after : List (KktOperation ℝ),
          (∀ operation ∈ after, operation.isRefresh = false) →
          ∀ l, ((first.performAll p (before ++ .refresh x y gamma delta :: after)).run l).run.1 =
            holding p m hessian jacobian gamma delta) ∧
      ∀ (before after : List (KktOperation ℝ)) (rightSide : Vec ℝ),
        first.performAll p (before ++ .solve rightSide :: after) =
          first.performAll p (before ++ after) := by
  obtain ⟨first, hfirst⟩ := exists_ofProblem hp.rowCount
  have hfits := fits_of_ofProblem hp.rowCount hfirst
  refine ⟨first, hfirst, fun operations l => ?_, ?_, fun before after rightSide =>
    performAll_without_solve before after⟩
  · have hlast := hfits.performAll operations l
    obtain ⟨J, hJ⟩ := hlast.exists_jacobian hp.toIsPatterned
    exact ⟨J, hJ, hlast.answers hp hJ⟩
  · intro x y hessian jacobian gamma delta hhessian hhessianLength hjacobian hjacobianLength
      before after hafter l
    exact performAll_of_lastRefresh hfits hhessian hhessianLength hjacobian hjacobianLength before
      after hafter l

theorem isSingular_three_iff {hessian jacobian : Vec ℝ} {gamma delta : ℝ} (hp : p.IsTriangular m)
    (hthree : p.variableCount + m = 3) (hhessian : hessian.length = p.hessianPattern.length)
    (hjacobian : jacobian.length = p.jacobianPattern.length) :
    (holding p m hessian jacobian gamma delta).IsSingular ↔
      let entry := whole p m hessian jacobian gamma delta
      entry 0 0 * entry 1 1 * entry 2 2 - entry 0 0 * entry 1 2 * entry 2 1 -
        entry 0 1 * entry 1 0 * entry 2 2 + entry 0 1 * entry 1 2 * entry 2 0 +
        entry 0 2 * entry 1 0 * entry 2 1 - entry 0 2 * entry 1 1 * entry 2 0 = 0 := by
  have hentry : ∀ i j : Fin 3, tableMatrix 3 (wholeTable p m hessian jacobian gamma delta) i j =
      whole p m hessian jacobian gamma delta i j := by
    intro i j
    exact tableEntry_tabulate (by omega) (by omega)
  have hdimension : (holding p m hessian jacobian gamma delta).dimension = 3 := hthree
  rw [isSingular_iff (matrix_holding hp hhessian hjacobian), hdimension, Matrix.det_fin_three]
  simp only [hentry]
  rfl

theorem isSingular_repeatedPositions_iff (a b c e u v w gamma delta : ℝ) :
    (holding repeatedPositions 1 [a, b, c, e] [u, v, w] gamma delta).IsSingular ↔
      (b + e + gamma) * (-gamma * delta - (u + w) ^ 2) +
        (a + c) * ((a + c) * delta + v * (u + w)) + v * ((a + c) * (u + w) - v * gamma) = 0 := by
  have hvariables : repeatedPositions.variableCount = 2 := rfl
  have hhessian : repeatedPositions.hessianPattern = [(1, 0), (0, 0), (1, 0), (0, 0)] := rfl
  have hjacobian : repeatedPositions.jacobianPattern = [(0, 1), (0, 0), (0, 1)] := rfl
  rw [isSingular_three_iff isTriangular_repeatedPositions rfl rfl rfl]
  simp only [whole, triangle, hvariables, hhessian, hjacobian]
  simp [SparseMatrix.placed, Position.below]
  ring_nf

/-- Before its first refresh the system is singular. Refreshed, it refuses two entries, and finds
the solution for three, also after a solve that was refused. -/
theorem repeatedPositions_answers :
    ∃ first, ofProblem repeatedPositions = .ok first ∧
      (∃ fault, first.solve [1, 1, 1] = .error fault ∧ isSolveFault fault = true) ∧
      ∀ l, ∃ kkt, ((first.performAll repeatedPositions
          [.solve [1, 1, 1], .refresh [0, 0] [0] 5 6, .solve [1, 1]]).run l).run.1 = kkt ∧
        kkt.solve [1, 1] = .error .rightSideLength ∧
        ∃ J d w, kkt.solve [1, 1, 1] = .ok (d, w) ∧ kkt.IsSolution J [1, 1, 1] d w := by
  obtain ⟨first, hfirst, hanswers, hholding, -⟩ :=
    answers_of_operations isTriangular_repeatedPositions
  have hinitial : first = holding repeatedPositions 1 [0, 0, 0, 0] [0, 0, 0] 0 0 := by
    cases hfirst
    rfl
  refine ⟨first, hfirst, ?_, fun l => ⟨_, rfl, ?_⟩⟩
  · obtain ⟨J, -, hall⟩ := hanswers [] Ledger.empty
    refine (hall [1, 1, 1]).failure.2 ⟨by rw [performAll_of_quiet (by simp), hinitial]; rfl, ?_⟩
    rw [performAll_of_quiet (by simp), hinitial, isSingular_repeatedPositions_iff]
    norm_num
  · have hlast := hholding [0, 0] [0] [1, 2, 3, 4] [1, 2, 3] 5 6 rfl rfl rfl rfl
      [.solve [1, 1, 1]] [.solve [1, 1]] (by simp [KktOperation.isRefresh]) l
    obtain ⟨J, -, hall⟩ := hanswers
      [.solve [1, 1, 1], .refresh [0, 0] [0] 5 6, .solve [1, 1]] l
    simp only [List.cons_append, List.nil_append] at hlast
    rw [hlast] at hall ⊢
    have hregular : ¬ (holding repeatedPositions 1 [1, 2, 3, 4] [1, 2, 3] 5 6).IsSingular := by
      rw [isSingular_repeatedPositions_iff]
      norm_num
    obtain ⟨d, w, hsolve, -, -, hunique⟩ := (hall [1, 1, 1]).answer rfl hregular
    refine ⟨(hall [1, 1]).refusal.2 (by decide), J, d, w, hsolve, ?_⟩
    exact (hunique d w).2 ⟨rfl, rfl⟩

end KktSystem

end InfeasibilityControl
