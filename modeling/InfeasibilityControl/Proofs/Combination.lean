import Mathlib
import InfeasibilityControl.Proofs.Exact.Dogleg
import InfeasibilityControl.Proofs.Exact.Euclidean
import InfeasibilityControl.Proofs.Exact.Matrix
import InfeasibilityControl.Proofs.Trial

set_option autoImplicit false
set_option relaxedAutoImplicit false

/-!
What the displacements of a normal step are combined from.

A least-squares solve for `J`, the Cauchy step and the dogleg path make nothing but sums,
differences and multiples of products with `Jᵀ`. A family of vectors that has the zero vector and
these products and is closed under these operations has every displacement, however the solve ends
and whatever the numbers are.
-/

namespace InfeasibilityControl

variable {K : Type} [Scalar K] {n : Nat} {P : Vec K → Prop}

/-- The family has the zero vector, and sums, differences and multiples of what it has. -/
structure Vec.IsClosed (n : Nat) (P : Vec K → Prop) : Prop where
  length : ∀ v, P v → v.length = n
  zeros : P (Vec.zeros n)
  plus : ∀ u v, P u → P v → P (Vec.plus u v)
  minus : ∀ u v, P u → P v → P (Vec.minus u v)
  scale : ∀ (a : K) v, P v → P (Vec.scale a v)

theorem Vec.isClosed_length (n : Nat) : Vec.IsClosed n fun v : Vec K => v.length = n where
  length _ hv := hv
  zeros := Vec.length_zeros n
  plus _ _ hu hv := Vec.length_plus_of_length hu hv
  minus _ _ hu hv := Vec.length_minus_of_length hu hv
  scale c v hv := (Vec.length_scale c v).trans hv

theorem Vec.isClosed_submodule {n : Nat} (S : Submodule ℝ (EuclideanSpace ℝ (Fin n))) :
    Vec.IsClosed n fun v : Vec ℝ => v.length = n ∧ v.euclid n ∈ S where
  length _ hv := hv.1
  zeros := by
    refine ⟨Vec.length_zeros n, ?_⟩
    rw [Vec.euclid_zeros]
    exact Submodule.zero_mem _
  plus _ _ hu hv := by
    refine ⟨Vec.length_plus_of_length hu.1 hv.1, ?_⟩
    rw [Vec.euclid_plus (hu.1.trans hv.1.symm)]
    exact Submodule.add_mem _ hu.2 hv.2
  minus _ _ hu hv := by
    refine ⟨Vec.length_minus_of_length hu.1 hv.1, ?_⟩
    rw [Vec.euclid_minus (hu.1.trans hv.1.symm)]
    exact Submodule.sub_mem _ hu.2 hv.2
  scale a v hv := by
    refine ⟨(Vec.length_scale a v).trans hv.1, ?_⟩
    rw [Vec.euclid_scale]
    exact Submodule.smul_mem _ a hv.2

namespace LeastSquares

variable {A : Operator K} {b : Vec K} {tolerances : Tolerances K} {s : Recurrence K}

/-- The family has the vectors of the recurrence that belong to the columns. -/
structure Recurrence.IsIn (P : Vec K → Prop) (s : Recurrence K) : Prop where
  solution : P s.solution
  right : P s.right
  direction : P s.direction

theorem normalize_mem (hP : Vec.IsClosed n P) {v : Vec K} (hv : P v) (norm : K) :
    P (normalize v norm) := by
  unfold normalize
  split
  · exact hP.scale _ v hv
  · exact hv

section

variable (hP : Vec.IsClosed A.columnCount P) (hA : ∀ w, P (A.applyTransposed w))

include hP hA

theorem start_isIn : (start A b).IsIn P := by
  have himage : ∀ (positive : Bool) (left : Vec K),
      P (if positive then A.applyTransposed left else Vec.zeros A.columnCount) := by
    intro positive left
    split
    · exact hA left
    · exact hP.zeros
  exact ⟨hP.zeros, normalize_mem hP (himage _ _) _, normalize_mem hP (himage _ _) _⟩

/-- A step combines the vectors that it has with one product, also where a norm vanishes. -/
theorem step_isIn {limit : Int} {norm : K} (h : s.IsIn P) :
    (step A tolerances limit norm s).1.IsIn P := by
  have hnext : ∀ (positive : Bool) (left : Vec K) (beta : K),
      P (if positive then Vec.minus (A.applyTransposed left) (Vec.scale beta s.right)
        else s.right) := by
    intro positive left beta
    split
    · exact hP.minus _ _ (hA left) (hP.scale _ _ h.right)
    · exact h.right
  have hright : P (step A tolerances limit norm s).1.right := by
    simp only [step]
    split
    · exact normalize_mem hP (hnext true _ _) _
    · exact h.right
  exact ⟨hP.plus _ _ h.solution (hP.scale _ _ h.direction), hright,
    hP.plus _ _ hright (hP.scale _ _ h.direction)⟩

theorem iterate_isIn {limit : Int} {norm : K} {allowance : Nat} (h : s.IsIn P) :
    (iterate A tolerances limit norm allowance s).1.IsIn P := by
  induction allowance generalizing s with
  | zero => exact h
  | succ allowance ih =>
    have hnext : (step A tolerances limit norm s).1.IsIn P := step_isIn hP hA h
    rw [iterate]
    split
    · rename_i hstep
      rw [hstep] at hnext
      exact hnext
    · rename_i hstep
      rw [hstep] at hnext
      exact ih hnext

/-- A least-squares solution is in the family, however many steps were made and however they
ended. -/
theorem solve_mem {limit? : Option Int} {t : Solution K}
    (h : solve A b tolerances limit? = .ok t) : P t.vector := by
  unfold solve at h
  split at h
  · split at h
    · cases h
      have hrun : ∀ limit, (run A b tolerances limit).1.IsIn P := by
        intro limit
        unfold run
        simp only
        split
        · exact start_isIn hP hA
        · exact iterate_isIn hP hA (start_isIn hP hA)
      exact (hrun _).solution
    · cases h
      exact hP.zeros
  · cases h

end

theorem rows_of_solve {limit? : Option Int} {t : Solution K}
    (h : solve A b tolerances limit? = .ok t) : b.length = A.rowCount := by
  unfold solve at h
  split at h
  · rename_i hrows
    exact hrows.symm
  · cases h

theorem length_solve (hA : ∀ w, (A.applyTransposed w).length = A.columnCount)
    {limit? : Option Int} {t : Solution K} (h : solve A b tolerances limit? = .ok t) :
    t.vector.length = A.columnCount :=
  solve_mem (Vec.isClosed_length _) hA h

/-- The solver has an answer of the right length for every right side of the right length. -/
def Solver.Answers (solver : Solver K) (A : Operator K) : Prop :=
  ∀ b, b.length = A.rowCount → ∃ t, solver A b = .ok t ∧ t.vector.length = A.columnCount

omit [Scalar K] in
theorem Solver.Answers.length {solver : Solver K} (h : solver.Answers A)
    (hb : b.length = A.rowCount) {t : Solution K} (ht : solver A b = .ok t) :
    t.vector.length = A.columnCount := by
  obtain ⟨t', ht', hlength⟩ := h b hb
  rw [ht] at ht'
  cases ht'
  exact hlength

end LeastSquares

theorem SparseMatrix.HasShape.length_solve {J : SparseMatrix K} {m : Nat} {b : Vec K}
    {tolerances : LeastSquares.Tolerances K} {limit? : Option Int} {t : LeastSquares.Solution K}
    (h : J.HasShape m n) (hsolve : LeastSquares.solve J.operator b tolerances limit? = .ok t) :
    t.vector.length = n := by
  refine (LeastSquares.length_solve (fun w => ?_) hsolve).trans h.columnCount
  exact (h.length_applyTransposed w).trans h.columnCount.symm

variable {gaussNewton cauchy g Jg d : Vec K} {radius : K}

theorem cauchyStep_mem (hP : Vec.IsClosed n P) (hg : P g) {step : Vec K}
    (h : step ∈ cauchyStep g Jg) : P step := by
  unfold cauchyStep at h
  simp only at h
  split at h
  · cases h
  · cases h
    exact hP.scale _ g hg

theorem boundaryStep_mem (hP : Vec.IsClosed n P) (hg : P g) (radius : K) :
    P (boundaryStep g radius) := by
  unfold boundaryStep
  simp only
  split
  · rw [hP.length g hg]
    exact hP.zeros
  · exact hP.scale _ g hg

theorem secondLeg_mem (hP : Vec.IsClosed n P) (hgaussNewton : P gaussNewton) (hcauchy : P cauchy)
    (h : secondLeg gaussNewton cauchy radius = .ok d) : P d := by
  have hlength := (hP.length _ hgaussNewton).trans (hP.length _ hcauchy).symm
  cases hsquare : Scalar.square? radius with
  | none =>
    simp only [secondLeg, Counted.except_bind_eq_ok, hsquare] at h
    obtain ⟨_, -, _, -, h⟩ := h
    cases h
  | some square =>
    rw [secondLeg_eq hlength hsquare] at h
    cases h
    exact hP.plus _ _ hcauchy (hP.scale _ _ (hP.minus _ _ hgaussNewton hcauchy))

theorem dogleg_mem {cauchy : Option (Vec K)} (hP : Vec.IsClosed n P) (hgaussNewton : P gaussNewton)
    (hcauchy : ∀ step ∈ cauchy, P step) (hg : P g)
    (h : dogleg gaussNewton cauchy g radius = .ok d) : P d := by
  unfold dogleg at h
  split at h
  · cases h
  split at h
  · cases h
    exact hgaussNewton
  split at h
  · cases h
    exact boundaryStep_mem hP hg radius
  · rename_i step hstep
    exact secondLeg_mem hP hgaussNewton (hcauchy step (Option.filter_eq_some_iff.1 hstep).1) h

namespace NormalState

variable {p : Problem K} {options : NormalOptions K} {s s' : NormalState K} {t : Trial K}

theorem Makes.displacement_mem (h : s.Makes options.solver g Jg t)
    (haims : s.Aims options radius g Jg) (hP : Vec.IsClosed s.jacobian.columnCount P)
    (hJ : ∀ w, P (s.jacobian.applyTransposed w)) :
    P t.displacement := by
  obtain ⟨gaussNewton, hsolve, hdogleg⟩ := h.displacement
  have hg : P g := haims.gradient ▸ hJ _
  exact dogleg_mem hP (LeastSquares.solve_mem hP hJ hsolve) (fun _ => cauchyStep_mem hP hg) hg
    hdogleg

theorem Makes.length_displacement {solver : LeastSquares.Solver K} (h : s.Makes solver g Jg t)
    (haims : s.Aims options radius g Jg) (hsolver : solver.Answers s.jacobian.operator) :
    t.displacement.length = s.jacobian.columnCount := by
  obtain ⟨gaussNewton, hsolve, hdogleg⟩ := h.displacement
  have hclosed := Vec.isClosed_length (K := K) s.jacobian.columnCount
  have hlength := (Vec.length_negate s.constraints).trans haims.length
  exact dogleg_mem hclosed (hsolver.length hlength hsolve)
    (fun _ => cauchyStep_mem hclosed haims.gradient_length) haims.gradient_length hdogleg

theorem Decides.point_eq (h : s.Decides p options t s')
    (hlength : t.displacement.length = s.point.length) :
    t.point = Vec.plus s.point t.displacement := by
  have hpoint := h.point
  rw [Vec.add_of_length hlength.symm] at hpoint
  exact (Except.ok.inj hpoint).symm

end NormalState

end InfeasibilityControl
