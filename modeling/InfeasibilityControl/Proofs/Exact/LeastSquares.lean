import Mathlib
import InfeasibilityControl.LeastSquares.Solve
import InfeasibilityControl.Proofs.Exact.Partial

set_option autoImplicit false
set_option relaxedAutoImplicit false

/-!
Least-squares solves in exact arithmetic.

The recurrence divides by norms, by rotated numbers and by what it has added up. None of these
divisors vanishes while it goes on: a step after which the next one could not be made satisfies the
normal equations, and this ends the recurrence whatever its tolerances are. A solve therefore gives
with partial numbers what it gives with real ones.
-/

namespace InfeasibilityControl

open PartialReal (of of_div of_sqrt)

theorem PartialReal.sign_of (a : ℝ) : Scalar.sign (of a) = of (Scalar.sign a) := by
  simp only [Scalar.sign, PartialReal.of_zero, PartialReal.of_one, PartialReal.of_lt,
    PartialReal.of_beq, PartialReal.of_neg]
  split
  · rfl
  split
  · rfl
  split
  · rfl
  · rfl

theorem PartialReal.abs_of (a : ℝ) : Scalar.abs (of a) = of (Scalar.abs a) := rfl

theorem Vec.isNonzero_asPartial (v : Vec ℝ) : Vec.isNonzero v.asPartial = Vec.isNonzero v := by
  simp [Vec.isNonzero, Vec.asPartial, Function.comp_def]

/-- An operator on partial numbers that does to vectors of numbers what the real one does. -/
structure Operator.Extends (A' : Operator PartialReal) (A : Operator ℝ) : Prop where
  rowCount : A'.rowCount = A.rowCount
  columnCount : A'.columnCount = A.columnCount
  apply : ∀ v, A'.apply v.asPartial = (A.apply v).asPartial
  applyTransposed : ∀ w, A'.applyTransposed w.asPartial = (A.applyTransposed w).asPartial

namespace SparseMatrix

/-- A matrix of entries that are all numbers. -/
def asPartial (A : SparseMatrix ℝ) : SparseMatrix PartialReal :=
  ⟨A.rowCount, A.columnCount, A.rows.map fun row => row.map (Option.map of)⟩

variable {A : SparseMatrix ℝ}

theorem rowProduct_asPartial (row : List (Option ℝ)) (v : Vec ℝ) :
    rowProduct (row.map (Option.map of)) v.asPartial = of (rowProduct row v) := by
  unfold rowProduct
  rw [Vec.asPartial, List.zip_map, PartialReal.of_zero]
  generalize (0 : ℝ) = sum
  induction row.zip v generalizing sum with
  | nil => rfl
  | cons p pairs ih =>
    rcases p with ⟨_ | a, b⟩
    · exact ih sum
    · exact ih (sum + a * b)

theorem apply_asPartial (A : SparseMatrix ℝ) (v : Vec ℝ) :
    A.asPartial.apply v.asPartial = (A.apply v).asPartial := by
  simp [apply, asPartial, Vec.asPartial, ← rowProduct_asPartial]

theorem addRow_asPartial (factor : ℝ) (sum : Vec ℝ) (row : List (Option ℝ)) :
    addRow (of factor) sum.asPartial (row.map (Option.map of)) =
      (addRow factor sum row).asPartial := by
  rw [addRow, addRow, Vec.asPartial, Vec.asPartial, List.zipWith_map, List.map_zipWith]
  congr 1
  funext s entry
  cases entry <;> rfl

theorem applyTransposed_asPartial (A : SparseMatrix ℝ) (w : Vec ℝ) :
    A.asPartial.applyTransposed w.asPartial = (A.applyTransposed w).asPartial := by
  unfold applyTransposed
  rw [asPartial, Vec.asPartial, List.zip_map, Vec.zeros_asPartial]
  generalize (Vec.zeros A.columnCount : Vec ℝ) = sum
  induction A.rows.zip w generalizing sum with
  | nil => rfl
  | cons p pairs ih =>
    rw [List.map_cons, List.foldl_cons, List.foldl_cons, ← ih, ← addRow_asPartial]
    rfl

theorem operator_extends (A : SparseMatrix ℝ) : A.asPartial.operator.Extends A.operator :=
  ⟨rfl, rfl, A.apply_asPartial, A.applyTransposed_asPartial⟩

end SparseMatrix

namespace LeastSquares

/-- Tolerances that are both numbers. -/
def Tolerances.asPartial (t : Tolerances ℝ) : Tolerances PartialReal :=
  ⟨of t.operator, of t.rightSide⟩

/-- A recurrence whose quantities are all numbers. -/
def Recurrence.asPartial (s : Recurrence ℝ) : Recurrence PartialReal where
  solution := s.solution.asPartial
  left := s.left.asPartial
  right := s.right.asPartial
  direction := s.direction.asPartial
  alpha := of s.alpha
  rhoBar := of s.rhoBar
  phiBar := of s.phiBar
  operatorNorm := of s.operatorNorm
  directionSum := of s.directionSum
  solutionSum := of s.solutionSum
  z := of s.z
  cosine := of s.cosine
  sine := of s.sine
  steps := s.steps
  products := s.products
  transposedProducts := s.transposedProducts

/-- A solution whose entries are all numbers. -/
def Solution.asPartial (s : Solution ℝ) : Solution PartialReal :=
  ⟨s.vector.asPartial, s.converged, s.steps, s.limit, s.columns, s.products, s.transposedProducts⟩

theorem precision_of : (precision : PartialReal) = of precision := rfl

theorem precision_pos : (0 : ℝ) < precision := by
  have hvalue : (0 : ℝ) < 2.220446049250313080847263336181640625e-16 := by norm_num
  exact hvalue

theorem conditionTolerance_pos : (0 : ℝ) < conditionTolerance := by
  have hvalue : (0 : ℝ) < 1e-8 := by norm_num
  exact hvalue

theorem sign_ne_zero {a : ℝ} (h : a ≠ 0) : Scalar.sign a ≠ 0 := by
  unfold Scalar.sign
  split
  · exact one_ne_zero
  split
  · exact neg_ne_zero.2 one_ne_zero
  split
  · rename_i hzero
    exact absurd (by simpa [Scalar.real_beq] using hzero) h
  · exact h

theorem sqrt_one_add_pos (t : ℝ) : 0 < Scalar.sqrt (1 + t * t) :=
  Real.sqrt_pos.2 (by linarith [mul_self_nonneg t])

theorem rotation_asPartial (a b : ℝ) :
    rotation (of a) (of b) =
      (of (rotation a b).1, of (rotation a b).2.1, of (rotation a b).2.2) := by
  have hroot : ∀ t : ℝ, Scalar.sqrt (of (1 + t * t)) = of (Scalar.sqrt (1 + t * t)) := fun t =>
    of_sqrt (by linarith [mul_self_nonneg t])
  simp only [rotation, PartialReal.of_zero, PartialReal.of_one, PartialReal.of_beq,
    PartialReal.abs_of, PartialReal.of_lt, PartialReal.sign_of]
  split
  · rfl
  rename_i hb
  split
  · rfl
  rename_i ha
  have ha : a ≠ 0 := by simpa [Scalar.real_beq] using ha
  have hb : b ≠ 0 := by simpa [Scalar.real_beq] using hb
  split
  · have hsine : Scalar.sign b / Scalar.sqrt (1 + a / b * (a / b)) ≠ 0 :=
      div_ne_zero (sign_ne_zero hb) (sqrt_one_add_pos _).ne'
    simp only [of_div hb, PartialReal.of_mul, PartialReal.of_add, hroot,
      of_div (sqrt_one_add_pos _).ne', of_div hsine]
  · have hcosine : Scalar.sign a / Scalar.sqrt (1 + b / a * (b / a)) ≠ 0 :=
      div_ne_zero (sign_ne_zero ha) (sqrt_one_add_pos _).ne'
    simp only [of_div ha, PartialReal.of_mul, PartialReal.of_add, hroot,
      of_div (sqrt_one_add_pos _).ne', of_div hcosine]

theorem rotation_ne_zero {a b : ℝ} (ha : a ≠ 0) : (rotation a b).2.2 ≠ 0 := by
  unfold rotation
  split
  · exact abs_ne_zero.2 ha
  rename_i hb
  have hb : b ≠ 0 := by simpa [Scalar.real_beq] using hb
  split
  · exact abs_ne_zero.2 hb
  split
  · exact div_ne_zero hb (div_ne_zero (sign_ne_zero hb) (sqrt_one_add_pos _).ne')
  · exact div_ne_zero ha (div_ne_zero (sign_ne_zero ha) (sqrt_one_add_pos _).ne')

theorem normalize_asPartial (v : Vec ℝ) (norm : ℝ) :
    normalize v.asPartial (of norm) = (normalize v norm).asPartial := by
  unfold normalize
  simp only [PartialReal.of_zero, PartialReal.of_lt, PartialReal.of_one]
  split
  · rename_i hnorm
    rw [of_div hnorm.ne', Vec.scale_asPartial]
  · rfl

section

variable {K : Type} [Scalar K]

/-- The next vectors of the two bases, with their norms and the estimate of the operator's. -/
structure Extension (K : Type) where
  left : Vec K
  right : Vec K
  alpha : K
  beta : K
  operatorNorm : K
  positive : Bool

/-- The part of a step that makes products. -/
def Recurrence.extend (A : Operator K) (s : Recurrence K) : Extension K :=
  let nextLeft := Vec.minus (A.apply s.right) (Vec.scale s.alpha s.left)
  let beta := Vec.norm nextLeft
  let positive := decide ((0 : K) < beta)
  let left := normalize nextLeft beta
  let nextRight :=
    if positive then Vec.minus (A.applyTransposed left) (Vec.scale beta s.right) else s.right
  let alpha := if positive then Vec.norm nextRight else s.alpha
  { left
    right := if positive then normalize nextRight alpha else s.right
    alpha
    beta
    operatorNorm :=
      if positive then
        Scalar.sqrt (s.operatorNorm * s.operatorNorm + s.alpha * s.alpha + beta * beta)
      else s.operatorNorm
    positive }

/-- The quantities after a rotation by a cosine `c` and a sine `sn` to `rho`. -/
def Recurrence.rotated (s : Recurrence K) (e : Extension K) (c sn rho : K) : Recurrence K :=
  let theta := sn * e.alpha
  let phi := c * s.phiBar
  let delta := s.sine * rho
  let gammaBar := -s.cosine * rho
  let rest := phi - delta * s.z
  let gamma := Scalar.sqrt (gammaBar * gammaBar + theta * theta)
  let z := rest / gamma
  let scaledNorm := Vec.norm (Vec.scale (1 / rho) s.direction)
  { solution := Vec.plus s.solution (Vec.scale (phi / rho) s.direction)
    left := e.left
    right := e.right
    direction := Vec.plus e.right (Vec.scale (-theta / rho) s.direction)
    alpha := e.alpha
    rhoBar := -c * e.alpha
    phiBar := sn * s.phiBar
    operatorNorm := e.operatorNorm
    directionSum := s.directionSum + scaledNorm * scaledNorm
    solutionSum := s.solutionSum + z * z
    z
    cosine := gammaBar / gamma
    sine := theta / gamma
    steps := s.steps + 1
    products := s.products + 1
    transposedProducts := s.transposedProducts + if e.positive then 1 else 0 }

/-- What the tests at the end of a step compare. -/
structure Measures (K : Type) where
  test1 : K
  test2 : K
  test3 : K
  scaledTest1 : K
  allowed : K

/-- The measures after a rotation. -/
def Recurrence.measure (tolerances : Tolerances K) (rightSideNorm : K) (s : Recurrence K)
    (e : Extension K) (c sn rho : K) : Measures K :=
  let phi := c * s.phiBar
  let phiBar := sn * s.phiBar
  let tau := sn * phi
  let next := s.rotated e c sn rho
  let zBar := (phi - s.sine * rho * s.z) / (-s.cosine * rho)
  let solutionNorm := Scalar.sqrt (s.solutionSum + zBar * zBar)
  let condition := e.operatorNorm * Scalar.sqrt next.directionSum
  let residual := Scalar.sqrt (phiBar * phiBar)
  let normalResidual := e.alpha * Scalar.abs tau
  let test1 := residual / rightSideNorm
  { test1
    test2 := normalResidual / (e.operatorNorm * residual + precision)
    test3 := 1 / (condition + precision)
    scaledTest1 := test1 / (1 + e.operatorNorm * solutionNorm / rightSideNorm)
    allowed :=
      tolerances.rightSide + tolerances.operator * e.operatorNorm * solutionNorm / rightSideNorm }

/-- The test that ends the recurrence after a step, if one does. -/
def Measures.ending (m : Measures K) (tolerance : K) (limit steps : Int) : Option Ending :=
  if m.test1 ≤ m.allowed then some .residual
  else if m.test2 ≤ tolerance then some .normalEquations
  else if m.test3 ≤ conditionTolerance then some .condition
  else if 1 + m.scaledTest1 ≤ (1 : K) then some .residualPrecision
  else if 1 + m.test2 ≤ (1 : K) then some .normalEquationsPrecision
  else if 1 + m.test3 ≤ (1 : K) then some .conditionPrecision
  else if limit ≤ steps then some .stepLimit
  else none

theorem step_eq (A : Operator K) (tolerances : Tolerances K) (limit : Int) (rightSideNorm : K)
    (s : Recurrence K) :
    step A tolerances limit rightSideNorm s =
      let e := s.extend A
      let r := rotation s.rhoBar e.beta
      (s.rotated e r.1 r.2.1 r.2.2,
        (s.measure tolerances rightSideNorm e r.1 r.2.1 r.2.2).ending tolerances.operator limit
          (s.steps + 1 : Nat)) := rfl

end

open PartialReal (of_zero of_one of_add of_sub of_mul of_neg of_lt of_le of_scientific abs_of)

/-- An extension whose quantities are all numbers. -/
def Extension.asPartial (e : Extension ℝ) : Extension PartialReal where
  left := e.left.asPartial
  right := e.right.asPartial
  alpha := of e.alpha
  beta := of e.beta
  operatorNorm := of e.operatorNorm
  positive := e.positive

/-- Measures that are all numbers. -/
def Measures.asPartial (m : Measures ℝ) : Measures PartialReal :=
  ⟨of m.test1, of m.test2, of m.test3, of m.scaledTest1, of m.allowed⟩

variable {A' : Operator PartialReal} {A : Operator ℝ} {tolerances : Tolerances ℝ}
  {rightSideNorm c sn rho : ℝ} {s : Recurrence ℝ} {e : Extension ℝ}

theorem extend_asPartial (hA : A'.Extends A) (s : Recurrence ℝ) :
    s.asPartial.extend A' = (s.extend A).asPartial := by
  have hsum : ∀ a b c : ℝ, 0 ≤ a * a + b * b + c * c := fun a b c =>
    add_nonneg (add_nonneg (mul_self_nonneg a) (mul_self_nonneg b)) (mul_self_nonneg c)
  simp only [Recurrence.extend, Recurrence.asPartial, hA.apply, Vec.scale_asPartial,
    Vec.minus_asPartial, Vec.norm_asPartial, of_zero, of_lt, normalize_asPartial,
    hA.applyTransposed, of_mul, of_add, of_sqrt (hsum _ _ _)]
  split
  · simp [Extension.asPartial, *, Vec.norm_asPartial, normalize_asPartial]
  · simp [Extension.asPartial, *]

theorem rotated_asPartial (hrho : rho ≠ 0) (hcosine : s.cosine ≠ 0) :
    s.asPartial.rotated e.asPartial (of c) (of sn) (of rho) =
      (s.rotated e c sn rho).asPartial := by
  have hgammaBar : -s.cosine * rho ≠ 0 := mul_ne_zero (neg_ne_zero.2 hcosine) hrho
  have hsquares : 0 < -s.cosine * rho * (-s.cosine * rho) + sn * e.alpha * (sn * e.alpha) :=
    add_pos_of_pos_of_nonneg (mul_self_pos.2 hgammaBar) (mul_self_nonneg _)
  have hgamma : Scalar.sqrt (-s.cosine * rho * (-s.cosine * rho) + sn * e.alpha * (sn * e.alpha)) ≠
      0 := (Real.sqrt_pos.2 hsquares).ne'
  simp only [Recurrence.rotated, Recurrence.asPartial, Extension.asPartial, of_mul, of_neg, of_sub,
    of_add, of_one, of_div hrho, of_sqrt hsquares.le, of_div hgamma, Vec.scale_asPartial,
    Vec.plus_asPartial, Vec.norm_asPartial]
  rfl

/-- The numbers that a step divides by, and those that it takes the root of. -/
structure Recurrence.IsDefined (s : Recurrence ℝ) : Prop where
  rhoBar : s.rhoBar ≠ 0
  cosine : s.cosine ≠ 0
  operatorNorm : 0 ≤ s.operatorNorm
  directionSum : 0 ≤ s.directionSum
  solutionSum : 0 ≤ s.solutionSum

theorem measure_asPartial (hnorm : 0 < rightSideNorm) (hrho : rho ≠ 0) (hs : s.IsDefined)
    (he : 0 ≤ e.operatorNorm) :
    s.asPartial.measure tolerances.asPartial (of rightSideNorm) e.asPartial (of c) (of sn)
      (of rho) = (s.measure tolerances rightSideNorm e c sn rho).asPartial := by
  have hgammaBar : -s.cosine * rho ≠ 0 := mul_ne_zero (neg_ne_zero.2 hs.cosine) hrho
  have hroot : ∀ a : ℝ, 0 ≤ Scalar.sqrt a := Real.sqrt_nonneg
  have hnext : 0 ≤ (s.rotated e c sn rho).directionSum :=
    add_nonneg hs.directionSum (mul_self_nonneg _)
  have hsolution : ∀ a : ℝ, 0 ≤ s.solutionSum + a * a := fun a =>
    add_nonneg hs.solutionSum (mul_self_nonneg a)
  have hresidual : ∀ a : ℝ, e.operatorNorm * Scalar.sqrt a + precision ≠ 0 := fun a =>
    (add_pos_of_nonneg_of_pos (mul_nonneg he (hroot a)) precision_pos).ne'
  have hscaled : ∀ a : ℝ, 1 + e.operatorNorm * Scalar.sqrt a / rightSideNorm ≠ 0 := fun a =>
    (add_pos_of_pos_of_nonneg one_pos (div_nonneg (mul_nonneg he (hroot a)) hnorm.le)).ne'
  simp only [Recurrence.measure, rotated_asPartial hrho hs.cosine]
  simp only [Recurrence.asPartial, Extension.asPartial, Tolerances.asPartial, Measures.asPartial,
    precision_of, abs_of, of_mul, of_neg, of_sub, of_add, of_one, of_div hgammaBar,
    of_sqrt (hsolution _), of_sqrt hnext, of_sqrt (mul_self_nonneg _), of_div hnorm.ne',
    of_div (hresidual _), of_div (hscaled _)]

theorem ending_asPartial (m : Measures ℝ) (tolerance : ℝ) (limit steps : Int) :
    m.asPartial.ending (of tolerance) limit steps = m.ending tolerance limit steps := by
  have hcondition : (conditionTolerance : PartialReal) = of conditionTolerance := rfl
  simp only [Measures.ending, Measures.asPartial, hcondition, of_one, of_add, of_le]

theorem operatorNorm_extend_nonneg (A : Operator ℝ) (h : 0 ≤ s.operatorNorm) :
    0 ≤ (s.extend A).operatorNorm := by
  unfold Recurrence.extend
  dsimp only
  split
  · exact Real.sqrt_nonneg _
  · exact h

theorem step_asPartial (hA : A'.Extends A) (hnorm : 0 < rightSideNorm) (hs : s.IsDefined)
    (tolerances : Tolerances ℝ) (limit : Int) :
    step A' tolerances.asPartial limit (of rightSideNorm) s.asPartial =
      Prod.map Recurrence.asPartial id (step A tolerances limit rightSideNorm s) := by
  have hrho := rotation_ne_zero (b := (s.extend A).beta) hs.rhoBar
  have he := operatorNorm_extend_nonneg A hs.operatorNorm
  have hrotation : rotation s.asPartial.rhoBar (s.extend A).asPartial.beta = _ :=
    rotation_asPartial s.rhoBar (s.extend A).beta
  simp only [step_eq, extend_asPartial hA, hrotation, rotated_asPartial hrho hs.cosine,
    measure_asPartial hnorm hrho hs he]
  exact Prod.ext rfl (ending_asPartial _ _ _ _)

theorem Measures.test2_pos {m : Measures ℝ} {tolerance : ℝ} {limit steps : Int}
    (h : m.ending tolerance limit steps = none) : 0 < m.test2 := by
  unfold Measures.ending at h
  split at h
  · cases h
  split at h
  · cases h
  split at h
  · cases h
  split at h
  · cases h
  split at h
  · cases h
  · rename_i hprecision
    linarith [not_le.1 hprecision]

theorem factors_ne_zero {limit : Int}
    (h : (step A tolerances limit rightSideNorm s).2 = none) :
    (s.extend A).alpha ≠ 0 ∧ (rotation s.rhoBar (s.extend A).beta).1 ≠ 0 ∧
      (rotation s.rhoBar (s.extend A).beta).2.1 ≠ 0 := by
  rw [step_eq] at h
  have htest := (Measures.test2_pos h).ne'
  obtain ⟨hnumerator, -⟩ := div_ne_zero_iff.1 htest
  obtain ⟨halpha, htau⟩ := mul_ne_zero_iff.1 hnumerator
  obtain ⟨hsn, hphi⟩ := mul_ne_zero_iff.1 (abs_ne_zero.1 htau)
  exact ⟨halpha, (mul_ne_zero_iff.1 hphi).1, hsn⟩

/-- The numbers that the next step divides by do not vanish unless the recurrence ends. -/
theorem Recurrence.IsDefined.step (hs : s.IsDefined) {limit : Int}
    (h : (LeastSquares.step A tolerances limit rightSideNorm s).2 = none) :
    (LeastSquares.step A tolerances limit rightSideNorm s).1.IsDefined := by
  obtain ⟨halpha, hc, -⟩ := factors_ne_zero h
  rw [step_eq]
  have hrho := rotation_ne_zero (b := (s.extend A).beta) hs.rhoBar
  have hgammaBar := mul_ne_zero (neg_ne_zero.2 hs.cosine) hrho
  refine ⟨mul_ne_zero (neg_ne_zero.2 hc) halpha, ?_, operatorNorm_extend_nonneg A hs.operatorNorm,
    add_nonneg hs.directionSum (mul_self_nonneg _), add_nonneg hs.solutionSum (mul_self_nonneg _)⟩
  refine div_ne_zero hgammaBar (Real.sqrt_pos.2 ?_).ne'
  exact add_pos_of_pos_of_nonneg (mul_self_pos.2 hgammaBar) (mul_self_nonneg _)

theorem isDefined_start {b : Vec ℝ} (h : (start A b).alpha * (start A b).phiBar ≠ 0) :
    (start A b).IsDefined :=
  ⟨(mul_ne_zero_iff.1 h).1, neg_ne_zero.2 one_ne_zero, le_rfl, le_rfl, le_rfl⟩

theorem iterate_asPartial (hA : A'.Extends A) (hnorm : 0 < rightSideNorm) (hs : s.IsDefined)
    (limit : Int) (allowance : Nat) :
    iterate A' tolerances.asPartial limit (of rightSideNorm) allowance s.asPartial =
      Prod.map Recurrence.asPartial id
        (iterate A tolerances limit rightSideNorm allowance s) := by
  induction allowance generalizing s with
  | zero => rfl
  | succ allowance ih =>
    simp only [iterate, step_asPartial hA hnorm hs]
    rcases hstep : LeastSquares.step A tolerances limit rightSideNorm s with ⟨next, _ | ending⟩
    · have hnext := hs.step (congrArg Prod.snd hstep)
      rw [hstep] at hnext
      exact ih hnext
    · rfl

theorem start_asPartial (hA : A'.Extends A) (b : Vec ℝ) :
    start A' b.asPartial = (start A b).asPartial := by
  simp only [start, Vec.norm_asPartial, of_zero, of_lt, of_one, of_neg, normalize_asPartial,
    hA.applyTransposed, hA.columnCount, Vec.zeros_asPartial]
  split
  · simp [Recurrence.asPartial, *, Vec.norm_asPartial, normalize_asPartial]
  · simp [Recurrence.asPartial, *, normalize_asPartial]

theorem run_asPartial (hA : A'.Extends A) (b : Vec ℝ) (limit : Int) :
    run A' b.asPartial tolerances.asPartial limit =
      Prod.map Recurrence.asPartial id (run A b tolerances limit) := by
  have hfirst : ((start A b).asPartial.alpha * (start A b).asPartial.phiBar == 0) =
      ((start A b).alpha * (start A b).phiBar == 0) := PartialReal.of_beq
  simp only [run, start_asPartial hA, hfirst]
  split
  · rfl
  · rename_i hnonzero
    have hproduct : (start A b).alpha * (start A b).phiBar ≠ 0 := by
      simpa [Scalar.real_beq, not_or] using hnonzero
    have hnorm : 0 < Vec.norm b :=
      lt_of_le_of_ne (Vec.norm_nonneg b) (mul_ne_zero_iff.1 hproduct).2.symm
    exact iterate_asPartial hA hnorm (isDefined_start hproduct) _ _

/-- A least-squares solve is made without an operation that has no result. -/
theorem solve_asPartial (hA : A'.Extends A) (b : Vec ℝ) (tolerances : Tolerances ℝ)
    (limit? : Option Int) :
    solve A' b.asPartial tolerances.asPartial limit? =
      (solve A b tolerances limit?).map Solution.asPartial := by
  unfold solve
  simp only [hA.rowCount, hA.columnCount, Vec.length_asPartial, Vec.isNonzero_asPartial,
    run_asPartial hA, Vec.zeros_asPartial]
  split
  · split
    · rfl
    · rfl
  · rfl

end LeastSquares

end InfeasibilityControl
