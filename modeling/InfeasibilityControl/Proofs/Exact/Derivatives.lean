import Mathlib
import InfeasibilityControl.Model.Benchmark
import InfeasibilityControl.Proofs.Exact.Plane
import InfeasibilityControl.Proofs.Kkt.Assembly

set_option autoImplicit false
set_option relaxedAutoImplicit false

/-!
Problems whose evaluators report the derivatives of their functions, in exact arithmetic.

The benchmark problems do: their objectives and constraints are put together from smooth functions,
and the formulas of the evaluators are those that the rules of the calculus give.
-/

namespace InfeasibilityControl

open Counted (Always)
open scoped InnerProductSpace

/-- The evaluators of a problem report the values of two functions, their first derivatives, and, as
the matrix mirrored from its coordinates, the second derivative of each weighted sum of the two. -/
structure Problem.Differentiates (p : Problem ℝ) (n m : Nat) (f : EuclideanSpace ℝ (Fin n) → ℝ)
    (c : EuclideanSpace ℝ (Fin n) → EuclideanSpace ℝ (Fin m)) : Prop where
  objective : ∀ x, x.length = n → p.objective x = .ok (f (x.euclid n))
  constraints : ∀ x, x.length = n →
    ∃ values, p.constraints x = .ok values ∧ values.length = m ∧ values.euclid m = c (x.euclid n)
  gradient : ∀ x, x.length = n →
    ∃ g, p.gradient x = .ok g ∧ g.length = n ∧ HasGradientAt f (g.euclid n) (x.euclid n)
  jacobian : ∀ x, x.length = n → ∃ J, Always (p.jacobianAt x) J ∧ J.HasShape m n ∧
    HasFDerivAt c (J.linear m n).toContinuousLinearMap (x.euclid n)
  hessian : ∀ x y weight, x.length = n → y.length = m →
    ∃ values L, Always (p.hessianValuesAt x y weight) values ∧
      SparseMatrix.ofCoordinates n n p.hessianPattern values = .ok L ∧
      HasHessianAt (fun z => weight * f z + ⟪y.euclid m, c z⟫_ℝ)
        (tableMatrix n (mirror n L.toRows)) (x.euclid n)

/-- The table of the second partial derivatives of a weighted sum. -/
noncomputable def weightedSecond (f c : Smooth) (weight y : ℝ) (z : Plane) : List (Vec ℝ) :=
  [[weight * f.firstFirst z + y * c.firstFirst z, weight * f.firstSecond z + y * c.firstSecond z],
    [weight * f.firstSecond z + y * c.firstSecond z,
      weight * f.secondSecond z + y * c.secondSecond z]]

@[simp] theorem Vec.euclid_pair_zero (x₀ x₁ : ℝ) : Vec.euclid 2 [x₀, x₁] 0 = x₀ := rfl

@[simp] theorem Vec.euclid_pair_one (x₀ x₁ : ℝ) : Vec.euclid 2 [x₀, x₁] 1 = x₁ := rfl

theorem table_congr {a b c e a' b' c' e' : ℝ} (ha : a = a') (hb : b = b') (hc : c = c')
    (he : e = e') : ([[a, b], [c, e]] : List (Vec ℝ)) = [[a', b'], [c', e']] := by
  subst ha hb hc he
  rfl

/-- The functions of a model in two variables with one constraint are smooth, and what it gives for
derivatives are their partial derivatives. -/
structure DenseModel.Computes (d : DenseModel ℝ) (f c : Smooth) : Prop where
  objective : ∀ x₀ x₁, d.objective [x₀, x₁] = .ok (f.value (Vec.euclid 2 [x₀, x₁]))
  constraints : ∀ x₀ x₁, d.constraints [x₀, x₁] = .ok [c.value (Vec.euclid 2 [x₀, x₁])]
  gradient : ∀ x₀ x₁, d.gradient [x₀, x₁] =
    .ok [f.first (Vec.euclid 2 [x₀, x₁]), f.second (Vec.euclid 2 [x₀, x₁])]
  jacobian : ∀ x₀ x₁, d.jacobian [x₀, x₁] =
    .ok (.dense [[c.first (Vec.euclid 2 [x₀, x₁]), c.second (Vec.euclid 2 [x₀, x₁])]])
  hessian : ∀ x₀ x₁ y weight, d.hessian [x₀, x₁] [y] weight =
    .ok (weightedSecond f c weight y (Vec.euclid 2 [x₀, x₁]))

namespace DenseModel

variable {d : DenseModel ℝ} {p : Problem ℝ} {f c : Smooth}

/-- A weighted sum of two smooth functions. -/
noncomputable def weightedSum (f c : Smooth) (weight y : ℝ) : Smooth :=
  ((Smooth.const weight).mul f).add ((Smooth.const y).mul c)

theorem tableMatrix_weightedSecond (f c : Smooth) (weight y : ℝ) (z : Plane) :
    tableMatrix 2 (weightedSecond f c weight y z) =
      !![(weightedSum f c weight y).firstFirst z, (weightedSum f c weight y).firstSecond z;
        (weightedSum f c weight y).firstSecond z, (weightedSum f c weight y).secondSecond z] := by
  ext i j
  fin_cases i <;> fin_cases j <;>
    simp [tableMatrix, tableEntry, weightedSecond, weightedSum, Vec.coord]

theorem Computes.exists_jacobian (hd : d.Computes f c) (h : d.Describes 1 p)
    (hstart : d.start.length = 2) (x₀ x₁ : ℝ) :
    ∃ J, Always (p.jacobianAt [x₀, x₁]) J ∧ J.HasShape 1 2 ∧
      HasFDerivAt (fun z => Vec.euclid 1 [c.value z]) (J.linear 1 2).toContinuousLinearMap
        (Vec.euclid 2 [x₀, x₁]) := by
  have hshape : GivenMatrix.HasShape 1 d.start.length
      (.dense [[c.first (Vec.euclid 2 [x₀, x₁]), c.second (Vec.euclid 2 [x₀, x₁])]]) := by
    rw [hstart]
    exact ⟨rfl, by simp⟩
  obtain ⟨J, hJ, hcoordinates, hrows⟩ := h.exists_jacobian (hd.jacobian x₀ x₁) hshape
  rw [hstart] at hcoordinates
  refine ⟨J, Problem.jacobianAt_always hJ, SparseMatrix.ofCoordinates_hasShape hcoordinates, ?_⟩
  rw [← hasFDerivWithinAt_univ, hasFDerivWithinAt_euclidean]
  intro i
  rw [hasFDerivWithinAt_univ]
  obtain rfl := Subsingleton.elim i 0
  have hpartials : HasFDerivAt c.value _ (Vec.euclid 2 [x₀, x₁]) := c.partials _
  refine hpartials.congr_fderiv ?_
  ext v
  have hlinear : J.linear 1 2 v 0 = J.coeff 0 0 * v 0 + J.coeff 0 1 * v 1 := by
    rw [SparseMatrix.linear_apply, Fin.sum_univ_two]
    rfl
  have hzero : J.coeff 0 0 = c.first (Vec.euclid 2 [x₀, x₁]) := by
    rw [SparseMatrix.coeff, hrows]
    rfl
  have hone : J.coeff 0 1 = c.second (Vec.euclid 2 [x₀, x₁]) := by
    rw [SparseMatrix.coeff, hrows]
    rfl
  simp [hlinear, hzero, hone]

theorem Computes.differentiates (hd : d.Computes f c) (h : d.Describes 1 p)
    (hstart : d.start.length = 2) :
    p.Differentiates 2 1 f.value fun z => Vec.euclid 1 [c.value z] where
  objective x hx := by
    obtain ⟨x₀, x₁, rfl⟩ := List.length_eq_two.1 hx
    rw [h.objective]
    exact hd.objective x₀ x₁
  constraints x hx := by
    obtain ⟨x₀, x₁, rfl⟩ := List.length_eq_two.1 hx
    rw [h.constraints]
    exact ⟨_, hd.constraints x₀ x₁, rfl, rfl⟩
  gradient x hx := by
    obtain ⟨x₀, x₁, rfl⟩ := List.length_eq_two.1 hx
    rw [h.gradient]
    exact ⟨_, hd.gradient x₀ x₁, rfl, (f.partials _).hasGradientAt⟩
  jacobian x hx := by
    obtain ⟨x₀, x₁, rfl⟩ := List.length_eq_two.1 hx
    exact hd.exists_jacobian h hstart x₀ x₁
  hessian x y weight hx hy := by
    obtain ⟨x₀, x₁, rfl⟩ := List.length_eq_two.1 hx
    obtain ⟨y, rfl⟩ := List.length_eq_one_iff.1 hy
    have htable : IsTable d.start.length d.start.length
        (weightedSecond f c weight y (Vec.euclid 2 [x₀, x₁])) := by
      rw [hstart]
      exact ⟨rfl, by simp [weightedSecond]⟩
    have hsymmetric : IsSymmetric (weightedSecond f c weight y (Vec.euclid 2 [x₀, x₁])) := by
      rintro (_ | _ | i) (_ | _ | j) <;> simp [KktSystem.entry, weightedSecond]
    obtain ⟨L, hL, hmirror⟩ := h.exists_triangle htable hsymmetric
    have hvalues := Problem.hessianValuesAt_always
      (h.hessianValues_eq (hd.hessian x₀ x₁ y weight) htable)
    rw [hstart] at hL hmirror
    refine ⟨_, L, hvalues, hL, ?_⟩
    have hsum : (fun z => weight * f.value z + ⟪Vec.euclid 1 [y], Vec.euclid 1 [c.value z]⟫_ℝ) =
        (weightedSum f c weight y).value := by
      funext z
      simp [weightedSum, PiLp.inner_apply, Vec.euclid_apply, mul_comm]
    rw [hmirror, tableMatrix_weightedSecond, hsum]
    exact (weightedSum f c weight y).hasHessianAt _

end DenseModel

namespace Benchmark

open Smooth

/-- The sum of the squares of the coordinates. -/
noncomputable def squares : Smooth := (abscissa.mul abscissa).add (ordinate.mul ordinate)

theorem hasDerivAt_one_add_sq (t : ℝ) : HasDerivAt (fun t => 1 + t * t) (t + t) t := by
  have hsquare := ((hasDerivAt_id t).mul (hasDerivAt_id t)).const_add 1
  exact hsquare.congr_deriv (by simp only [id]; ring)

theorem one_add_sq_pos (t : ℝ) : 0 < 1 + t * t :=
  add_pos_of_pos_of_nonneg one_pos (mul_self_nonneg t)

theorem hasDerivAt_log_one_add_sq (t : ℝ) :
    HasDerivAt (fun t => Real.log (1 + t * t)) ((t + t) / (1 + t * t)) t :=
  (hasDerivAt_one_add_sq t).log (one_add_sq_pos t).ne'

theorem hasDerivAt_add_self_div (t : ℝ) : HasDerivAt (fun t => (t + t) / (1 + t * t))
    (((1 - t * t) + (1 - t * t)) / ((1 + t * t) * (1 + t * t))) t := by
  have hdouble : HasDerivAt (fun t => t + t) (1 + 1) t := (hasDerivAt_id t).add (hasDerivAt_id t)
  have hquotient := hdouble.div (hasDerivAt_one_add_sq t) (one_add_sq_pos t).ne'
  exact hquotient.congr_deriv (by ring)

/-- The objective with its derivatives. -/
noncomputable def smoothObjective : Benchmark → Smooth
  | .quadraticOnLine | .infeasibleCircle => squares
  | .parabolicValley =>
      let u := (const 1).add ((const (-1)).mul abscissa)
      u.mul u
  | .logarithmOnQuartic =>
      (abscissa.comp _ _ _ hasDerivAt_log_one_add_sq hasDerivAt_add_self_div).add
        ((const (-1)).mul ordinate)
  | .flatCircle =>
      ((const (-1)).mul abscissa).add ((const (10 : ℕ)).mul (squares.add (const (-1))))

/-- The constraint with its derivatives. -/
noncomputable def smoothConstraint : Benchmark → Smooth
  | .quadraticOnLine => (abscissa.add ordinate).add (const (-1))
  | .parabolicValley =>
      (const (10 : ℕ)).mul (ordinate.add ((const (-1)).mul (abscissa.mul abscissa)))
  | .logarithmOnQuartic =>
      let u := (const 1).add (abscissa.mul abscissa)
      ((u.mul u).add (ordinate.mul ordinate)).add (const (-(4 : ℕ)))
  | .flatCircle => squares.add (const (-1))
  | .infeasibleCircle => (abscissa.mul abscissa).add (const 1)

section

variable (b : Benchmark) (x₀ x₁ y weight : ℝ)

-- The evaluators write their numbers as decimals, which `norm_num` reads. What is then left is to
-- compare a formula with what the rules of the calculus make of another one.

theorem objective_eq :
    b.objective [x₀, x₁] = .ok (b.smoothObjective.value (Vec.euclid 2 [x₀, x₁])) := by
  cases b <;> refine congrArg Except.ok ?_ <;>
    simp [smoothObjective, squares, square, Scalar.real_logOnePlus] <;> norm_num <;> ring

theorem constraint_eq :
    b.constraint [x₀, x₁] = .ok [b.smoothConstraint.value (Vec.euclid 2 [x₀, x₁])] := by
  cases b <;> refine congrArg (fun a => Except.ok [a]) ?_ <;>
    simp [smoothConstraint, squares, square] <;> norm_num <;> ring

theorem gradient_eq : b.gradient [x₀, x₁] =
    .ok [b.smoothObjective.first (Vec.euclid 2 [x₀, x₁]),
      b.smoothObjective.second (Vec.euclid 2 [x₀, x₁])] := by
  cases b <;> refine congrArg₂ (fun a b => Except.ok [a, b]) ?_ ?_ <;>
    simp [smoothObjective, squares, square] <;> norm_num <;> ring

theorem jacobian_eq : b.jacobian [x₀, x₁] =
    .ok [[b.smoothConstraint.first (Vec.euclid 2 [x₀, x₁]),
      b.smoothConstraint.second (Vec.euclid 2 [x₀, x₁])]] := by
  cases b <;> refine congrArg₂ (fun a b => Except.ok [[a, b]]) ?_ ?_ <;>
    simp [smoothConstraint, squares, square] <;> norm_num <;> ring

theorem hessian_eq : b.hessian [x₀, x₁] [y] weight =
    .ok (weightedSecond b.smoothObjective b.smoothConstraint weight y
      (Vec.euclid 2 [x₀, x₁])) := by
  cases b <;> refine congrArg Except.ok (table_congr ?_ ?_ ?_ ?_) <;>
    simp [smoothObjective, smoothConstraint, squares, square] <;>
    norm_num [-mul_eq_mul_left_iff] <;> ring

end

theorem computes (b : Benchmark) (start : Vec ℝ) (time : ℝ) :
    (b.model start time).Computes b.smoothObjective b.smoothConstraint where
  objective := b.objective_eq
  constraints := b.constraint_eq
  gradient := b.gradient_eq
  jacobian x₀ x₁ := congrArg (Except.map GivenMatrix.dense) (b.jacobian_eq x₀ x₁)
  hessian := b.hessian_eq

/-- Every benchmark problem reports the derivatives of its objective and its constraint. -/
theorem problem_differentiates (b : Benchmark) (start : Vec ℝ) (hstart : start.length = 2)
    (time : ℝ) : ∃ p, (b.model start time).problem = .ok p ∧
      p.Differentiates 2 1 b.smoothObjective.value
        fun z => Vec.euclid 1 [b.smoothConstraint.value z] := by
  obtain ⟨p, hp, h⟩ := DenseModel.exists_problem (d := b.model start time) (m := 1) rfl rfl
  exact ⟨p, hp, (b.computes start time).differentiates h hstart⟩

/-- The problem with the logarithm and the quartic, with its functions written out. -/
theorem logarithmOnQuartic_differentiates :
    ([2, 2] : Vec ℝ).length = 2 ∧
    ∃ p, (logarithmOnQuartic.model [2, 2] 0).problem = .ok p ∧
      p.Differentiates 2 1 (fun z => Real.log (1 + z 0 * z 0) + -1 * z 1)
        fun z => Vec.euclid 1
          [(1 + z 0 * z 0) * (1 + z 0 * z 0) + z 1 * z 1 + -4] :=
  ⟨rfl, problem_differentiates .logarithmOnQuartic [2, 2] rfl 0⟩

end Benchmark

end InfeasibilityControl
