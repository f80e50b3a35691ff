import Mathlib
import InfeasibilityControl.Proofs.Exact.Euclidean

set_option autoImplicit false
set_option relaxedAutoImplicit false

/-!
Functions of two variables that carry their derivatives.

A smooth function comes with its partial derivatives of first and second order. Sums, products and
compositions are made of smooth functions, and their derivatives by the rules of the calculus, so
that a formula for a function yields formulas for its gradient and for the derivative of that.
-/

namespace InfeasibilityControl

/-- The function has a gradient everywhere, and the matrix is the derivative of it at the point. -/
structure HasHessianAt {n : Nat} (f : EuclideanSpace ℝ (Fin n) → ℝ)
    (M : Matrix (Fin n) (Fin n) ℝ) (x : EuclideanSpace ℝ (Fin n)) : Prop where
  differentiable : Differentiable ℝ f
  derivative : HasFDerivAt (gradient f) (Matrix.toEuclideanLin M).toContinuousLinearMap x

/-- The points with two coordinates. -/
abbrev Plane := EuclideanSpace ℝ (Fin 2)

/-- The function has these partial derivatives at a point, and they make up its derivative. -/
def HasPartials (f : Plane → ℝ) (a b : ℝ) (z : Plane) : Prop :=
  HasFDerivAt f (a • EuclideanSpace.proj 0 + b • EuclideanSpace.proj 1 : Plane →L[ℝ] ℝ) z

namespace HasPartials

variable {f g : Plane → ℝ} {a b c e : ℝ} {z : Plane}

theorem congr (h : HasPartials f a b z) (ha : a = c) (hb : b = e) : HasPartials f c e z := by
  subst ha hb
  exact h

theorem const (c : ℝ) (z : Plane) : HasPartials (fun _ => c) 0 0 z := by
  unfold HasPartials
  rw [zero_smul, zero_smul, add_zero]
  exact hasFDerivAt_const c z

theorem coordinate_zero (z : Plane) : HasPartials (fun z => z 0) 1 0 z := by
  unfold HasPartials
  rw [one_smul, zero_smul, add_zero]
  exact (EuclideanSpace.proj 0 : Plane →L[ℝ] ℝ).hasFDerivAt

theorem coordinate_one (z : Plane) : HasPartials (fun z => z 1) 0 1 z := by
  unfold HasPartials
  rw [one_smul, zero_smul, zero_add]
  exact (EuclideanSpace.proj 1 : Plane →L[ℝ] ℝ).hasFDerivAt

theorem add (hf : HasPartials f a b z) (hg : HasPartials g c e z) :
    HasPartials (fun z => f z + g z) (a + c) (b + e) z := by
  refine (HasFDerivAt.add hf hg).congr_fderiv ?_
  module

theorem mul (hf : HasPartials f a b z) (hg : HasPartials g c e z) :
    HasPartials (fun z => f z * g z) (a * g z + f z * c) (b * g z + f z * e) z := by
  refine (HasFDerivAt.mul hf hg).congr_fderiv ?_
  module

theorem comp {h : ℝ → ℝ} {t : ℝ} (hh : HasDerivAt h t (f z)) (hf : HasPartials f a b z) :
    HasPartials (fun z => h (f z)) (t * a) (t * b) z := by
  refine (hh.comp_hasFDerivAt z hf).congr_fderiv ?_
  module

theorem hasGradientAt (h : HasPartials f a b z) : HasGradientAt f (Vec.euclid 2 [a, b]) z := by
  refine HasFDerivAt.congr_fderiv h ?_
  ext v
  simp [PiLp.inner_apply, Fin.sum_univ_two, Vec.euclid_apply, mul_comm]

end HasPartials

/-- A function of two variables with its partial derivatives of first and second order. -/
structure Smooth where
  value : Plane → ℝ
  first : Plane → ℝ
  second : Plane → ℝ
  firstFirst : Plane → ℝ
  firstSecond : Plane → ℝ
  secondSecond : Plane → ℝ
  partials : ∀ z, HasPartials value (first z) (second z) z
  first_partials : ∀ z, HasPartials first (firstFirst z) (firstSecond z) z
  second_partials : ∀ z, HasPartials second (firstSecond z) (secondSecond z) z

namespace Smooth

/-- The function that is the same everywhere. -/
@[simps] def const (c : ℝ) : Smooth where
  value _ := c
  first _ := 0
  second _ := 0
  firstFirst _ := 0
  firstSecond _ := 0
  secondSecond _ := 0
  partials := HasPartials.const c
  first_partials := HasPartials.const 0
  second_partials := HasPartials.const 0

/-- The first coordinate. -/
@[simps] def abscissa : Smooth where
  value z := z 0
  first _ := 1
  second _ := 0
  firstFirst _ := 0
  firstSecond _ := 0
  secondSecond _ := 0
  partials := HasPartials.coordinate_zero
  first_partials := HasPartials.const 1
  second_partials := HasPartials.const 0

/-- The second coordinate. -/
@[simps] def ordinate : Smooth where
  value z := z 1
  first _ := 0
  second _ := 1
  firstFirst _ := 0
  firstSecond _ := 0
  secondSecond _ := 0
  partials := HasPartials.coordinate_one
  first_partials := HasPartials.const 0
  second_partials := HasPartials.const 1

/-- The sum of two functions. -/
@[simps] def add (f g : Smooth) : Smooth where
  value z := f.value z + g.value z
  first z := f.first z + g.first z
  second z := f.second z + g.second z
  firstFirst z := f.firstFirst z + g.firstFirst z
  firstSecond z := f.firstSecond z + g.firstSecond z
  secondSecond z := f.secondSecond z + g.secondSecond z
  partials z := (f.partials z).add (g.partials z)
  first_partials z := (f.first_partials z).add (g.first_partials z)
  second_partials z := (f.second_partials z).add (g.second_partials z)

/-- The product of two functions. -/
@[simps] def mul (f g : Smooth) : Smooth where
  value z := f.value z * g.value z
  first z := f.first z * g.value z + f.value z * g.first z
  second z := f.second z * g.value z + f.value z * g.second z
  firstFirst z := f.firstFirst z * g.value z + f.first z * g.first z + f.first z * g.first z +
    f.value z * g.firstFirst z
  firstSecond z := f.firstSecond z * g.value z + f.first z * g.second z + f.second z * g.first z +
    f.value z * g.firstSecond z
  secondSecond z := f.secondSecond z * g.value z + f.second z * g.second z +
    f.second z * g.second z + f.value z * g.secondSecond z
  partials z := (f.partials z).mul (g.partials z)
  first_partials z :=
    (((f.first_partials z).mul (g.partials z)).add
      ((f.partials z).mul (g.first_partials z))).congr (by ring) (by ring)
  second_partials z :=
    (((f.second_partials z).mul (g.partials z)).add
      ((f.partials z).mul (g.second_partials z))).congr (by ring) (by ring)

/-- A function of one variable, given with its derivatives, of the values of a function. -/
@[simps] def comp (h h' h'' : ℝ → ℝ) (hh : ∀ t, HasDerivAt h (h' t) t)
    (hh' : ∀ t, HasDerivAt h' (h'' t) t) (f : Smooth) : Smooth where
  value z := h (f.value z)
  first z := h' (f.value z) * f.first z
  second z := h' (f.value z) * f.second z
  firstFirst z := h'' (f.value z) * f.first z * f.first z + h' (f.value z) * f.firstFirst z
  firstSecond z := h'' (f.value z) * f.second z * f.first z + h' (f.value z) * f.firstSecond z
  secondSecond z := h'' (f.value z) * f.second z * f.second z + h' (f.value z) * f.secondSecond z
  partials z := (f.partials z).comp (hh _)
  first_partials z := ((f.partials z).comp (hh' _)).mul (f.first_partials z)
  second_partials z :=
    (((f.partials z).comp (hh' _)).mul (f.second_partials z)).congr (by ring) rfl

theorem hasHessianAt (f : Smooth) (z : Plane) : HasHessianAt f.value
    !![f.firstFirst z, f.firstSecond z; f.firstSecond z, f.secondSecond z] z := by
  have hgradient : gradient f.value = fun z => Vec.euclid 2 [f.first z, f.second z] :=
    funext fun z => (f.partials z).hasGradientAt.gradient
  refine ⟨fun z => (f.partials z).hasGradientAt.differentiableAt, ?_⟩
  rw [hgradient, ← hasFDerivWithinAt_univ, hasFDerivWithinAt_euclidean]
  intro i
  rw [hasFDerivWithinAt_univ]
  fin_cases i
  · refine HasFDerivAt.congr_fderiv (f.first_partials z) ?_
    ext v
    simp [Matrix.toEuclideanLin, Matrix.mulVec, dotProduct, Fin.sum_univ_two]
  · refine HasFDerivAt.congr_fderiv (f.second_partials z) ?_
    ext v
    simp [Matrix.toEuclideanLin, Matrix.mulVec, dotProduct, Fin.sum_univ_two]

end Smooth

end InfeasibilityControl
