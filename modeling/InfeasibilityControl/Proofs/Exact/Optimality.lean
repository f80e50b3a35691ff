import Mathlib
import InfeasibilityControl.Proofs.Exact.Derivatives

set_option autoImplicit false
set_option relaxedAutoImplicit false

/-!
The known solutions of the benchmark problems, in exact arithmetic.

They are feasible, and no feasible point of the plane has a smaller objective. The problem without a
known solution has no feasible point.
-/

namespace InfeasibilityControl.Benchmark

/-- The point is feasible, it has this objective, and no feasible point has a smaller one. -/
structure IsOptimal (b : Benchmark) (s : Vec ℝ) (v : ℝ) : Prop where
  length : s.length = 2
  feasible : b.constraint s = .ok [0]
  attained : b.objective s = .ok v
  least : ∀ x, x.length = 2 → b.constraint x = .ok [0] → ∃ a, b.objective x = .ok a ∧ v ≤ a

theorem isOptimal_of_smooth {b : Benchmark} {s₀ s₁ v : ℝ}
    (hfeasible : b.smoothConstraint.value (Vec.euclid 2 [s₀, s₁]) = 0)
    (hattained : b.smoothObjective.value (Vec.euclid 2 [s₀, s₁]) = v)
    (hleast : ∀ x₀ x₁ : ℝ, b.smoothConstraint.value (Vec.euclid 2 [x₀, x₁]) = 0 →
      v ≤ b.smoothObjective.value (Vec.euclid 2 [x₀, x₁])) : b.IsOptimal [s₀, s₁] v := by
  refine ⟨rfl, ?_, ?_, fun x hx hzero => ?_⟩
  · rw [b.constraint_eq, hfeasible]
  · rw [b.objective_eq, hattained]
  · obtain ⟨x₀, x₁, rfl⟩ := List.length_eq_two.1 hx
    rw [b.constraint_eq] at hzero
    have hzero : b.smoothConstraint.value (Vec.euclid 2 [x₀, x₁]) = 0 := by simpa using hzero
    exact ⟨_, b.objective_eq x₀ x₁, hleast x₀ x₁ hzero⟩

theorem quadraticOnLine_isOptimal : quadraticOnLine.IsOptimal [1 / 2, 1 / 2] (1 / 2) := by
  refine isOptimal_of_smooth ?_ ?_ fun x₀ x₁ (hline : x₀ + x₁ + -1 = 0) => ?_
  · norm_num [smoothConstraint]
  · norm_num [smoothObjective, squares]
  · show 1 / 2 ≤ x₀ * x₀ + x₁ * x₁
    nlinarith [sq_nonneg (x₀ - x₁)]

theorem parabolicValley_isOptimal : parabolicValley.IsOptimal [1, 1] 0 := by
  refine isOptimal_of_smooth ?_ ?_ fun x₀ x₁ _ => ?_
  · norm_num [smoothConstraint]
  · norm_num [smoothObjective]
  · exact mul_self_nonneg _

/-- On the quartic the second coordinate is at most `√3`, and the logarithm is not negative. -/
theorem logarithmOnQuartic_isOptimal :
    logarithmOnQuartic.IsOptimal [0, Real.sqrt 3] (-Real.sqrt 3) := by
  have hthree : Real.sqrt 3 * Real.sqrt 3 = 3 := Real.mul_self_sqrt (by norm_num)
  refine isOptimal_of_smooth ?_ ?_ fun x₀ x₁
    (hquartic : (1 + x₀ * x₀) * (1 + x₀ * x₀) + x₁ * x₁ + -4 = 0) => ?_
  · norm_num [smoothConstraint, hthree]
  · norm_num [smoothObjective]
  · show -Real.sqrt 3 ≤ Real.log (1 + x₀ * x₀) + -1 * x₁
    have hsquare : 0 ≤ x₀ * x₀ := mul_self_nonneg x₀
    have hlogarithm : 0 ≤ Real.log (1 + x₀ * x₀) := Real.log_nonneg (by linarith)
    have hsecond : x₁ ≤ Real.sqrt 3 := by
      refine Real.le_sqrt_of_sq_le ?_
      nlinarith [mul_self_nonneg (x₀ * x₀)]
    linarith

theorem flatCircle_isOptimal : flatCircle.IsOptimal [1, 0] (-1) := by
  refine isOptimal_of_smooth ?_ ?_ fun x₀ x₁ (hcircle : x₀ * x₀ + x₁ * x₁ + -1 = 0) => ?_
  · norm_num [smoothConstraint, squares]
  · norm_num [smoothObjective, squares]
  · show -1 ≤ -1 * x₀ + 10 * (x₀ * x₀ + x₁ * x₁ + -1)
    have hfirst : x₀ ≤ 1 := by nlinarith [mul_self_nonneg x₁]
    rw [hcircle, mul_zero, add_zero]
    linarith

theorem infeasibleCircle_constraint (x : Vec ℝ) (hx : x.length = 2) :
    ∃ c, infeasibleCircle.constraint x = .ok [c] ∧ 1 ≤ |c| := by
  obtain ⟨x₀, x₁, rfl⟩ := List.length_eq_two.1 hx
  refine ⟨_, infeasibleCircle.constraint_eq x₀ x₁, ?_⟩
  have hvalue : 1 ≤ infeasibleCircle.smoothConstraint.value (Vec.euclid 2 [x₀, x₁]) :=
    le_add_of_nonneg_left (mul_self_nonneg x₀)
  exact hvalue.trans (le_abs_self _)

theorem known_quadraticOnLine :
    quadraticOnLine.solution? = some [(1 / 2 : ℝ), 1 / 2] ∧
      quadraticOnLine.optimum? = some (1 / 2 : ℝ) := by
  norm_num [solution?, optimum?]

theorem known_parabolicValley :
    parabolicValley.solution? = some [(1 : ℝ), 1] ∧ parabolicValley.optimum? = some (0 : ℝ) := by
  norm_num [solution?, optimum?]

theorem known_logarithmOnQuartic :
    logarithmOnQuartic.solution? = some [0, Real.sqrt 3] ∧
      logarithmOnQuartic.optimum? = some (-Real.sqrt 3) := by
  norm_num [solution?, optimum?, Scalar.real_sqrt]

theorem known_flatCircle :
    flatCircle.solution? = some [(1 : ℝ), 0] ∧ flatCircle.optimum? = some (-1 : ℝ) := by
  norm_num [solution?, optimum?]

/-- The known solutions are optimal among all points of the plane, with the known optima for their
objectives. All benchmarks but the last have one, and in the last no point is feasible. -/
theorem solution_isOptimal :
    (∀ b : Benchmark, (b.solution? : Option (Vec ℝ)).isSome = true ↔ b ≠ .infeasibleCircle) ∧
    (∀ (b : Benchmark) (s : Vec ℝ), b.solution? = some s →
      ∃ v, b.optimum? = some v ∧ b.IsOptimal s v) ∧
    ∀ x : Vec ℝ, x.length = 2 → ∃ c, infeasibleCircle.constraint x = .ok [c] ∧ 1 ≤ |c| := by
  refine ⟨fun b => by cases b <;> simp [solution?], fun b s hs => ?_, infeasibleCircle_constraint⟩
  have hoptimal : ∀ {s₀ : Vec ℝ} {v : ℝ}, b.solution? = some s₀ ∧ b.optimum? = some v →
      b.IsOptimal s₀ v → ∃ v, b.optimum? = some v ∧ b.IsOptimal s v := by
    rintro s₀ v ⟨hsolution, hoptimum⟩ h
    rw [hs, Option.some_inj] at hsolution
    exact ⟨v, hoptimum, hsolution ▸ h⟩
  cases b with
  | quadraticOnLine => exact hoptimal known_quadraticOnLine quadraticOnLine_isOptimal
  | parabolicValley => exact hoptimal known_parabolicValley parabolicValley_isOptimal
  | logarithmOnQuartic => exact hoptimal known_logarithmOnQuartic logarithmOnQuartic_isOptimal
  | flatCircle => exact hoptimal known_flatCircle flatCircle_isOptimal
  | infeasibleCircle => cases hs

/-- The problem with the logarithm and the quartic ends at `(0, √3)`, and of the last problem the
standard start is not feasible. -/
theorem logarithmOnQuartic_solution_isOptimal :
    logarithmOnQuartic.solution? = some [0, Real.sqrt 3] ∧
    (∃ v, logarithmOnQuartic.optimum? = some v ∧
      logarithmOnQuartic.IsOptimal [0, Real.sqrt 3] v) ∧
    ([1, 1] : Vec ℝ).length = 2 ∧
    ∃ c : ℝ, infeasibleCircle.constraint [1, 1] = .ok [c] ∧ 1 ≤ |c| :=
  ⟨known_logarithmOnQuartic.1, solution_isOptimal.2.1 _ _ known_logarithmOnQuartic.1, rfl,
    solution_isOptimal.2.2 [1, 1] rfl⟩

end InfeasibilityControl.Benchmark
