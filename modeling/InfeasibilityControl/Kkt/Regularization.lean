import InfeasibilityControl.Iterate

set_option autoImplicit false
set_option relaxedAutoImplicit false

/-!
The choice of the regularization `(γ, δ)` of the KKT system at an iterate.
-/

namespace InfeasibilityControl

/-- The regularization of the two diagonal blocks. -/
structure Regularization (K : Type) where
  gamma : K
  delta : K

/-- A rule that chooses the regularization from the iterate. -/
abbrev RegularizationPolicy (K : Type) := Iterate K → Except Fault (Regularization K)

namespace Regularization

variable {K : Type} [Scalar K]

/-- The regularization that is used when none is given. -/
def standard : Regularization K := ⟨1e-8, 1e-8⟩

/-- A regularization whose parts are not negative. -/
def check (r : Regularization K) : Except Fault (Regularization K) :=
  if r.gamma < 0 ∨ r.delta < 0 then .error .negativeRegularization else .ok r

end Regularization

namespace RegularizationPolicy

variable {K : Type} [Scalar K]

/-- The same regularization at every iterate. -/
def fixed (r : Regularization K) : RegularizationPolicy K := fun _ => .ok r

/-- One regularization per iteration; the last one serves from then on. An empty list has none. -/
def listed (all : List (Regularization K)) : RegularizationPolicy K := fun s =>
  match all[Nat.min s.iteration.toNat (all.length - 1)]? with
  | some r => .ok r
  | none => .error .missingCoordinate

/-- Multiples of the dual and of the primal residual. -/
def proportional (factors : Regularization K) : RegularizationPolicy K := fun s => do
  return ⟨factors.gamma * (← s.freshDualNorm), factors.delta * s.primalNorm⟩

end RegularizationPolicy

end InfeasibilityControl
