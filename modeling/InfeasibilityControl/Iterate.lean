import InfeasibilityControl.Model.Problem

set_option autoImplicit false
set_option relaxedAutoImplicit false

/-!
Where the method stands: a point with what is known there.

The gradient of the Lagrangian costs a product with the transposed Jacobian. It is formed when it is
first asked for and kept with the iterate; a revised iterate starts without it.
-/

namespace InfeasibilityControl

/-- A point, the objective, constraints, gradient and Jacobian there, the multipliers and the radius
of tolerated infeasibility. The multipliers need not have been estimated at this point. -/
structure Iterate (K : Type) where
  point : Vec K
  objective : K
  constraints : Vec K
  gradient : Vec K
  jacobian : SparseMatrix K
  multipliers : Vec K
  radius : K
  iteration : Int
  /-- The gradient of the Lagrangian, once it was asked for. -/
  lagrangianGradient? : Option (Vec K)

/-- New values for some parts of an iterate. -/
structure Revision (K : Type) where
  point : Option (Vec K)
  objective : Option K
  constraints : Option (Vec K)
  gradient : Option (Vec K)
  jacobian : Option (SparseMatrix K)
  multipliers : Option (Vec K)
  radius : Option K
  iteration : Option Int

/-- The revision that changes nothing. -/
def Revision.none {K : Type} : Revision K :=
  ⟨.none, .none, .none, .none, .none, .none, .none, .none⟩

namespace Iterate

variable {K : Type} [Scalar K]

/-- The iterate with some parts replaced. Nothing that was derived from the old parts is kept. -/
def revise (s : Iterate K) (r : Revision K) : Iterate K where
  point := r.point.getD s.point
  objective := r.objective.getD s.objective
  constraints := r.constraints.getD s.constraints
  gradient := r.gradient.getD s.gradient
  jacobian := r.jacobian.getD s.jacobian
  multipliers := r.multipliers.getD s.multipliers
  radius := r.radius.getD s.radius
  iteration := r.iteration.getD s.iteration
  lagrangianGradient? := none

/-- The gradient of the Lagrangian, `g + Jᵀ y`, formed from the parts of the iterate. -/
def freshLagrangianGradient (s : Iterate K) : Except Fault (Vec K) :=
  if s.multipliers.length = s.jacobian.rowCount then
    Vec.add s.gradient (s.jacobian.applyTransposed s.multipliers)
  else .error .shapeMismatch

/-- The norm of the gradient of the Lagrangian, formed from the parts of the iterate. -/
def freshDualNorm (s : Iterate K) : Except Fault K := s.freshLagrangianGradient.map Vec.norm

/-- The gradient of the Lagrangian, and the iterate that remembers it. The first reading costs a
counted product, later ones nothing. -/
def readLagrangianGradient (s : Iterate K) : Counted K (Vec K × Iterate K) := do
  match s.lagrangianGradient? with
  | some known => return (known, s)
  | none =>
      let image ← s.jacobian.transposedProduct s.multipliers
      let fresh ← Vec.add s.gradient image
      return (fresh, { s with lagrangianGradient? := some fresh })

/-- The norm of the gradient of the Lagrangian, and the iterate that remembers that gradient. -/
def readDualNorm (s : Iterate K) : Counted K (K × Iterate K) := do
  let (g, s) ← s.readLagrangianGradient
  return (Vec.norm g, s)

/-- The Lagrangian, `f + yᵀ c`. -/
def lagrangian (s : Iterate K) : Except Fault K :=
  return s.objective + (← Vec.inner s.multipliers s.constraints)

/-- The norm of the constraints. -/
def primalNorm (s : Iterate K) : K := Vec.norm s.constraints

/-- The norm of the objective's gradient. -/
def gradientNorm (s : Iterate K) : K := Vec.norm s.gradient

end Iterate

end InfeasibilityControl
