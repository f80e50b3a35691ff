import InfeasibilityControl.Iterate

set_option autoImplicit false
set_option relaxedAutoImplicit false

/-!
Iterates with a memory for everything that is derived from them.

A figure is formed when it is first asked for and kept with the snapshot, next to the gradient of
the Lagrangian that the iterate keeps itself. A revised snapshot is a new one, of which nothing was
read yet.
-/

namespace InfeasibilityControl

/-- The numbers that are derived from an iterate. -/
inductive Figure
  | lagrangian
  | primalNorm
  | dualNorm
  | gradientNorm
  deriving DecidableEq

/-- What can be read of an iterate. -/
inductive Quantity
  | lagrangianGradient
  | figure (f : Figure)
  deriving DecidableEq

/-- What is found on reading. -/
inductive Finding (K : Type)
  | vector (v : Vec K)
  | number (a : K)

/-- An iterate with the figures that were read of it. -/
structure Snapshot (K : Type) where
  iterate : Iterate K
  figure? : Figure → Option K

variable {K : Type} [Scalar K]

/-- A figure of an iterate, and the iterate that remembers what was formed on the way. -/
def Iterate.readFigure (s : Iterate K) : Figure → Counted K (K × Iterate K)
  | .lagrangian => return (← s.lagrangian, s)
  | .primalNorm => return (s.primalNorm, s)
  | .dualNorm => s.readDualNorm
  | .gradientNorm => return (s.gradientNorm, s)

namespace Snapshot

/-- A snapshot of which nothing was read. -/
def ofIterate (s : Iterate K) : Snapshot K := ⟨s.revise .none, fun _ => none⟩

/-- A new snapshot with some parts replaced. -/
def revise (s : Snapshot K) (r : Revision K) : Snapshot K := ofIterate (s.iterate.revise r)

/-- The snapshot that remembers a figure. -/
def keep (s : Snapshot K) (f : Figure) (a : K) : Snapshot K :=
  { s with figure? := fun other => if other = f then some a else s.figure? other }

/-- A figure, and the snapshot that remembers it. Only the first reading forms it. -/
def readFigure (s : Snapshot K) (f : Figure) : Counted K (K × Snapshot K) := do
  match s.figure? f with
  | some known => return (known, s)
  | none =>
      let (fresh, iterate) ← s.iterate.readFigure f
      return (fresh, { s with iterate }.keep f fresh)

/-- What is asked for, and the snapshot that remembers it. -/
def read (s : Snapshot K) : Quantity → Counted K (Finding K × Snapshot K)
  | .lagrangianGradient => do
      let (g, iterate) ← s.iterate.readLagrangianGradient
      return (.vector g, { s with iterate })
  | .figure f => do
      let (a, s) ← s.readFigure f
      return (.number a, s)

end Snapshot

end InfeasibilityControl
