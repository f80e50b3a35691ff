import InfeasibilityControl.Proofs.Completion
import InfeasibilityControl.Snapshot

set_option autoImplicit false
set_option relaxedAutoImplicit false

/-!
What is found on reading a snapshot, and what it costs.

A reading finds what the parts of the snapshot make, whatever was remembered before, and leaves the
parts as they are. It costs a product with the transposed Jacobian if it needs the gradient of the
Lagrangian and that was not formed yet.
-/

namespace InfeasibilityControl

open Counted (Returns)

variable {K : Type}

/-- The ledger with so many more products with a transposed Jacobian. -/
def Ledger.afterTransposedProducts (l : Ledger K) (made : Nat) : Ledger K :=
  { l with counters :=
      { l.counters with transposedProduct := l.counters.transposedProduct + made } }

@[simp] theorem Ledger.afterTransposedProducts_zero (l : Ledger K) :
    l.afterTransposedProducts 0 = l := rfl

theorem Ledger.afterTransposedProducts_add (l : Ledger K) (first second : Nat) :
    (l.afterTransposedProducts first).afterTransposedProducts second =
      l.afterTransposedProducts (first + second) := by
  simp only [afterTransposedProducts, Nat.add_assoc]

/-- It is found by means of the gradient of the Lagrangian. -/
def Quantity.needsGradient : Quantity → Bool
  | .lagrangianGradient | .figure .dualNorm => true
  | .figure .lagrangian | .figure .primalNorm | .figure .gradientNorm => false

variable [Scalar K]

namespace Iterate

variable {s s' : Iterate K} {q : Quantity}

/-- The multipliers and the constraints are as many as the rows of the Jacobian, and the gradient
has an entry for each of its columns. -/
structure IsMatched (s : Iterate K) : Prop where
  constraints : s.constraints.length = s.jacobian.rowCount
  multipliers : s.multipliers.length = s.jacobian.rowCount
  gradient : s.gradient.length = s.jacobian.columnCount
  jacobian : s.jacobian.HasShape s.jacobian.rowCount s.jacobian.columnCount

/-- A figure, formed from the parts of an iterate. -/
def freshFigure (s : Iterate K) : Figure → Except Fault K
  | .lagrangian => (Vec.inner s.multipliers s.constraints).map fun a => s.objective + a
  | .primalNorm => .ok (Vec.norm s.constraints)
  | .dualNorm => s.freshLagrangianGradient.map Vec.norm
  | .gradientNorm => .ok (Vec.norm s.gradient)

/-- What there is to find, formed from the parts of an iterate. -/
def fresh (s : Iterate K) : Quantity → Except Fault (Finding K)
  | .lagrangianGradient => s.freshLagrangianGradient.map .vector
  | .figure f => (s.freshFigure f).map .number

@[simp] theorem fresh_recalling (s : Iterate K) (g? : Option (Vec K)) (q : Quantity) :
    (s.recalling g?).fresh q = s.fresh q := by
  rcases q with _ | f
  · rfl
  · cases f <;> rfl

@[simp] theorem freshFigure_recalling (s : Iterate K) (g? : Option (Vec K)) (f : Figure) :
    (s.recalling g?).freshFigure f = s.freshFigure f := by
  cases f <;> rfl

omit [Scalar K] in
/-- The gradient of the Lagrangian is remembered. -/
def remembersGradient (s : Iterate K) : Bool := s.lagrangianGradient?.isSome

omit [Scalar K] in
/-- The products that a reading costs. -/
def cost (s : Iterate K) (q : Quantity) : Nat :=
  if q.needsGradient && !s.remembersGradient then 1 else 0

omit [Scalar K] in
theorem cost_eq_zero (hq : q.needsGradient = true → s.remembersGradient = true) :
    s.cost q = 0 := by
  refine if_neg fun hpaid => ?_
  obtain ⟨hneeds, hforgets⟩ := Bool.and_eq_true_iff.1 hpaid
  rw [hq hneeds] at hforgets
  cases hforgets

/-- What a reading leaves of an iterate: the same parts, and a gradient of the Lagrangian that
belongs to them if the reading needed it. -/
structure IsRead (s : Iterate K) (q : Quantity) (s' : Iterate K) : Prop where
  parts : s'.recalling none = s.recalling none
  coherent : s'.IsCoherent
  remembers : s'.remembersGradient = (s.remembersGradient || q.needsGradient)

theorem IsRead.freshFigure_eq (h : s.IsRead q s') (f : Figure) :
    s'.freshFigure f = s.freshFigure f := by
  rw [← s'.freshFigure_recalling none, h.parts, freshFigure_recalling]

theorem IsCoherent.isRead_self (hs : s.IsCoherent)
    (hq : q.needsGradient = true → s.remembersGradient = true) : s.IsRead q s := by
  refine ⟨rfl, hs, ?_⟩
  cases hneeds : q.needsGradient with
  | false => rw [Bool.or_false]
  | true => rw [Bool.or_true, hq hneeds]

theorem IsCoherent.isRead_self_of_free (hs : s.IsCoherent) (hq : q.needsGradient = false) :
    s.IsRead q s := by
  refine hs.isRead_self fun hneeds => ?_
  rw [hq] at hneeds
  cases hneeds

namespace IsMatched

omit [Scalar K] in
theorem of_recalling {g? : Option (Vec K)} (h : (s.recalling g?).IsMatched) : s.IsMatched :=
  ⟨h.constraints, h.multipliers, h.gradient, h.jacobian⟩

/-- The gradient of the Lagrangian is the one that the parts make. It costs a product unless it is
remembered. -/
theorem readLagrangianGradient_returns (h : s.IsMatched) (hs : s.IsCoherent) (l : Ledger K) :
    ∃ g s', s.freshLagrangianGradient = .ok g ∧ s.IsRead .lagrangianGradient s' ∧
      Returns s.readLagrangianGradient l (g, s')
        (l.afterTransposedProducts (s.cost .lagrangianGradient)) := by
  cases hknown : s.lagrangianGradient? with
  | some g =>
    have hremembers : s.remembersGradient = true := by rw [remembersGradient, hknown]; rfl
    refine ⟨g, s, hs g hknown, hs.isRead_self fun _ => hremembers, ?_⟩
    rw [cost_eq_zero fun _ => hremembers]
    simp only [readLagrangianGradient, hknown]
    exact .pure
  | none =>
    have hforgets : s.remembersGradient = false := by rw [remembersGradient, hknown]; rfl
    obtain ⟨g, hg⟩ : ∃ g, s.freshLagrangianGradient = .ok g :=
      ⟨_, freshLagrangianGradient_eq h.jacobian h.multipliers h.gradient⟩
    have hsum : Vec.add s.gradient (s.jacobian.applyTransposed s.multipliers) = .ok g := by
      rwa [freshLagrangianGradient, if_pos h.multipliers] at hg
    refine ⟨g, s.recalling (some g), hg, ⟨rfl, isCoherent_recalling_some hg, ?_⟩, ?_⟩
    · rw [hforgets]
      rfl
    · rw [cost, hforgets]
      simp only [readLagrangianGradient, hknown, SparseMatrix.transposedProduct,
        if_pos h.multipliers, Counted.count, Counted.returns_bind, Counted.returns_modify,
        Counted.returns_except, Counted.returns_pure]
      exact ⟨_, _, ⟨(), _, rfl, rfl, rfl⟩, g, _, ⟨hsum, rfl⟩, rfl, rfl⟩

theorem readFigure_returns (h : s.IsMatched) (hs : s.IsCoherent) (f : Figure) (l : Ledger K) :
    ∃ a s', s.freshFigure f = .ok a ∧ s.IsRead (.figure f) s' ∧
      Returns (s.readFigure f) l (a, s') (l.afterTransposedProducts (s.cost (.figure f))) := by
  cases f with
  | lagrangian =>
    have hinner := Vec.inner_of_length (h.multipliers.trans h.constraints.symm)
    refine ⟨_, s, by rw [freshFigure, hinner]; rfl, hs.isRead_self_of_free rfl, ?_⟩
    simp only [readFigure, Iterate.lagrangian, hinner, Counted.returns_bind, Counted.returns_except,
      Counted.returns_pure]
    exact ⟨_, _, ⟨rfl, rfl⟩, rfl, rfl⟩
  | primalNorm => exact ⟨_, s, rfl, hs.isRead_self_of_free rfl, .pure⟩
  | gradientNorm => exact ⟨_, s, rfl, hs.isRead_self_of_free rfl, .pure⟩
  | dualNorm =>
    obtain ⟨g, s', hg, hread, hreturns⟩ := h.readLagrangianGradient_returns hs l
    refine ⟨Vec.norm g, s', by rw [freshFigure, hg]; rfl,
      ⟨hread.parts, hread.coherent, hread.remembers⟩, ?_⟩
    exact hreturns.bind .pure

end IsMatched

end Iterate

namespace Snapshot

variable {s s' : Snapshot K} {q : Quantity}

omit [Scalar K] in
/-- The iterate without its memory. -/
def parts (s : Snapshot K) : Iterate K := s.iterate.recalling none

omit [Scalar K] in
/-- The gradient of the Lagrangian is remembered. -/
def remembersGradient (s : Snapshot K) : Bool := s.iterate.remembersGradient

omit [Scalar K] in
/-- Nothing was read of the snapshot. -/
structure IsNew (s : Snapshot K) : Prop where
  gradient : s.iterate.lagrangianGradient? = none
  figures : ∀ f, s.figure? f = none

/-- What a snapshot remembers is what its parts make, and the norm of the gradient of the Lagrangian
is not remembered without that gradient. -/
structure IsCoherent (s : Snapshot K) : Prop where
  iterate : s.iterate.IsCoherent
  figures : ∀ f a, s.figure? f = some a → s.iterate.freshFigure f = .ok a
  gradient : ∀ f a, s.figure? f = some a → (Quantity.figure f).needsGradient = true →
    s.remembersGradient = true

/-- What a reading leaves of a snapshot. -/
structure IsRead (s : Snapshot K) (q : Quantity) (s' : Snapshot K) : Prop where
  parts : s'.parts = s.parts
  coherent : s'.IsCoherent
  remembers : s'.remembersGradient = (s.remembersGradient || q.needsGradient)

omit [Scalar K] in
theorem IsNew.remembersGradient_eq (h : s.IsNew) : s.remembersGradient = false := by
  rw [remembersGradient, Iterate.remembersGradient, h.gradient]
  rfl

theorem IsNew.isCoherent (h : s.IsNew) : s.IsCoherent where
  iterate := Iterate.isCoherent_of_none h.gradient
  figures f a hknown := by simp [h.figures f] at hknown
  gradient f a hknown := by simp [h.figures f] at hknown

omit [Scalar K] in
theorem isNew_revise (s : Snapshot K) (r : Revision K) : (s.revise r).IsNew := ⟨rfl, fun _ => rfl⟩

theorem IsRead.keep {f : Figure} {a : K} (h : s.IsRead (.figure f) s')
    (ha : s'.iterate.freshFigure f = .ok a) : s.IsRead (.figure f) (s'.keep f a) where
  parts := h.parts
  coherent :=
    { iterate := h.coherent.iterate
      figures := by
        intro other b hknown
        simp only [Snapshot.keep] at hknown
        split at hknown
        · subst other
          cases hknown
          exact ha
        · exact h.coherent.figures other b hknown
      gradient := by
        intro other b hknown hneeds
        simp only [Snapshot.keep] at hknown
        split at hknown
        · subst other
          change s'.remembersGradient = true
          rw [h.remembers, hneeds, Bool.or_true]
        · exact h.coherent.gradient other b hknown hneeds }
  remembers := h.remembers

namespace IsCoherent

theorem of_isRead {s₁ : Iterate K} (hs : s.IsCoherent) (h : s.iterate.IsRead q s₁) :
    s.IsRead q { s with iterate := s₁ } where
  parts := h.parts
  coherent :=
    { iterate := h.coherent
      figures := fun f a hknown => (h.freshFigure_eq f).trans (hs.figures f a hknown)
      gradient := fun f a hknown hneeds => by
        have hold : s.iterate.remembersGradient = true := hs.gradient f a hknown hneeds
        rw [remembersGradient, h.remembers, hold, Bool.true_or] }
  remembers := h.remembers

theorem readFigure_returns (hs : s.IsCoherent) (h : s.parts.IsMatched) (f : Figure)
    (l : Ledger K) :
    ∃ a s', s.parts.freshFigure f = .ok a ∧ s.IsRead (.figure f) s' ∧
      Returns (s.readFigure f) l (a, s')
        (l.afterTransposedProducts (s.iterate.cost (.figure f))) := by
  cases hknown : s.figure? f with
  | some a =>
    have hremembers := hs.gradient f a hknown
    refine ⟨a, s, hs.figures f a hknown, hs.of_isRead (hs.iterate.isRead_self hremembers), ?_⟩
    rw [Iterate.cost_eq_zero hremembers]
    simp only [readFigure, hknown]
    exact .pure
  | none =>
    obtain ⟨a, s₁, ha, hread, hreturns⟩ := h.of_recalling.readFigure_returns hs.iterate f l
    have hkept := (hs.of_isRead hread).keep ((hread.freshFigure_eq f).trans ha)
    refine ⟨a, _, (s.iterate.freshFigure_recalling none f).trans ha, hkept, ?_⟩
    simp only [readFigure, hknown]
    exact hreturns.bind .pure

theorem read_returns (hs : s.IsCoherent) (h : s.parts.IsMatched) (q : Quantity) (l : Ledger K) :
    ∃ a s', s.parts.fresh q = .ok a ∧ s.IsRead q s' ∧
      Returns (s.read q) l (a, s') (l.afterTransposedProducts (s.iterate.cost q)) := by
  cases q with
  | lagrangianGradient =>
    obtain ⟨g, s₁, hg, hread, hreturns⟩ :=
      h.of_recalling.readLagrangianGradient_returns hs.iterate l
    refine ⟨.vector g, _, ?_, hs.of_isRead hread, ?_⟩
    · rw [parts, Iterate.fresh_recalling, Iterate.fresh, hg]
      rfl
    · exact hreturns.bind .pure
  | figure f =>
    obtain ⟨a, s₁, ha, hread, hreturns⟩ := hs.readFigure_returns h f l
    refine ⟨.number a, s₁, by rw [Iterate.fresh, ha]; rfl, hread, ?_⟩
    exact hreturns.bind .pure

end IsCoherent

end Snapshot

end InfeasibilityControl
