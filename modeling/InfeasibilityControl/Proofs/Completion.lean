import InfeasibilityControl.Proofs.Combination
import InfeasibilityControl.Proofs.Iterate
import InfeasibilityControl.Proofs.Kkt.Operations

set_option autoImplicit false
set_option relaxedAutoImplicit false

/-!
Computations that come to their end.

A computation completes if no ledger makes it fault. For a problem whose evaluators give values of
the declared shapes, whatever is evaluated, solved or read at a point of the right length completes,
with a value of the right shape.
-/

namespace InfeasibilityControl

open Counted (Returns)

namespace Counted

variable {K α β : Type} {P : α → Prop} {Q : β → Prop} {m : Counted K α}

/-- From every ledger the computation ends without a fault, with a value that has the property. -/
def Completes (m : Counted K α) (P : α → Prop) : Prop := ∀ l, ∃ a l', Returns m l a l' ∧ P a

theorem Completes.of_returns {l l' : Ledger K} {a : α} (h : Completes m P)
    (hm : Returns m l a l') : P a := by
  obtain ⟨b, l₁, hb, hP⟩ := h l
  obtain ⟨rfl, -⟩ := hm.unique hb
  exact hP

theorem Completes.of_all (h : Completes m P) {R : α → Prop}
    (hall : ∀ l a l', Returns m l a l' → R a) : Completes m R := by
  intro l
  obtain ⟨a, l', ha, -⟩ := h l
  exact ⟨a, l', ha, hall l a l' ha⟩

theorem completes_pure {a : α} (h : P a) : Completes (pure a : Counted K α) P :=
  fun l => ⟨a, l, .pure, h⟩

theorem Completes.bind {f : α → Counted K β} (hm : Completes m P)
    (hf : ∀ a, P a → Completes (f a) Q) : Completes (m >>= f) Q := by
  intro l
  obtain ⟨a, l₁, ha, hP⟩ := hm l
  obtain ⟨b, l₂, hb, hQ⟩ := hf a hP l₁
  exact ⟨b, l₂, ha.bind hb, hQ⟩

theorem completes_ite {c : Prop} [Decidable c] {n : Counted K α} (hm : c → Completes m P)
    (hn : ¬ c → Completes n P) : Completes (if c then m else n) P := by
  split
  · exact hm ‹_›
  · exact hn ‹_›

theorem completes_except {e : Except Fault α} {a : α} (h : e = .ok a) (ha : P a) :
    Completes (liftM e : Counted K α) P :=
  fun l => ⟨a, l, returns_except.2 ⟨h, rfl⟩, ha⟩

theorem completes_always {a : α} (h : Always m a) (ha : P a) : Completes m P := by
  intro l
  obtain ⟨l', hl'⟩ := h l
  exact ⟨a, l', hl', ha⟩

theorem Always.unique [Scalar K] {a b : α} (ha : Always m a) (hb : Always m b) : a = b := by
  obtain ⟨l₁, ha⟩ := ha Ledger.empty
  obtain ⟨l₂, hb⟩ := hb Ledger.empty
  exact (ha.unique hb).1

theorem Completes.exists_always [Scalar K] (h : Completes m P) (hblind : IsBlind m) :
    ∃ a, Always m a ∧ P a := by
  obtain ⟨a, l', ha, hP⟩ := h Ledger.empty
  exact ⟨a, hblind _ _ _ ha, hP⟩

theorem completes_ok {e : Except Fault α} {a : α} (h : e = .ok a) :
    Completes (liftM e : Counted K α) fun b => b = a :=
  completes_except h rfl

theorem completes_state {n : StateM (Ledger K) α} (h : ∀ l, P (n.run l).run.1) :
    Completes (liftM n : Counted K α) P :=
  fun l => ⟨_, _, returns_state.2 rfl, h l⟩

theorem completes_modify {f : Ledger K → Ledger K} {P : Unit → Prop} (h : P ()) :
    Completes (modify f : Counted K Unit) P :=
  fun _ => ⟨(), _, returns_modify.2 rfl, h⟩

end Counted

open Counted (Completes completes_pure completes_except completes_always completes_ok
  completes_modify completes_ite)

variable {K : Type} [Scalar K] {m n : Nat}

omit [Scalar K] in
theorem Budget.completes_evaluations :
    Completes (Budget.evaluations : Counted K Nat) fun _ => True :=
  fun _ => ⟨_, _, Budget.evaluations_returns.2 ⟨rfl, rfl⟩, trivial⟩

omit [Scalar K] in
theorem completes_counters : Completes (Counted.counters : Counted K Counters) fun _ => True :=
  fun _ => ⟨_, _, (Counted.returns_get.2 ⟨rfl, rfl⟩).bind .pure, trivial⟩

theorem Budget.completes_start (maxEvaluations : Int) (maxTime : K) :
    Completes (Budget.start maxEvaluations maxTime) fun _ => True :=
  fun _ => ⟨_, _, Budget.start_returns.2 ⟨rfl, rfl⟩, trivial⟩

theorem Budget.completes_elapsed (b : Budget K) : Completes b.elapsed fun _ => True :=
  fun _ => ⟨_, _, Budget.elapsed_returns.2 ⟨rfl, rfl⟩, trivial⟩

theorem Budget.completes_exhausted (b : Budget K) : Completes b.exhausted fun _ => True := by
  refine Completes.bind (P := fun _ => True) (Budget.completes_evaluations.bind fun spent _ => ?_)
    fun _ _ => Completes.bind (completes_modify trivial) fun _ (_ : True) => completes_pure trivial
  exact completes_ite (fun _ => completes_pure trivial) fun _ =>
    b.completes_elapsed.bind fun _ _ => completes_pure trivial

theorem Problem.hasShape_of_jacobian {p : Problem K} {x : Vec K}
    {J : SparseMatrix K} (h : p.jacobian x = .ok J) : J.HasShape J.rowCount p.variableCount := by
  simp only [Problem.jacobian, Counted.except_bind_eq_ok] at h
  obtain ⟨values, -, m, -, hJ⟩ := h
  have hshape := SparseMatrix.ofCoordinates_hasShape hJ
  rw [hshape.rowCount]
  exact hshape

/-- The constraints of a problem and their Jacobian have values of these shapes at every point. -/
structure Problem.IsConstrained (p : Problem K) (m : Nat) : Prop where
  constraints : ∀ x, x.length = p.variableCount → ∃ c, p.constraints x = .ok c ∧ c.length = m
  jacobian : ∀ x, x.length = p.variableCount →
    ∃ J, p.jacobian x = .ok J ∧ J.HasShape m p.variableCount

namespace Problem.IsConstrained

variable {p : Problem K} {x : Vec K}

theorem constraintsAt (h : p.IsConstrained m) (hx : x.length = p.variableCount) :
    Completes (p.constraintsAt x) fun c => p.constraints x = .ok c ∧ c.length = m := by
  obtain ⟨c, hc, hlength⟩ := h.constraints x hx
  exact Completes.bind (completes_modify trivial) fun _ (_ : True) =>
    Completes.bind (completes_modify trivial) fun _ (_ : True) => completes_except hc ⟨hc, hlength⟩

theorem jacobianAt (h : p.IsConstrained m) (hx : x.length = p.variableCount) :
    Completes (p.jacobianAt x) fun J => p.jacobian x = .ok J := by
  obtain ⟨J, hJ, -⟩ := h.jacobian x hx
  exact completes_always (Problem.jacobianAt_always hJ) hJ

theorem length_constraints (h : p.IsConstrained m) (hx : x.length = p.variableCount) {c : Vec K}
    (hc : p.constraints x = .ok c) : c.length = m := by
  obtain ⟨c', hc', hlength⟩ := h.constraints x hx
  rw [hc] at hc'
  cases hc'
  exact hlength

theorem hasShape (h : p.IsConstrained m) (hx : x.length = p.variableCount) {J : SparseMatrix K}
    (hJ : p.jacobian x = .ok J) : J.HasShape m p.variableCount := by
  obtain ⟨J', hJ', hshape⟩ := h.jacobian x hx
  rw [hJ] at hJ'
  cases hJ'
  exact hshape

end Problem.IsConstrained

/-- The evaluators of a problem with so many constraints answer at every point, with values of the
declared shapes. -/
structure Problem.IsTotal (p : Problem K) (m : Nat) : Prop extends p.IsPatterned m where
  objective_total : ∀ x, x.length = p.variableCount → ∃ f, p.objective x = .ok f
  gradient_total : ∀ x, x.length = p.variableCount →
    ∃ g, p.gradient x = .ok g ∧ g.length = p.variableCount
  constraints_total : ∀ x, x.length = p.variableCount →
    ∃ c, p.constraints x = .ok c ∧ c.length = m
  jacobian_total : ∀ x, x.length = p.variableCount →
    ∃ values, p.jacobianValues x = .ok values ∧ values.length = p.jacobianPattern.length
  hessian_total : ∀ x y weight, x.length = p.variableCount → y.length = m →
    ∃ values, p.hessianValues x y weight = .ok values ∧
      values.length = p.hessianPattern.length

namespace Problem.IsTotal

variable {p : Problem K} {x : Vec K}

theorem objectiveAt (h : p.IsTotal m) (hx : x.length = p.variableCount) :
    Completes (p.objectiveAt x) fun f => p.objective x = .ok f := by
  obtain ⟨f, hf⟩ := h.objective_total x hx
  exact Completes.bind (completes_modify trivial) fun _ (_ : True) =>
    Completes.bind (completes_modify trivial) fun _ (_ : True) => completes_except hf hf

omit [Scalar K] in
theorem gradientAt (h : p.IsTotal m) (hx : x.length = p.variableCount) :
    Completes (p.gradientAt x) fun g => g.length = p.variableCount := by
  obtain ⟨g, hg, hlength⟩ := h.gradient_total x hx
  exact Completes.bind (completes_modify trivial) fun _ (_ : True) => completes_except hg hlength

theorem hasShape (h : p.IsTotal m) {J : SparseMatrix K} (hJ : p.jacobian x = .ok J) :
    J.HasShape m p.variableCount := by
  simp only [Problem.jacobian, Counted.except_bind_eq_ok, h.rowCount] at hJ
  obtain ⟨values, -, _, ⟨⟩, hJ⟩ := hJ
  exact SparseMatrix.ofCoordinates_hasShape hJ

theorem isConstrained (h : p.IsTotal m) : p.IsConstrained m where
  constraints := h.constraints_total
  jacobian x hx := by
    obtain ⟨values, hvalues, hlength⟩ := h.jacobian_total x hx
    obtain ⟨J, hJ⟩ := SparseMatrix.ofCoordinates_eq_ok hlength.symm h.jacobian
    have hJ : p.jacobian x = .ok J := (h.jacobian_eq hvalues).trans hJ
    exact ⟨J, hJ, h.hasShape hJ⟩

theorem constraintsAt (h : p.IsTotal m) (hx : x.length = p.variableCount) :
    Completes (p.constraintsAt x) fun c => p.constraints x = .ok c ∧ c.length = m :=
  h.isConstrained.constraintsAt hx

theorem length_constraints (h : p.IsTotal m) (hx : x.length = p.variableCount) {c : Vec K}
    (hc : p.constraints x = .ok c) : c.length = m :=
  h.isConstrained.length_constraints hx hc

theorem jacobianAt (h : p.IsTotal m) (hx : x.length = p.variableCount) :
    Completes (p.jacobianAt x) fun J => p.jacobian x = .ok J :=
  h.isConstrained.jacobianAt hx

end Problem.IsTotal

namespace LeastSquares

variable {A : Operator K} {b : Vec K} {tolerances : Tolerances K} {limit? : Option Int}

theorem exists_solve (hA : ∀ w, (A.applyTransposed w).length = A.columnCount)
    (hb : A.rowCount = b.length) :
    ∃ s, solve A b tolerances limit? = .ok s ∧ s.vector.length = A.columnCount := by
  have hfound : ∃ s, solve A b tolerances limit? = .ok s := by
    unfold solve
    rw [if_pos hb]
    simp only
    split
    · exact ⟨_, rfl⟩
    · exact ⟨_, rfl⟩
  obtain ⟨s, hs⟩ := hfound
  exact ⟨s, hs, length_solve hA hs⟩

end LeastSquares

namespace SparseMatrix.HasShape

variable {J : SparseMatrix K} {v w : Vec K} {tolerances : LeastSquares.Tolerances K}
  {limit? : Option Int}

theorem product (h : J.HasShape m n) (hv : v.length = n) :
    Completes (J.product v) fun u => u = J.apply v := by
  rw [SparseMatrix.product, if_pos (hv.trans h.columnCount.symm)]
  exact Completes.bind (completes_modify trivial) fun _ (_ : True) => completes_pure rfl

theorem transposedProduct (h : J.HasShape m n) (hw : w.length = m) :
    Completes (J.transposedProduct w) fun u => u = J.applyTransposed w := by
  rw [SparseMatrix.transposedProduct, if_pos (hw.trans h.rowCount.symm)]
  exact Completes.bind (completes_modify trivial) fun _ (_ : True) => completes_pure rfl

theorem answers_recurrence (h : J.HasShape m n) :
    (LeastSquares.Solver.recurrence tolerances limit?).Answers J.operator := fun _ hb =>
  LeastSquares.exists_solve (fun w => (h.length_applyTransposed w).trans h.columnCount.symm) hb.symm

theorem leastSquares (h : J.HasShape m n) {solver : LeastSquares.Solver K}
    (hsolver : solver.Answers J.operator) (hv : v.length = m) :
    Completes (J.leastSquares v solver) fun s =>
      solver J.operator v = .ok s ∧ s.vector.length = n := by
  obtain ⟨s, hs, hlength⟩ := hsolver v (hv.trans h.rowCount.symm)
  refine Completes.bind (completes_ok hs) ?_
  rintro _ rfl
  exact Completes.bind (completes_modify trivial) fun _ (_ : True) =>
    Completes.bind (completes_modify trivial) fun _ (_ : True) =>
      completes_pure ⟨hs, hlength.trans h.columnCount⟩

theorem transposedLeastSquares (h : J.HasShape m n) (hv : v.length = n) :
    Completes (J.transposedLeastSquares v tolerances limit?) fun s =>
      LeastSquares.solve J.operator.transpose v tolerances limit? = .ok s ∧
        s.vector.length = m := by
  have hsolve : ∃ s, LeastSquares.solve J.operator.transpose v tolerances limit? = .ok s ∧
      s.vector.length = J.rowCount := by
    refine LeastSquares.exists_solve (fun w => ?_) (h.columnCount.trans hv.symm)
    exact (h.length_apply w).trans h.rowCount.symm
  obtain ⟨s, hs, hlength⟩ := hsolve
  refine Completes.bind (completes_ok hs) ?_
  rintro _ rfl
  exact Completes.bind (completes_modify trivial) fun _ (_ : True) =>
    Completes.bind (completes_modify trivial) fun _ (_ : True) =>
      completes_pure ⟨hs, hlength.trans h.rowCount⟩

theorem projectOntoNullSpace (h : J.HasShape m n) (hv : v.length = n) :
    Completes (J.projectOntoNullSpace v tolerances limit?) fun u => u.length = n := by
  refine (h.transposedLeastSquares hv).bind fun s hs => (h.transposedProduct hs.2).bind ?_
  rintro _ rfl
  have himage := h.length_applyTransposed s.vector
  exact completes_except (Vec.subtract_of_length (hv.trans himage.symm))
    (Vec.length_minus_of_length hv himage)

theorem estimateMultipliers (h : J.HasShape m n) (hv : v.length = n) :
    Completes (InfeasibilityControl.estimateMultipliers J v tolerances limit?) fun e =>
      ∃ s, LeastSquares.solve J.operator.transpose (Vec.negate v) tolerances limit? = .ok s ∧
        s.vector.length = m ∧ e.multipliers = s.vector ∧ e.converged = s.converged ∧
        e.steps = s.steps := by
  rw [InfeasibilityControl.estimateMultipliers, if_pos (h.columnCount.trans hv.symm)]
  refine (h.transposedLeastSquares ((Vec.length_negate v).trans hv)).bind fun s hs =>
    (h.transposedProduct hs.2).bind ?_
  rintro _ rfl
  have himage := h.length_applyTransposed s.vector
  exact Completes.bind (completes_except (P := fun _ => True)
    (Vec.add_of_length (himage.trans hv.symm)) trivial) fun _ _ =>
      completes_pure ⟨s, hs.1, hs.2, rfl, rfl, rfl⟩

theorem estimate {settings : Settings K} (h : J.HasShape m n) (hv : v.length = n) :
    Completes (settings.estimate J v) fun e => e.multipliers.length = m := by
  intro l
  obtain ⟨e, l', he, s, -, hlength, hmultipliers, -⟩ := h.estimateMultipliers hv l
  exact ⟨e, l', he, (congrArg List.length hmultipliers).trans hlength⟩

end SparseMatrix.HasShape

theorem Iterate.freshLagrangianGradient_eq {s : Iterate K} (hjacobian : s.jacobian.HasShape m n)
    (hmultipliers : s.multipliers.length = m) (hgradient : s.gradient.length = n) :
    s.freshLagrangianGradient =
      .ok (Vec.plus s.gradient (s.jacobian.applyTransposed s.multipliers)) := by
  have himage := hjacobian.length_applyTransposed s.multipliers
  rw [freshLagrangianGradient, if_pos (hmultipliers.trans hjacobian.rowCount.symm),
    Vec.add_of_length (hgradient.trans himage.symm)]

/-- The parts of an iterate have the shapes that belong to a problem with so many constraints. -/
structure Iterate.Fits (p : Problem K) (m : Nat) (s : Iterate K) : Prop where
  point : s.point.length = p.variableCount
  constraints : s.constraints.length = m
  gradient : s.gradient.length = p.variableCount
  jacobian : s.jacobian.HasShape m p.variableCount
  multipliers : s.multipliers.length = m
  known : ∀ g, s.lagrangianGradient? = some g → g.length = p.variableCount

namespace Iterate.Fits

variable {p : Problem K} {s : Iterate K}

omit [Scalar K] in
theorem recalling (h : s.Fits p m) {g? : Option (Vec K)}
    (hg : ∀ g, g? = some g → g.length = p.variableCount) : (s.recalling g?).Fits p m :=
  ⟨h.point, h.constraints, h.gradient, h.jacobian, h.multipliers, hg⟩

theorem exists_freshLagrangianGradient (h : s.Fits p m) :
    ∃ g, s.freshLagrangianGradient = .ok g ∧ g.length = p.variableCount :=
  ⟨_, freshLagrangianGradient_eq h.jacobian h.multipliers h.gradient,
    Vec.length_plus_of_length h.gradient (h.jacobian.length_applyTransposed s.multipliers)⟩

theorem exists_freshDualNorm (h : s.Fits p m) : ∃ d, s.freshDualNorm = .ok d := by
  obtain ⟨g, hg, -⟩ := h.exists_freshLagrangianGradient
  exact ⟨_, Iterate.freshDualNorm_eq hg⟩

theorem readLagrangianGradient (h : s.Fits p m) :
    Completes s.readLagrangianGradient fun x =>
      x.1.length = p.variableCount ∧ x.2 = s.recalling (some x.1) ∧ x.2.Fits p m := by
  have hread : ∀ g : Vec K, g.length = p.variableCount →
      g.length = p.variableCount ∧ s.recalling (some g) = s.recalling (some g) ∧
        (s.recalling (some g)).Fits p m := by
    intro g hg
    refine ⟨hg, rfl, h.recalling ?_⟩
    rintro _ ⟨⟩
    exact hg
  unfold Iterate.readLagrangianGradient
  split
  · rename_i g hg
    have hself : s = s.recalling (some g) := by rw [← hg, Iterate.recalling_self]
    exact completes_pure ⟨h.known g hg, hself, h⟩
  · refine (h.jacobian.transposedProduct h.multipliers).bind ?_
    rintro _ rfl
    have himage := h.jacobian.length_applyTransposed s.multipliers
    exact Completes.bind (completes_except (P := fun g => g.length = p.variableCount)
      (Vec.add_of_length (h.gradient.trans himage.symm))
      (Vec.length_plus_of_length h.gradient himage)) fun g hg => completes_pure (hread g hg)

theorem readDualNorm (h : s.Fits p m) :
    Completes s.readDualNorm fun x => x.2.Fits p m ∧ ∃ g?, x.2 = s.recalling g? :=
  h.readLagrangianGradient.bind fun _ hx => completes_pure ⟨hx.2.2, _, hx.2.1⟩

theorem lagrangian (h : s.Fits p m) : ∃ merit, s.lagrangian = .ok merit := by
  rw [Iterate.lagrangian, Vec.inner_of_length (h.multipliers.trans h.constraints.symm)]
  exact ⟨_, rfl⟩

theorem report (h : s.Fits p m) (b : Budget K) (stage : String) (iteration : Int)
    (status : String) :
    Completes (s.report b stage iteration status) fun x => x.2.Fits p m :=
  Budget.completes_evaluations.bind fun _ _ => h.readDualNorm.bind fun _ hx =>
    b.completes_elapsed.bind fun _ _ =>
      Completes.bind (completes_modify trivial) fun _ (_ : True) => completes_pure hx.1

theorem isSolved (h : s.Fits p m) (t : RunTolerances K) :
    Completes (RunState.isSolved s t) fun x => x.2.Fits p m :=
  completes_ite (fun _ => h.readDualNorm.bind fun _ hx => completes_pure hx.1) fun _ =>
    completes_pure h

end Iterate.Fits

theorem Problem.IsTotal.evaluate {p : Problem K} (h : p.IsTotal m) {x : Vec K}
    (hx : x.length = p.variableCount) (settings : Settings K) (radius : K) (iteration : Int)
    {multipliers? : Option (Vec K)} (hy : ∀ y, multipliers? = some y → y.length = m) :
    Completes (p.evaluate settings x radius iteration multipliers?) fun s => s.Fits p m := by
  refine (h.objectiveAt hx).bind fun f _ => (h.constraintsAt hx).bind fun c hc =>
    (h.gradientAt hx).bind fun g hg => (h.jacobianAt hx).bind fun J hJ => ?_
  have hJ := h.hasShape hJ
  cases multipliers? with
  | some y =>
    exact Completes.bind (completes_pure (hy y rfl)) fun y hy =>
      completes_pure ⟨hx, hc.2, hg, hJ, hy, nofun⟩
  | none =>
    exact (hJ.estimate hg).bind fun e he => Completes.bind
      (completes_pure (P := fun y : Vec K => y.length = m) he) fun y hy =>
        completes_pure ⟨hx, hc.2, hg, hJ, hy, nofun⟩

end InfeasibilityControl
