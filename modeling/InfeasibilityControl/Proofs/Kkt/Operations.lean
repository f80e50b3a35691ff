import InfeasibilityControl.Proofs.Evaluation

set_option autoImplicit false
set_option relaxedAutoImplicit false

/-!
What operations leave of a KKT system.

Its pattern is that of the problem for good, and each block keeps as many values as it has
positions, whatever is asked of the system and whether or not it succeeds. A refresh that succeeds
forgets all that was before it, and nothing but a refresh changes a value.
-/

namespace InfeasibilityControl

open Counted (Returns)

variable {K : Type}

/-- What can be asked of a KKT system. -/
inductive KktOperation (K : Type)
  | refresh (x multipliers : Vec K) (gamma delta : K)
  | matrix
  | solve (rightSide : Vec K)
  | buildPattern

/-- The operation may change values. -/
def KktOperation.isRefresh : KktOperation K → Bool
  | .refresh .. => true
  | .matrix | .solve _ | .buildPattern => false

/-- The positions at which a problem with so many constraints reports derivatives lie inside the
Jacobian and inside the Hessian. -/
structure Problem.IsPatterned (p : Problem K) (m : Nat) : Prop where
  rowCount : p.rowCount = .ok m
  jacobian : ∀ q ∈ p.jacobianPattern, q.isInside m p.variableCount = true
  hessian : ∀ q ∈ p.hessianPattern, q.isInside p.variableCount p.variableCount = true

theorem Problem.IsPatterned.jacobian_eq [Scalar K] {p : Problem K} {m : Nat} {x values : Vec K}
    (h : p.IsPatterned m) (hvalues : p.jacobianValues x = .ok values) :
    p.jacobian x = SparseMatrix.ofCoordinates m p.variableCount p.jacobianPattern values := by
  simp only [Problem.jacobian, hvalues, h.rowCount, bind, Except.bind]

theorem Position.isInside_iff {q : Position} {m n : Nat} :
    q.isInside m n = true ↔ 0 ≤ q.1 ∧ q.1 < m ∧ 0 ≤ q.2 ∧ q.2 < n := by
  simp [isInside, and_assoc]

theorem extract_eq {α : Type} {xs : List α} (as bs cs : List α) {i j : Nat}
    (hxs : xs = as ++ bs ++ cs) (hi : as.length = i) (hj : i + bs.length = j) :
    xs.extract i j = bs := by
  subst hxs hi hj
  rw [List.extract_eq_take_drop, List.append_assoc, List.drop_left, Nat.add_sub_cancel_left,
    List.take_left]

theorem extract_append_four {α : Type} {as bs cs ds : List α} {i j k l : Nat}
    (hi : as.length = i) (hj : bs.length = j) (hk : cs.length = k) (hl : ds.length = l) :
    [(0, i), (i, i + j), (i + j, i + j + k), (i + j + k, i + j + k + l)].map
      (fun b => (as ++ bs ++ cs ++ ds).extract b.1 b.2) = [as, bs, cs, ds] := by
  subst hi hj hk hl
  have hfirst : (as ++ bs ++ cs ++ ds).extract 0 as.length = as :=
    extract_eq [] as (bs ++ cs ++ ds) (by simp) rfl (Nat.zero_add _)
  have hsecond : (as ++ bs ++ cs ++ ds).extract as.length (as.length + bs.length) = bs :=
    extract_eq as bs (cs ++ ds) (List.append_assoc _ cs ds) rfl rfl
  have hthird := extract_eq (as ++ bs) cs ds rfl List.length_append rfl
  have hfourth := extract_eq (as ++ bs ++ cs) ds [] (List.append_nil _).symm
    (by rw [List.length_append, List.length_append]) rfl
  simp only [List.map_cons, List.map_nil, hfirst, hsecond, hthird, hfourth]

namespace KktSystem

/-- The system has the pattern of a problem with so many constraints, and each block of values fits
its block of positions. -/
structure Fits (p : Problem K) (m : Nat) (kkt : KktSystem K) : Prop where
  variableCount : kkt.variableCount = p.variableCount
  constraintCount : kkt.constraintCount = m
  hessianPattern : kkt.hessianPattern = p.hessianPattern
  jacobianPattern : kkt.jacobianPattern = p.jacobianPattern
  hessianValues : kkt.hessianValues.length = p.hessianPattern.length
  jacobianValues : kkt.jacobianValues.length = p.jacobianPattern.length

theorem Fits.dimension {p : Problem K} {m : Nat} {kkt : KktSystem K} (h : kkt.Fits p m) :
    kkt.dimension = p.variableCount + m := by
  rw [KktSystem.dimension, h.variableCount, h.constraintCount]

theorem Fits.positions {p : Problem K} {m : Nat} {kkt : KktSystem K} (h : kkt.Fits p m) :
    kkt.positions = p.hessianPattern ++ p.jacobianPattern.map (Position.below p.variableCount) ++
      (List.range p.variableCount).map Position.diagonal ++
      (List.range m).map fun i => Position.diagonal (p.variableCount + i) := by
  rw [KktSystem.positions, h.variableCount, h.constraintCount, h.hessianPattern,
    h.jacobianPattern]

/-- The offsets of the blocks cut the positions into the patterns of the four parts. -/
theorem blocks_positions (kkt : KktSystem K) :
    kkt.blocks.map (fun b => kkt.positions.extract b.1 b.2) =
      [kkt.hessianPattern, kkt.jacobianPattern.map (Position.below kkt.variableCount),
        (List.range kkt.variableCount).map Position.diagonal,
        (List.range kkt.constraintCount).map fun i =>
          Position.diagonal (kkt.variableCount + i)] :=
  extract_append_four rfl (List.length_map _) (by simp) (by simp)

/-- They cut the values into those of the four parts. -/
theorem Fits.blocks_values [Scalar K] {p : Problem K} {m : Nat} {kkt : KktSystem K}
    (h : kkt.Fits p m) : kkt.blocks.map (fun b => kkt.values.extract b.1 b.2) =
      [kkt.hessianValues, kkt.jacobianValues, List.replicate kkt.variableCount kkt.gamma,
        List.replicate kkt.constraintCount (-kkt.delta)] := by
  have hhessian : kkt.hessianValues.length = kkt.hessianPattern.length := by
    rw [h.hessianValues, h.hessianPattern]
  have hjacobian : kkt.jacobianValues.length = kkt.jacobianPattern.length := by
    rw [h.jacobianValues, h.jacobianPattern]
  exact extract_append_four hhessian hjacobian List.length_replicate List.length_replicate

theorem Fits.isInside {p : Problem K} {m : Nat} {kkt : KktSystem K} (h : kkt.Fits p m)
    (hp : p.IsPatterned m) :
    ∀ q ∈ kkt.positions, q.isInside kkt.dimension kkt.dimension = true := by
  rw [h.positions, h.dimension]
  intro q hq
  simp only [List.mem_append, List.mem_map, List.mem_range] at hq
  rw [Position.isInside_iff]
  obtain ((hq | ⟨q, hq, rfl⟩) | ⟨k, hk, rfl⟩) | ⟨k, hk, rfl⟩ := hq
  · have hinside := Position.isInside_iff.1 (hp.hessian q hq)
    omega
  · have hinside := Position.isInside_iff.1 (hp.jacobian q hq)
    simp only [Position.below]
    omega
  · simp only [Position.diagonal]
    omega
  · simp only [Position.diagonal]
    omega

variable [Scalar K] {p : Problem K} {m : Nat} {kkt kkt' : KktSystem K} {l l' : Ledger K}

/-- The system after an operation. Values are changed by a refresh only, and the pattern is not
built a second time. -/
def perform (p : Problem K) (kkt : KktSystem K) :
    KktOperation K → StateM (Ledger K) (KktSystem K)
  | .refresh x multipliers gamma delta => return (← kkt.refresh p x multipliers gamma delta).1
  | .matrix | .solve _ => return kkt
  | .buildPattern => return match kkt.buildPattern with
      | .ok rebuilt => rebuilt
      | .error _ => kkt

/-- The system after a sequence of operations, each of which may fail. -/
def performAll (p : Problem K) (kkt : KktSystem K) (operations : List (KktOperation K)) :
    StateM (Ledger K) (KktSystem K) :=
  operations.foldlM (perform p) kkt

theorem Fits.values_length (h : kkt.Fits p m) : kkt.values.length = kkt.positions.length := by
  rw [h.positions]
  simp [values, h.variableCount, h.constraintCount, h.hessianValues, h.jacobianValues]

theorem exists_ofProblem (hrows : p.rowCount = .ok m) :
    ∃ kkt : KktSystem K, ofProblem p = .ok kkt := by
  rw [ofProblem, hrows]
  exact ⟨_, rfl⟩

theorem fits_of_ofProblem (hrows : p.rowCount = .ok m) (h : ofProblem p = .ok kkt) :
    kkt.Fits p m := by
  rw [ofProblem, hrows] at h
  cases h
  exact ⟨rfl, rfl, rfl, rfl, List.length_replicate, List.length_replicate⟩

omit [Scalar K] in
theorem fill_length {size : Nat} {values filled : List K} (h : fill size values = .ok filled) :
    filled.length = size := by
  unfold fill at h
  split at h
  · cases h
    assumption
  · split at h
    · cases h
      exact List.length_replicate
    · cases h

omit [Scalar K] in
theorem fill_of_length {size : Nat} {values : List K} (h : values.length = size) :
    fill size values = .ok values := if_pos h

theorem Fits.refresh (h : kkt.Fits p m) (x y : Vec K) (gamma delta : K) (l : Ledger K) :
    ((kkt.refresh p x y gamma delta).run l).run.1.1.Fits p m := by
  simp only [KktSystem.refresh, StateT.run_bind, Id.run_bind]
  rcases hhalf : ((kkt.refreshHessian p x y).run.run l).run with ⟨half?, l₁⟩
  cases half? with
  | error fault => exact h
  | ok half =>
    have hhalf : half.Fits p m := by
      simp only [← Counted.Returns.eq_1, refreshHessian, Counted.returns_bind,
        Counted.returns_except, Counted.returns_pure] at hhalf
      obtain ⟨_, _, -, values, _, ⟨hfill, rfl⟩, rfl, rfl⟩ := hhalf
      exact ⟨h.variableCount, h.constraintCount, h.hessianPattern, h.jacobianPattern,
        (fill_length hfill).trans (by rw [h.hessianPattern]), h.jacobianValues⟩
    simp only [StateT.run_bind, Id.run_bind]
    rcases hfull : ((half.refreshJacobian p x).run.run l₁).run with ⟨full?, l₂⟩
    cases full? with
    | error fault => exact hhalf
    | ok full =>
      simp only [← Counted.Returns.eq_1, refreshJacobian, Counted.returns_bind,
        Counted.returns_except, Counted.returns_pure] at hfull
      obtain ⟨_, _, -, values, _, ⟨hfill, rfl⟩, rfl, rfl⟩ := hfull
      exact ⟨hhalf.variableCount, hhalf.constraintCount, hhalf.hessianPattern,
        hhalf.jacobianPattern, hhalf.hessianValues,
        (fill_length hfill).trans (by rw [hhalf.jacobianPattern])⟩

theorem Fits.perform (h : kkt.Fits p m) (operation : KktOperation K) (l : Ledger K) :
    ((kkt.perform p operation).run l).run.1.Fits p m := by
  cases operation with
  | refresh x y gamma delta => exact h.refresh x y gamma delta l
  | matrix | solve _ | buildPattern => exact h

theorem performAll_cons (operation : KktOperation K) (operations : List (KktOperation K)) :
    kkt.performAll p (operation :: operations) =
      kkt.perform p operation >>= fun kkt => kkt.performAll p operations := by
  rw [performAll, List.foldlM_cons]
  rfl

theorem performAll_append (first second : List (KktOperation K)) :
    kkt.performAll p (first ++ second) =
      kkt.performAll p first >>= fun kkt => kkt.performAll p second := by
  rw [performAll, List.foldlM_append]
  rfl

theorem Fits.performAll (h : kkt.Fits p m) (operations : List (KktOperation K)) (l : Ledger K) :
    ((kkt.performAll p operations).run l).run.1.Fits p m := by
  induction operations generalizing kkt l with
  | nil => exact h
  | cons operation operations ih =>
    rw [performAll_cons]
    exact ih (h.perform operation l) _

theorem performAll_of_quiet {operations : List (KktOperation K)}
    (h : ∀ operation ∈ operations, operation.isRefresh = false) (l : Ledger K) :
    ((kkt.performAll p operations).run l).run.1 = kkt := by
  induction operations generalizing l with
  | nil => rfl
  | cons operation operations ih =>
    have hquiet := h operation List.mem_cons_self
    have hrest := ih fun op hop => h op (List.mem_cons_of_mem _ hop)
    rw [performAll_cons]
    cases operation with
    | refresh x y gamma delta => cases hquiet
    | matrix | solve _ | buildPattern => exact hrest l

/-- The system of a problem that holds these values. -/
def holding (p : Problem K) (m : Nat) (hessian jacobian : List K) (gamma delta : K) :
    KktSystem K where
  variableCount := p.variableCount
  constraintCount := m
  hessianPattern := p.hessianPattern
  jacobianPattern := p.jacobianPattern
  hessianValues := hessian
  jacobianValues := jacobian
  gamma := gamma
  delta := delta

section

variable {x y : Vec K} {gamma delta : K} {hessian jacobian : List K}

omit [Scalar K] in
theorem holding_fits (hhessian : hessian.length = p.hessianPattern.length)
    (hjacobian : jacobian.length = p.jacobianPattern.length) :
    (holding p m hessian jacobian gamma delta).Fits p m :=
  ⟨rfl, rfl, rfl, rfl, hhessian, hjacobian⟩

theorem Fits.loaded (h : kkt.Fits p m) (hhessian : p.hessianValues x y 1 = .ok hessian)
    (hhessianLength : hessian.length = p.hessianPattern.length)
    (hjacobian : p.jacobianValues x = .ok jacobian)
    (hjacobianLength : jacobian.length = p.jacobianPattern.length) :
    kkt.loaded p x y gamma delta = .ok (holding p m hessian jacobian gamma delta) := by
  refine loaded_eq_ok_iff.2 ⟨hessian, hessian, jacobian, jacobian, hhessian, ?_, hjacobian, ?_, ?_⟩
  · rw [h.hessianPattern, fill_of_length hhessianLength]
  · rw [h.jacobianPattern, fill_of_length hjacobianLength]
  · rw [holding, ← h.variableCount, ← h.constraintCount, ← h.hessianPattern, ← h.jacobianPattern]

/-- After a refresh that succeeds and any operations that are not refreshes, a system holds what it
was refreshed with, whatever was before. -/
theorem performAll_of_lastRefresh (h : kkt.Fits p m)
    (hhessian : p.hessianValues x y 1 = .ok hessian)
    (hhessianLength : hessian.length = p.hessianPattern.length)
    (hjacobian : p.jacobianValues x = .ok jacobian)
    (hjacobianLength : jacobian.length = p.jacobianPattern.length)
    (before after : List (KktOperation K))
    (hafter : ∀ operation ∈ after, operation.isRefresh = false) (l : Ledger K) :
    ((kkt.performAll p (before ++ .refresh x y gamma delta :: after)).run l).run.1 =
      holding p m hessian jacobian gamma delta := by
  rw [performAll_append, StateT.run_bind, Id.run_bind]
  rcases hbefore : ((kkt.performAll p before).run l).run with ⟨kkt₁, l₁⟩
  have hfits : kkt₁.Fits p m := by
    have hfits := h.performAll before l
    rwa [hbefore] at hfits
  have hloaded : kkt₁.loaded p x y gamma delta = .ok (holding p m hessian jacobian gamma delta) :=
    hfits.loaded hhessian hhessianLength hjacobian hjacobianLength
  obtain ⟨l₂, hrefresh⟩ := refresh_of_loaded hloaded l₁
  have hperform : ((kkt₁.perform p (.refresh x y gamma delta)).run l₁).run =
      (holding p m hessian jacobian gamma delta, l₂) := by
    simp only [KktSystem.perform, StateT.run_bind, Id.run_bind, hrefresh]
    rfl
  rw [performAll_cons, StateT.run_bind, Id.run_bind, hperform]
  exact performAll_of_quiet hafter l₂

end

end KktSystem

end InfeasibilityControl
