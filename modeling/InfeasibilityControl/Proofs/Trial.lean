import InfeasibilityControl.Proofs.NormalStep

set_option autoImplicit false
set_option relaxedAutoImplicit false

/-!
How the trials of a normal step are made.

A pass that goes on has formed the gradient `g = Jᵀ c` and its image `J g`, and `g` does not vanish.
The trial then follows the dogleg path and predicts half the reduction of `‖c + J d‖²`. What each
such pass keeps holds where the passes end. All that a step sees of its budget is on record, and it
ends for the budget only after it has seen the budget exhausted.
-/

namespace InfeasibilityControl

open Counted (Returns)
open Ledger (Quiet)

variable {K : Type} [Scalar K] {l l' : Ledger K} {p : Problem K} {options : NormalOptions K}
  {b : Budget K} {radius : K} {solver : LeastSquares.Solver K}

namespace Problem

variable {x : Vec K}

theorem constraintsAt_checks {c : Vec K} (h : Returns (p.constraintsAt x) l c l') :
    l'.checks = l.checks := by
  simp only [constraintsAt, Counted.count, Counted.pass, Counted.returns_bind,
    Counted.returns_modify, Counted.returns_except] at h
  obtain ⟨_, _, rfl, _, _, rfl, -, rfl⟩ := h
  rfl

theorem jacobianAt_checks {J : SparseMatrix K} (h : Returns (p.jacobianAt x) l J l') :
    l'.checks = l.checks := by
  simp only [jacobianAt, jacobianValuesAt, Counted.count, Counted.returns_bind,
    Counted.returns_modify, Counted.returns_except] at h
  obtain ⟨_, _, ⟨_, _, rfl, -, rfl⟩, _, _, ⟨-, rfl⟩, -, rfl⟩ := h
  rfl

end Problem

namespace NormalState

variable {s s' : NormalState K} {g Jg : Vec K}

/-- What a pass has found before it makes a trial. -/
structure Aims (options : NormalOptions K) (radius : K) (s : NormalState K) (g Jg : Vec K) :
    Prop where
  outside : ¬ s.constraintNorm ≤ radius
  length : s.constraints.length = s.jacobian.rowCount
  gradient : g = s.jacobian.applyTransposed s.constraints
  gradient_length : g.length = s.jacobian.columnCount
  gradient_nonzero : Vec.isNonzero g = true
  image : Jg = s.jacobian.apply g
  region : ¬ s.trustRadius < options.minTrustRadius

theorem examine_aims (h : Returns (s.examine options b radius) l (.inr (g, Jg)) l') :
    s.Aims options radius g Jg := by
  simp only [examine, Counted.returns_bind, Counted.returns_ite, Counted.returns_pure, reduceCtorEq,
    false_and, and_false, false_or] at h
  obtain ⟨houtside, t, l₁, -, h⟩ := h
  cases t with
  | some limit => simp at h
  | none =>
    simp only [Counted.returns_bind, Counted.returns_ite, Counted.returns_pure,
      Counted.returns_except, reduceCtorEq, false_and, and_false, false_or, Sum.inr.injEq,
      Prod.mk.injEq] at h
    obtain ⟨g', l₂, hg, hnonzero, Jg', l₃, hJg, h⟩ := h
    obtain ⟨⟨hlength, rfl⟩, -⟩ := SparseMatrix.transposedProduct_returns hg
    have himage := (SparseMatrix.product_returns hJg).1
    simp only [SparseMatrix.product, Counted.returns_ite, Counted.not_returns_throw, and_false,
      or_false] at hJg
    have hnonzero : Vec.isNonzero (s.jacobian.applyTransposed s.constraints) = true := by
      simpa using hnonzero
    -- The point has been found stationary or not asked about; what remains is the region.
    obtain ⟨-, _, _, -, -, hregion, ⟨rfl, rfl⟩, -⟩ | ⟨-, hregion, ⟨rfl, rfl⟩, -⟩ := h
    · exact ⟨houtside, hlength, rfl, hJg.1, hnonzero, himage, hregion⟩
    · exact ⟨houtside, hlength, rfl, hJg.1, hnonzero, himage, hregion⟩

/-- The trial that is made from a state with this gradient and its image. -/
structure Makes (solver : LeastSquares.Solver K) (s : NormalState K) (g Jg : Vec K) (t : Trial K) :
    Prop where
  origin : t.origin = s.point
  jacobian : t.jacobian = s.jacobian
  trustRadius : t.trustRadius = s.trustRadius
  displacement : ∃ gaussNewton,
    solver s.jacobian.operator (Vec.negate s.constraints) = .ok gaussNewton ∧
    dogleg gaussNewton.vector (cauchyStep g Jg) g s.trustRadius = .ok t.displacement
  predicted : ∃ modelled normSquare modelSquare,
    Vec.add s.constraints (s.jacobian.apply t.displacement) = .ok modelled ∧
    squareOf s.constraintNorm = .ok normSquare ∧ squareOf (Vec.norm modelled) = .ok modelSquare ∧
    t.predicted = 0.5 * (normSquare - modelSquare)

/-- What becomes of a trial. -/
structure Decides (p : Problem K) (options : NormalOptions K) (s : NormalState K) (t : Trial K)
    (s' : NormalState K) : Prop where
  point : Vec.add s.point t.displacement = .ok t.point
  /-- The ratio of reductions decides about the trial and about the next trust region. -/
  judged : ∃ normSquare ratio, squareOf s.constraintNorm = .ok normSquare ∧
    reductionRatio normSquare t.constraintNorm t.predicted = .ok ratio ∧
    t.accepted =
      (ratioReaches ratio options.acceptance && decide (t.constraintNorm < s.constraintNorm)) ∧
    s'.trustRadius = nextTrustRadius ratio (Vec.norm t.displacement) s.trustRadius
  constraints : ∃ c, p.constraints t.point = .ok c ∧ t.constraintNorm = Vec.norm c ∧
    (t.accepted = true → s'.constraints = c)
  accepted : t.accepted = true → s'.point = t.point ∧ s'.constraintNorm = t.constraintNorm ∧
    p.jacobian t.point = .ok s'.jacobian ∧ s'.rejected = false
  rejected : t.accepted = false → s'.point = s.point ∧ s'.constraints = s.constraints ∧
    s'.constraintNorm = s.constraintNorm ∧ s'.jacobian = s.jacobian ∧ s'.rejected = true

theorem attempt_decides (h : Returns (s.attempt solver p options g Jg) l s' l') :
    ∃ t, s'.trials = s.trials ++ [t] ∧ s.Makes solver g Jg t ∧ s.Decides p options t s' := by
  simp only [attempt, Counted.returns_bind, Counted.returns_ite, Counted.returns_pure,
    Counted.returns_except, Budget.evaluations_returns] at h
  obtain ⟨_, _, hsolve, _, _, ⟨hd, rfl⟩, normSquare, _, ⟨hnorm, rfl⟩, _, _, himage, _, _,
    ⟨hmodel, rfl⟩, _, _, ⟨hsquare, rfl⟩, _, _, ⟨hpoint, rfl⟩, _, _, ⟨rfl, rfl⟩, c, _, hc, ratio, _,
    ⟨hratio, rfl⟩, hend⟩ := h
  obtain ⟨rfl, -⟩ := SparseMatrix.product_returns himage
  have hsolve := (SparseMatrix.leastSquares_returns hsolve).1
  have hvalue := (Problem.constraintsAt_returns hc).1
  obtain ⟨haccepted, J, _, hJ, rfl, rfl⟩ | ⟨hrejected, rfl, rfl⟩ := hend
  · have hJ := (Problem.jacobianAt_returns hJ).1
    refine ⟨_, rfl, ⟨rfl, rfl, rfl, ⟨_, hsolve, hd⟩, ⟨_, _, _, hmodel, hnorm, hsquare, rfl⟩⟩, ?_⟩
    exact ⟨hpoint, ⟨normSquare, ratio, hnorm, hratio, rfl, rfl⟩, ⟨c, hvalue, rfl, fun _ => rfl⟩,
      fun _ => ⟨rfl, rfl, hJ, rfl⟩, fun hfalse => absurd haccepted (by simpa using hfalse)⟩
  · refine ⟨_, rfl, ⟨rfl, rfl, rfl, ⟨_, hsolve, hd⟩, ⟨_, _, _, hmodel, hnorm, hsquare, rfl⟩⟩, ?_⟩
    exact ⟨hpoint, ⟨normSquare, ratio, hnorm, hratio, rfl, rfl⟩,
      ⟨c, hvalue, rfl, fun htrue => absurd htrue hrejected⟩, fun htrue => absurd htrue hrejected,
      fun _ => ⟨rfl, rfl, rfl, rfl, rfl⟩⟩

theorem attempt_makes (h : Returns (s.attempt solver p options g Jg) l s' l') :
    ∃ t, s'.trials = s.trials ++ [t] ∧ s.Makes solver g Jg t := by
  obtain ⟨t, htrials, hmakes, -⟩ := attempt_decides h
  exact ⟨t, htrials, hmakes⟩

theorem iterate_succ_returns {passes made : Nat} {l₁ : Ledger K}
    {x : NormalState K × NormalStatus × Int}
    (h : Returns (iterate solver p options b radius (passes + 1) made s) l x l')
    (hexamine : Returns (s.examine options b radius) l (.inr (g, Jg)) l₁) :
    ∃ s₁ l₂, Returns (s.attempt solver p options g Jg) l₁ s₁ l₂ ∧
      Returns (iterate solver p options b radius passes (made + 1) s₁) l₂ x l' := by
  simp only [iterate, Counted.returns_bind] at h
  obtain ⟨y, l₂, hy, h⟩ := h
  obtain ⟨rfl, rfl⟩ := hexamine.unique hy
  simp only [Counted.returns_bind] at h
  exact h

/-- What holds where the passes begin and is kept by every pass that makes a trial holds where they
end. -/
theorem iterate_rule {P : NormalState K → Prop} {passes made : Nat} {last : NormalState K}
    {status : NormalStatus} {count : Int}
    (h : Returns (iterate solver p options b radius passes made s) l (last, status, count) l')
    (hs : P s)
    (hpass : ∀ s g Jg l s' l', P s → s.Aims options radius g Jg →
      Returns (s.attempt solver p options g Jg) l s' l' → P s') : P last := by
  replace h := runs_of_iterate h
  induction h with
  | concluded concluding => exact hs
  | ended ending => exact hs
  | tried aiming trying later ih => exact ih (hpass _ _ _ _ _ _ hs (examine_aims aiming) trying)

theorem Runs.trials_prefix {passes made : Nat} {last : NormalState K} {status : NormalStatus}
    {count : Int} (h : Runs solver p options b radius passes made s l last status count l') :
    s.trials <+: last.trials := by
  induction h with
  | concluded concluding => exact List.prefix_rfl
  | ended ending => exact List.prefix_rfl
  | tried aiming trying later ih =>
    obtain ⟨t, htrials, -⟩ := attempt_makes trying
    rw [htrials] at ih
    exact (List.prefix_append _ _).trans ih

theorem Runs.first_trial {passes made : Nat} {last : NormalState K} {status : NormalStatus}
    {count : Int} (h : Runs solver p options b radius passes made s l last status count l') :
    last.trials = s.trials ∨ ∃ t ∈ last.trials, t.origin = s.point ∧ t.jacobian = s.jacobian := by
  cases h with
  | concluded concluding => exact .inl rfl
  | ended ending => exact .inl rfl
  | tried aiming trying later =>
    obtain ⟨t, htrials, hmakes⟩ := attempt_makes trying
    exact .inr ⟨t, later.trials_prefix.subset (htrials ▸ List.mem_concat_self), hmakes.origin,
      hmakes.jacobian⟩

end NormalState

/-- What a computation has added to the checks on record; if it ended for the budget, one of them
said so. -/
def Budget.Sees (b : Budget K) (status? : Option NormalStatus) (l l' : Ledger K) : Prop :=
  ∃ seen, l'.checks = l.checks ++ seen ∧
    ∀ limit, status? = some (.exhausted limit) → ∃ check ∈ seen, b.verdict check = some limit

theorem Budget.sees_of_exhausted {limit? : Option Limit} {status? : Option NormalStatus}
    {l₁ : Ledger K} (h : Returns b.exhausted l limit? l₁) (hchecks : l'.checks = l₁.checks)
    (hends : ∀ limit, status? = some (.exhausted limit) → limit? = some limit) :
    b.Sees status? l l' := by
  obtain ⟨hverdict, hlook, -⟩ := Budget.exhausted_returns h
  refine ⟨[b.look l], hchecks.trans hlook, fun limit hlimit => ?_⟩
  exact ⟨b.look l, List.mem_singleton.2 rfl, hverdict.symm.trans (hends limit hlimit)⟩

namespace NormalState

variable {s s' : NormalState K} {g Jg : Vec K}

theorem attempt_checks (h : Returns (s.attempt solver p options g Jg) l s' l') :
    l'.checks = l.checks := by
  simp only [attempt, Counted.returns_bind, Counted.returns_ite, Counted.returns_pure,
    Counted.returns_except, Budget.evaluations_returns] at h
  obtain ⟨_, _, hsolve, _, _, ⟨-, rfl⟩, _, _, ⟨-, rfl⟩, _, _, himage, _, _, ⟨-, rfl⟩, _, _,
    ⟨-, rfl⟩, _, _, ⟨-, rfl⟩, _, _, ⟨rfl, rfl⟩, _, _, hc, _, _, ⟨-, rfl⟩, htrial⟩ := h
  have hmodel := (SparseMatrix.leastSquares_returns hsolve).2.trans
    (SparseMatrix.product_returns himage).2
  have hc := (Problem.constraintsAt_checks hc).trans hmodel.checks
  obtain ⟨-, _, _, hJ, -, rfl⟩ | ⟨-, -, rfl⟩ := htrial
  · exact (Problem.jacobianAt_checks hJ).trans hc
  · exact hc

theorem examine_sees {x : NormalStatus ⊕ (Vec K × Vec K)}
    (h : Returns (s.examine options b radius) l x l') : b.Sees x.getLeft? l l' := by
  simp only [examine, Counted.returns_bind, Counted.returns_ite, Counted.returns_pure] at h
  obtain ⟨-, rfl, rfl⟩ | ⟨-, t, l₁, ht, h⟩ := h
  · exact ⟨[], by simp, by simp⟩
  cases t with
  | some limit =>
    simp only [Counted.returns_pure] at h
    obtain ⟨rfl, rfl⟩ := h
    refine Budget.sees_of_exhausted ht rfl ?_
    rintro _ ⟨⟩
    rfl
  | none =>
    simp only [Counted.returns_bind, Counted.returns_ite, Counted.returns_pure,
      Counted.returns_except] at h
    obtain ⟨g', l₂, hg, hsearch⟩ := h
    have hg := (SparseMatrix.transposedProduct_returns hg).2
    have hquiet : Quiet l₁ l' ∧ ∀ limit, x.getLeft? ≠ some (.exhausted limit) := by
      obtain ⟨-, rfl, rfl⟩ | ⟨-, Jg, l₃, hJg, hsearch⟩ := hsearch
      · exact ⟨hg, by simp⟩
      have hJg := hg.trans (SparseMatrix.product_returns hJg).2
      obtain ⟨-, _, _, ⟨-, rfl⟩, ⟨-, rfl, rfl⟩ | ⟨-, hregion⟩⟩ | ⟨-, hregion⟩ := hsearch
      · exact ⟨hJg, by simp⟩
      all_goals
        obtain ⟨-, rfl, rfl⟩ | ⟨-, rfl, rfl⟩ := hregion
        · exact ⟨hJg, by simp⟩
        · exact ⟨hJg, by simp⟩
    exact Budget.sees_of_exhausted ht hquiet.1.checks fun limit hlimit =>
      absurd hlimit (hquiet.2 limit)

theorem conclude_sees {status : NormalStatus} (h : Returns (s.conclude b radius) l status l') :
    b.Sees (some status) l l' := by
  simp only [conclude, Counted.returns_bind, Counted.returns_ite, Counted.returns_pure] at h
  obtain ⟨-, rfl, rfl⟩ | ⟨-, t, l₁, ht, h⟩ := h
  · exact ⟨[], by simp, by simp⟩
  cases t with
  | some limit =>
    simp only [Counted.returns_pure] at h
    obtain ⟨rfl, rfl⟩ := h
    refine Budget.sees_of_exhausted ht rfl ?_
    rintro _ ⟨⟩
    rfl
  | none =>
    simp only [Counted.returns_pure] at h
    obtain ⟨rfl, rfl⟩ := h
    exact Budget.sees_of_exhausted ht rfl (by simp)

theorem iterate_sees {passes made : Nat} {last : NormalState K} {status : NormalStatus}
    {count : Int}
    (h : Returns (iterate solver p options b radius passes made s) l (last, status, count) l') :
    b.Sees (some status) l l' := by
  replace h := runs_of_iterate h
  induction h with
  | concluded concluding => exact conclude_sees concluding
  | ended ending => exact examine_sees ending
  | tried aiming trying later ih =>
    obtain ⟨seen, hchecks, -⟩ := examine_sees aiming
    obtain ⟨later, hlater, hends⟩ := ih
    refine ⟨seen ++ later, ?_, ?_⟩
    · rw [hlater, attempt_checks trying, hchecks, List.append_assoc]
    · intro limit hlimit
      obtain ⟨check, hmem, hverdict⟩ := hends limit hlimit
      exact ⟨check, List.mem_append_right seen hmem, hverdict⟩

end NormalState

theorem normalStep_passes_from {start c : Vec K} {jacobian? : Option (SparseMatrix K)}
    {rho bound relativeDual floor : K} {o : NormalOutcome K}
    (h : Returns (normalStepWith solver p options b start c jacobian? rho bound relativeDual floor)
      l o l')
    (hJ : ∀ J ∈ jacobian?, p.jacobian start = .ok J) :
    ∃ J l₁ last, p.jacobian start = .ok J ∧ l₁.checks = l.checks ∧
      Returns (NormalState.iterate solver p options b (updateRadius rho bound relativeDual floor)
        options.maxTrials.toNat 0 ⟨start, c, Vec.norm c, J, options.trustRadius, false, []⟩) l₁
        (last, o.status, o.passes) l' ∧
      o = ⟨last.point, last.constraints, last.jacobian, updateRadius rho bound relativeDual floor,
        o.status, o.passes, last.trustRadius, last.trials⟩ := by
  cases jacobian? with
  | none =>
    simp only [normalStepWith, Counted.returns_bind, Counted.returns_pure] at h
    obtain ⟨J, l₁, hfound, ⟨last, status, count⟩, l₂, hpasses, rfl, rfl⟩ := h
    exact ⟨J, l₁, last, (Problem.jacobianAt_returns hfound).1, Problem.jacobianAt_checks hfound,
      hpasses, rfl⟩
  | some known =>
    obtain ⟨last, status, count, hpasses, rfl⟩ := normalStep_passes_known h
    exact ⟨known, l, last, hJ known rfl, rfl, hpasses, rfl⟩

/-- A normal step ends for the budget only after one of its checks said so. -/
theorem normalStep_sees {start c : Vec K} {jacobian? : Option (SparseMatrix K)}
    {rho bound relativeDual floor : K} {o : NormalOutcome K}
    (h : Returns (normalStepWith solver p options b start c jacobian? rho bound relativeDual floor)
      l o l')
    (hJ : ∀ J ∈ jacobian?, p.jacobian start = .ok J) : b.Sees (some o.status) l l' := by
  obtain ⟨J, l₁, last, -, hchecks, hpasses, -⟩ := normalStep_passes_from h hJ
  obtain ⟨seen, hseen, hends⟩ := NormalState.iterate_sees hpasses
  exact ⟨seen, hchecks ▸ hseen, hends⟩

end InfeasibilityControl
