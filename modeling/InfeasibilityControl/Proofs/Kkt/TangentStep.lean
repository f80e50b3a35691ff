import InfeasibilityControl.Proofs.Completion
import InfeasibilityControl.Proofs.TangentStep

set_option autoImplicit false
set_option relaxedAutoImplicit false

/-!
A tangent step comes to its end.

A refreshed KKT system can be solved or not. A solve that fails and a direction that leads uphill
are both answered by the projected gradient, and nothing else makes the KKT direction be given up.
Whatever goes wrong in the line search becomes a status, and the step stays where it began.
-/

namespace InfeasibilityControl

open Counted (Always Completes completes_pure completes_ok completes_ite)

variable {K : Type} [Scalar K] {p : Problem K} {m n : Nat}

theorem Equation.length_of_solve {equations : List (Equation K)} {x : Vec K}
    (h : Equation.solve n equations = some x) : x.length = n := by
  induction n generalizing equations x with
  | zero =>
    cases h
    rfl
  | succ n ih =>
    cases equations with
    | nil => cases h
    | cons first others =>
      rw [Equation.solve] at h
      simp only at h
      split at h
      · cases h
      · obtain ⟨later, hlater, rfl⟩ := Option.map_eq_some_iff.1 h
        rw [List.length_cons, ih hlater]

namespace KktSystem

variable {kkt : KktSystem K} {gradient : Vec K} {J : SparseMatrix K}
  {tolerances : LeastSquares.Tolerances K}

theorem Fits.exists_refresh (h : kkt.Fits p m) (hp : p.IsTotal m) {x y : Vec K}
    (hx : x.length = p.variableCount) (hy : y.length = m) (gamma delta : K) (l : Ledger K) :
    ∃ kkt' l', ((kkt.refresh p x y gamma delta).run l).run = ((kkt', .ok ()), l') ∧
      kkt'.Fits p m := by
  obtain ⟨hessian, hhessian, hhessianLength⟩ := hp.hessian_total x y 1 hx hy
  obtain ⟨jacobian, hjacobian, hjacobianLength⟩ := hp.jacobian_total x hx
  have hloaded : kkt.loaded p x y gamma delta = .ok (holding p m hessian jacobian gamma delta) :=
    h.loaded hhessian hhessianLength hjacobian hjacobianLength
  obtain ⟨l', hrefresh⟩ := refresh_of_loaded hloaded l
  exact ⟨_, l', hrefresh, holding_fits hhessianLength hjacobianLength⟩

theorem Fits.exists_matrix (h : kkt.Fits p m) (hp : p.IsPatterned m) :
    ∃ rows, kkt.matrix = .ok rows := by
  obtain ⟨A, hA⟩ := SparseMatrix.ofCoordinates_eq_ok h.values_length.symm (h.isInside hp)
  rw [matrix, lower, hA]
  exact ⟨_, rfl⟩

theorem Fits.solve_cases (h : kkt.Fits p m) (hp : p.IsPatterned m) {rightSide : Vec K}
    (hlength : rightSide.length = kkt.dimension) :
    (∃ d w, kkt.solve rightSide = .ok (d, w) ∧ d.length = p.variableCount) ∨
      ∃ fault, kkt.solve rightSide = .error fault ∧ isSolveFault fault = true := by
  obtain ⟨rows, hrows⟩ := h.exists_matrix hp
  simp only [solve, if_pos hlength, hrows, bind, Except.bind]
  split
  · cases hsolve : Equation.solve kkt.dimension (List.zipWith Equation.mk rows rightSide) with
    | none => exact .inr ⟨_, rfl, rfl⟩
    | some solution =>
      simp only
      split
      · refine .inl ⟨_, _, rfl, ?_⟩
        rw [List.length_take, Equation.length_of_solve hsolve, h.variableCount, h.dimension]
        exact Nat.min_eq_left (Nat.le_add_right _ _)
      · exact .inr ⟨_, rfl, rfl⟩
  · exact .inr ⟨_, rfl, rfl⟩

theorem Fits.length_directionRightSide (h : kkt.Fits p m)
    (hgradient : gradient.length = p.variableCount) :
    (kkt.directionRightSide gradient).length = kkt.dimension := by
  rw [directionRightSide, List.length_append, Vec.length_negate, Vec.length_zeros, hgradient,
    h.constraintCount, h.dimension]

/-- There is no KKT direction to be taken: the solve fails, or its direction leads uphill. -/
def IsUnfit (kkt : KktSystem K) (gradient : Vec K) : Prop :=
  (∃ fault, kkt.solve (kkt.directionRightSide gradient) = .error fault) ∨
    ∃ d w slope, kkt.solve (kkt.directionRightSide gradient) = .ok (d, w) ∧
      Vec.inner gradient d = .ok slope ∧ 0 ≤ slope ∧ Vec.isNonzero d = true

theorem Fits.exists_descentDirection (h : kkt.Fits p m) (hp : p.IsPatterned m)
    (hgradient : gradient.length = p.variableCount) :
    ∃ d?, kkt.descentDirection? gradient = .ok d? ∧ (∀ d ∈ d?, d.length = p.variableCount) ∧
      (d? = none ↔ kkt.IsUnfit gradient) := by
  unfold descentDirection? IsUnfit
  obtain ⟨d, w, hsolve, hd⟩ | ⟨fault, hsolve, hfault⟩ :=
    h.solve_cases hp (h.length_directionRightSide hgradient)
  · have hslope := Vec.inner_of_length (hgradient.trans hd.symm)
    simp only [hsolve, hslope, bind, Except.bind]
    split
    · rename_i huphill
      exact ⟨none, rfl, nofun, by simp [hslope, huphill]⟩
    · rename_i hdownhill
      refine ⟨some d, rfl, ?_, ?_⟩
      · rintro _ ⟨⟩
        exact hd
      · simpa [hslope] using hdownhill
  · rw [hsolve]
    simp only [hfault, if_true]
    exact ⟨none, rfl, nofun, by simp⟩

theorem Fits.searchDirection (h : kkt.Fits p m) (hp : p.IsPatterned m)
    (hgradient : gradient.length = p.variableCount) (hJ : J.HasShape m p.variableCount) :
    Completes (kkt.searchDirection gradient J tolerances) fun x =>
      x.1.length = p.variableCount ∧ (x.2 = .projectedGradient ↔ kkt.IsUnfit gradient) := by
  obtain ⟨d?, hd?, hlength, hunfit⟩ := h.exists_descentDirection hp hgradient
  refine Completes.bind (completes_ok hd?) ?_
  rintro d? rfl
  cases d? with
  | some d => exact completes_pure ⟨hlength d rfl, by simpa using hunfit⟩
  | none =>
    refine (hJ.projectOntoNullSpace hgradient).bind fun tangential ht => completes_pure ?_
    exact ⟨(Vec.length_negate tangential).trans ht, by simpa using hunfit⟩

theorem exists_solve_of_descentDirection {d : Vec K}
    (h : kkt.descentDirection? gradient = .ok (some d)) :
    ∃ w, kkt.solve (kkt.directionRightSide gradient) = .ok (d, w) := by
  unfold descentDirection? at h
  split at h
  · split at h
    · cases h
    · cases h
  · rename_i d' w hsolve
    obtain ⟨slope, -, h⟩ := Counted.except_bind_eq_ok.1 h
    split at h
    · cases h
    · cases h
      exact ⟨w, hsolve⟩

/-- The same search direction is found whatever the ledger: that of the solve, unless it is unfit,
and then that of the projection. -/
theorem Fits.always_searchDirection (h : kkt.Fits p m) (hp : p.IsPatterned m)
    (hgradient : gradient.length = p.variableCount) (hJ : J.HasShape m p.variableCount) :
    ∃ t, Always (J.projectOntoNullSpace gradient tolerances none) t ∧
      t.length = p.variableCount ∧
      ((¬ kkt.IsUnfit gradient ∧ ∃ d w, kkt.solve (kkt.directionRightSide gradient) = .ok (d, w) ∧
          Always (kkt.searchDirection gradient J tolerances) (d, .kkt)) ∨
        (kkt.IsUnfit gradient ∧ Always (kkt.searchDirection gradient J tolerances)
          (Vec.negate t, .projectedGradient))) := by
  obtain ⟨t, ht, hlength⟩ := (hJ.projectOntoNullSpace hgradient).exists_always
    SparseMatrix.projectOntoNullSpace_isBlind
  refine ⟨t, ht, hlength, ?_⟩
  obtain ⟨d?, hd?, -, hunfit⟩ := h.exists_descentDirection hp hgradient
  cases d? with
  | some d =>
    obtain ⟨w, hsolve⟩ := exists_solve_of_descentDirection hd?
    have hfit : ¬ kkt.IsUnfit gradient := by simpa using hunfit
    refine .inl ⟨hfit, d, w, hsolve, fun l => ⟨l, ?_⟩⟩
    simp only [KktSystem.searchDirection, Counted.returns_bind, Counted.returns_except]
    exact ⟨some d, l, ⟨hd?, rfl⟩, Counted.returns_pure.2 ⟨rfl, rfl⟩⟩
  | none =>
    refine .inr ⟨hunfit.1 rfl, fun l => ?_⟩
    obtain ⟨l', hl'⟩ := ht l
    refine ⟨l', ?_⟩
    simp only [KktSystem.searchDirection, Counted.returns_bind, Counted.returns_except]
    refine ⟨none, l, ⟨hd?, rfl⟩, ?_⟩
    simp only [Counted.returns_bind, Counted.returns_pure]
    exact ⟨t, l', hl', rfl, rfl⟩

end KktSystem

namespace LineSearch

variable (line : LineSearch K) {b : Budget K}

theorem completes_evaluate (hp : p.IsTotal m) (horigin : line.origin.length = p.variableCount)
    (hdirection : line.direction.length = p.variableCount) (hy : line.multipliers.length = m)
    (stepSize : K) :
    Completes (line.evaluate p stepSize) fun t => t.point.length = p.variableCount := by
  have hscaled : (Vec.scale stepSize line.direction).length = p.variableCount :=
    (Vec.length_scale _ _).trans hdirection
  have hpoint := Vec.length_plus_of_length horigin hscaled
  refine Completes.bind (completes_ok (Vec.add_of_length (horigin.trans hscaled.symm))) ?_
  rintro point rfl
  refine Budget.completes_evaluations.bind fun before _ =>
    (hp.objectiveAt hpoint).bind fun f _ => (hp.constraintsAt hpoint).bind ?_
  rintro c ⟨-, hc⟩
  exact Completes.bind (completes_ok (Vec.inner_of_length (hy.trans hc.symm))) fun _ _ =>
    completes_pure hpoint

theorem completes_iterate (hp : p.IsTotal m) (horigin : line.origin.length = p.variableCount)
    (hdirection : line.direction.length = p.variableCount) (hy : line.multipliers.length = m)
    (remaining : Nat) (stepSize : K) (trials : List (LineTrial K))
    (htrials : ∀ t ∈ trials, t.point.length = p.variableCount) :
    Completes (line.iterate p b remaining stepSize trials) fun x =>
      ∀ t ∈ x.2, t.point.length = p.variableCount := by
  induction remaining generalizing stepSize trials with
  | zero => exact completes_pure htrials
  | succ remaining ih =>
    refine b.completes_exhausted.bind fun limit? _ => ?_
    cases limit? with
    | some limit => exact completes_pure htrials
    | none =>
      refine (completes_evaluate line hp horigin hdirection hy stepSize).bind fun t ht => ?_
      have hmade : ∀ t' ∈ t :: trials, t'.point.length = p.variableCount :=
        List.forall_mem_cons.2 ⟨ht, htrials⟩
      exact completes_ite (fun _ => completes_pure hmade) fun _ =>
        completes_ite (fun _ => completes_pure hmade) fun _ => ih _ _ hmade

end LineSearch

/-- How a tangent step from a point deals with what goes wrong: without a KKT direction it falls
back on the projected gradient, and a failure leaves it at the point, with a status. -/
structure TangentOutcome.Settles (kkt : KktSystem K) (origin gradient : Vec K)
    (o : TangentOutcome K) : Prop where
  direction : o.direction = .projectedGradient ↔ kkt.IsUnfit gradient
  failure : o.ending.isSuccess = false →
    o.point = origin ∧ o.ending.name ∈ ["unsuccessful", "max_eval", "max_time"]

omit [Scalar K] in
theorem TangentEnding.name_of_failure {ending : TangentEnding K} (h : ending.isSuccess = false) :
    ending.name ∈ ["unsuccessful", "max_eval", "max_time"] := by
  cases ending with
  | stationary | accepted => cases h
  | exhausted limit => cases limit <;> simp [name, Limit.name]
  | notDescent _ | infeasibilityGrowth _ _ | severeCurvature _ _ => simp [name]

theorem KktSystem.Fits.tangentStep {kkt : KktSystem K} (h : kkt.Fits p m) (hp : p.IsTotal m)
    {origin multipliers gradient : Vec K} {J : SparseMatrix K}
    (horigin : origin.length = p.variableCount) (hy : multipliers.length = m)
    (hgradient : gradient.length = p.variableCount) (hJ : J.HasShape m p.variableCount)
    (options : TangentOptions K) (b : Budget K) (merit radius : K) :
    Completes (tangentStep p kkt options b origin multipliers gradient J merit radius) fun o =>
      o.point.length = p.variableCount ∧ o.Settles kkt origin gradient := by
  refine (h.searchDirection hp.toIsPatterned hgradient hJ).bind ?_
  rintro ⟨d, kind⟩ ⟨hd, hkind⟩
  have hstay : ∀ (ending : TangentEnding K) (trials : List (LineTrial K)),
      (⟨origin, ending, 0, kind, trials⟩ : TangentOutcome K).Settles kkt origin gradient :=
    fun ending trials => ⟨hkind, fun hfailure => ⟨rfl, TangentEnding.name_of_failure hfailure⟩⟩
  refine Completes.bind (completes_ok (Vec.inner_of_length (hgradient.trans hd.symm)))
    fun slope _ => completes_ite (fun _ => completes_pure ⟨horigin, hstay _ _⟩) fun _ =>
      completes_ite (fun _ => completes_pure ⟨horigin, hstay _ _⟩) fun _ =>
        Budget.completes_evaluations.bind fun spent _ => ?_
  refine (LineSearch.completes_iterate ⟨origin, d, slope, multipliers, merit,
    options.growth * radius, options⟩ hp horigin hd hy _ 1 [] (by simp)).bind ?_
  rintro ⟨ending, trials⟩ htrials
  split
  · rename_i trial earlier heq
    obtain ⟨rfl, rfl⟩ := Prod.mk.inj heq
    exact completes_pure ⟨htrials trial List.mem_cons_self, hkind, nofun⟩
  · rename_i heq
    obtain ⟨rfl, rfl⟩ := Prod.mk.inj heq
    exact completes_pure ⟨horigin, hstay _ _⟩

end InfeasibilityControl
