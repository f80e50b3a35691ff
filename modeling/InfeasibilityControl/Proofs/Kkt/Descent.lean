import Mathlib
import InfeasibilityControl.Proofs.Exact.AffineStep
import InfeasibilityControl.Proofs.Exact.SingleUnknown
import InfeasibilityControl.Proofs.FirstAcceptable
import InfeasibilityControl.Proofs.Kkt.Curvature

set_option autoImplicit false
set_option relaxedAutoImplicit false

/-!
Search directions lead downhill.

A KKT direction is kept only if it is zero or leads downhill, and where it is zero the multipliers
of the solve write the gradient as a combination of the rows of the Jacobian. So does a projected
gradient that is zero, and any other one leads downhill. A tangent step is therefore never turned
away for want of descent, and it succeeds without moving only where the gradient is such a
combination.
-/

namespace InfeasibilityControl

open Counted (Always Returns)
open scoped InnerProductSpace

variable {J : SparseMatrix ℝ} {p : Problem ℝ} {m n : Nat} {gradient d t v w : Vec ℝ}
  {tolerances : LeastSquares.Tolerances ℝ}

namespace SparseMatrix

theorem HasShape.self (h : J.HasShape m n) : J.HasShape J.rowCount J.columnCount := by
  rwa [h.rowCount, h.columnCount]

/-- The direction is the negative of the orthogonal projection of the gradient onto the null space.
It does not depend on the minimizer that the projection is made with, and to project it again with
some minimizer changes nothing. -/
structure IsProjectedDescent (J : SparseMatrix ℝ) (tolerances : LeastSquares.Tolerances ℝ)
    (gradient d : Vec ℝ) : Prop where
  projection : d.euclid J.columnCount = -(LinearMap.ker
    (J.linear J.rowCount J.columnCount)).starProjection (gradient.euclid J.columnCount)
  tangent : J.apply d = Vec.zeros J.rowCount
  slope : Vec.dot gradient d = -Vec.norm d ^ 2
  residual : ∀ w, J.Approximates gradient w →
    d = Vec.negate (Vec.minus gradient (J.applyTransposed w))
  fixed : J.SolvesTransposed tolerances d →
    Always (J.projectOntoNullSpace d tolerances none) d

theorem HasShape.isProjectedDescent (h : J.HasShape J.rowCount J.columnCount)
    (hsolves : J.SolvesTransposed tolerances gradient)
    (hgradient : gradient.length = J.columnCount)
    (ht : Always (J.projectOntoNullSpace gradient tolerances none) t) :
    J.IsProjectedDescent tolerances gradient (Vec.negate t) ∧
      (Vec.isNonzero (Vec.negate t) = false → J.InRowSpace gradient) := by
  obtain ⟨w, ha, hw⟩ := h.always_projectOntoNullSpace hsolves hgradient
  obtain rfl := ht.unique hw
  let K := LinearMap.ker (J.linear J.rowCount J.columnCount)
  have hlength : ∀ w, (Vec.minus gradient (J.applyTransposed w)).length = J.columnCount :=
    fun w => Vec.length_minus_of_length hgradient (h.length_applyTransposed w)
  have hdlength : (Vec.negate (Vec.minus gradient (J.applyTransposed w))).length =
      J.columnCount := (Vec.length_negate _).trans (hlength w)
  have hprojection : (Vec.negate (Vec.minus gradient (J.applyTransposed w))).euclid J.columnCount =
      -K.starProjection (gradient.euclid J.columnCount) := by
    rw [Vec.euclid_negate, ha.euclid_residual h hgradient]
  have hnull : J.linear J.rowCount J.columnCount
      ((Vec.negate (Vec.minus gradient (J.applyTransposed w))).euclid J.columnCount) = 0 := by
    rw [hprojection, map_neg, neg_eq_zero]
    exact LinearMap.mem_ker.1 (K.starProjection_apply_mem _)
  refine ⟨⟨hprojection, ?_, ?_, ?_, ?_⟩, ?_⟩
  · rw [← Vec.euclid_inj (h.length_apply _) (Vec.length_zeros _), h.euclid_apply, hnull,
      Vec.euclid_zeros]
  · have hright : ⟪gradient.euclid J.columnCount - K.starProjection (gradient.euclid J.columnCount),
        K.starProjection (gradient.euclid J.columnCount)⟫_ℝ = 0 :=
      K.starProjection_inner_eq_zero _ _ (K.starProjection_apply_mem _)
    rw [inner_sub_left, real_inner_self_eq_norm_sq, sub_eq_zero] at hright
    rw [Vec.dot_eq_inner hgradient.le, hprojection, inner_neg_right, hright,
      Vec.norm_eq hdlength.le, hprojection, norm_neg]
  · intro w' ha'
    congr 1
    rw [← Vec.euclid_inj (hlength w) (hlength w'), ha.euclid_residual h hgradient,
      ha'.euclid_residual h hgradient]
  · intro hsolvesAgain
    exact h.always_projectOntoNullSpace_self hsolvesAgain hdlength hnull
  · intro hzero
    have hpoint := (Vec.isNonzero_eq_false_iff hdlength).1 hzero
    rw [Vec.euclid_negate, neg_eq_zero] at hpoint
    exact ha.inRowSpace h hgradient hpoint

end SparseMatrix

theorem LineSearch.stepAt_ne_zero {line : LineSearch ℝ} (h : line.options.reduction ≠ 0) (k : Nat) :
    line.stepAt k ≠ 0 := by
  induction k with
  | zero => exact one_ne_zero
  | succ k ih =>
    rw [stepAt_succ]
    exact mul_ne_zero ih h

theorem LineSearch.point_ne_origin {line : LineSearch ℝ} {before k : Nat} {trial : LineTrial ℝ}
    (h : line.trialAt p before k = .ok trial) (horigin : line.origin.length = n)
    (hdirection : line.direction.length = n) (hnonzero : Vec.isNonzero line.direction = true)
    (hreduction : line.options.reduction ≠ 0) : trial.point ≠ line.origin := by
  intro hstay
  obtain ⟨hadd, -⟩ := LineSearch.of_trialAt h
  have hscaled : (Vec.scale (line.stepAt k) line.direction).length = n :=
    (Vec.length_scale _ _).trans hdirection
  rw [hstay, Vec.add_of_length (horigin.trans hscaled.symm), Except.ok.injEq] at hadd
  have hsum := Vec.euclid_plus (n := n) (horigin.trans hscaled.symm)
  rw [hadd, left_eq_add, Vec.euclid_scale, smul_eq_zero] at hsum
  exact (Vec.isNonzero_iff hdirection).1 hnonzero
    (hsum.resolve_left (LineSearch.stepAt_ne_zero hreduction k))

theorem LineSearch.Stops.ne_notDescent {line : LineSearch ℝ} {b : Budget ℝ} {l : Ledger ℝ}
    {trials : List (LineTrial ℝ)} {ending : TangentEnding ℝ} (h : line.Stops p b l trials ending)
    (slope : ℝ) : ending ≠ .notDescent slope := by
  cases h with
  | exhausted passed verdict => exact nofun
  | accepted passed within trial acceptable => exact nofun
  | failed passed within trial unacceptable small =>
    unfold LineSearch.failure
    split
    · exact nofun
    · exact nofun

/-- How a tangent step must not end: for want of descent, or with success where it began although
the gradient is no combination of the rows of the Jacobian. -/
structure TangentOutcome.IsWarranted (J : SparseMatrix ℝ) (options : TangentOptions ℝ)
    (origin gradient : Vec ℝ) (o : TangentOutcome ℝ) : Prop where
  descends : ∀ slope, o.ending ≠ .notDescent slope
  untried : o.ending.name = "success" → o.trials = [] → J.InRowSpace gradient
  unmoved : o.ending.name = "success" → o.point = origin → options.reduction ≠ 0 →
    J.InRowSpace gradient

namespace KktSystem

variable {kkt : KktSystem ℝ}

theorem hessianProduct_of_zero (hd : d.euclid kkt.variableCount = 0) :
    (kkt.hessianProduct d).euclid kkt.variableCount = 0 := by
  have hcoord : ∀ j < kkt.variableCount, d.coord j = 0 := by
    intro j hj
    exact congrFun (congrArg WithLp.ofLp hd) ⟨j, hj⟩
  ext i
  rw [Vec.euclid_apply, hessianProduct, mirroredProduct, Vec.coord_tabulate i.2]
  refine Finset.sum_eq_zero fun j hj => ?_
  rw [hcoord j (Finset.mem_range.1 hj), mul_zero]

theorem IsSolution.inRowSpace (h : kkt.IsSolution J (kkt.directionRightSide gradient) d w)
    (hJ : J.HasShape kkt.constraintCount kkt.variableCount)
    (hgradient : gradient.length = kkt.variableCount) (hd : d.euclid kkt.variableCount = 0) :
    J.InRowSpace gradient := by
  have hbalance := h.balance hJ hgradient
  have hlength : (kkt.hessianProduct d).length = (Vec.scale kkt.gamma d).length := by
    simp [h.primal]
  rw [Vec.euclid_plus hlength, Vec.euclid_scale, hessianProduct_of_zero hd, hd, smul_zero,
    add_zero, zero_add, hJ.euclid_applyTransposed] at hbalance
  refine ⟨Vec.negate w, (Vec.length_negate w).trans (h.dual.trans hJ.rowCount.symm), ?_⟩
  rw [← Vec.euclid_inj (hJ.length_applyTransposed _) hgradient, hJ.euclid_applyTransposed,
    Vec.euclid_negate, map_neg, hbalance, neg_neg]

/-- A search direction is zero, the gradient being a combination of the rows, or leads downhill. -/
theorem Fits.exists_descent (h : kkt.Fits p m) (hp : p.IsTriangular m) (hJ : kkt.jacobian = .ok J)
    (hgradient : gradient.length = p.variableCount)
    (hsolves : J.SolvesTransposed tolerances gradient) :
    ∃ d kind, Always (kkt.searchDirection gradient J tolerances) (d, kind) ∧
      d.length = p.variableCount ∧ (Vec.isNonzero d = false → J.InRowSpace gradient) ∧
      (Vec.isNonzero d = true → Vec.dot gradient d < 0) ∧
      (kind = .projectedGradient → J.IsProjectedDescent tolerances gradient d) := by
  have hshape := h.hasShape hJ
  obtain ⟨t, ht, htlength, ⟨hfit, d, w, hsolve, hkkt⟩ | ⟨-, hprojected⟩⟩ :=
    h.always_searchDirection hp.toIsPatterned hgradient hshape
  · have hanswer := h.isSolution_of_solve hp hJ (h.length_directionRightSide hgradient) hsolve
    have hlength : gradient.length = kkt.variableCount := hgradient.trans h.variableCount.symm
    rw [isUnfit_iff_of_solve hsolve (hlength.trans hanswer.primal.symm)] at hfit
    refine ⟨d, .kkt, hkkt, hanswer.primal.trans h.variableCount, fun hzero => ?_,
      fun hnonzero => ?_, nofun⟩
    · exact hanswer.inRowSpace (hasShape_of_jacobian hJ) hlength
        ((Vec.isNonzero_eq_false_iff hanswer.primal).1 hzero)
    · exact not_le.1 fun huphill => hfit ⟨huphill, hnonzero⟩
  · have hcolumns : gradient.length = J.columnCount := hgradient.trans hshape.columnCount.symm
    obtain ⟨hdescent, hzero⟩ := hshape.self.isProjectedDescent hsolves hcolumns ht
    have hdlength : (Vec.negate t).length = p.variableCount := (Vec.length_negate t).trans htlength
    refine ⟨_, _, hprojected, hdlength, hzero, fun hnonzero => ?_, fun _ => hdescent⟩
    rw [hdescent.slope, neg_lt_zero]
    exact pow_pos (Vec.norm_pos_of_isNonzero hnonzero) 2

/-- Along such a direction a tangent step ends as it may. -/
theorem tangentStep_isWarranted {options : TangentOptions ℝ} {b : Budget ℝ}
    {origin multipliers : Vec ℝ} {merit radius : ℝ} {kind : DirectionKind} {o : TangentOutcome ℝ}
    {l l' : Ledger ℝ} (hd : Always (kkt.searchDirection gradient J options.tolerances) (d, kind))
    (hgradient : gradient.length = n) (hlength : d.length = n) (horigin : origin.length = n)
    (hzero : Vec.isNonzero d = false → J.InRowSpace gradient)
    (hdescent : Vec.isNonzero d = true → Vec.dot gradient d < 0)
    (ho : Returns (tangentStep p kkt options b origin multipliers gradient J merit radius)
      l o l') : o.IsWarranted J options origin gradient := by
  have hslope := Vec.inner_of_length (hgradient.trans hlength.symm)
  by_cases hnonzero : Vec.isNonzero d = true
  · have hdownhill := hdescent hnonzero
    obtain ⟨hstops, hmoves, -⟩ := tangentStep_stops ho hd hslope hnonzero (not_le.2 hdownhill)
    refine ⟨fun slope => ?_, fun hname hnone => ?_, fun hname hpoint hreduction => ?_⟩
    · exact hstops.ne_notDescent slope
    · exact absurd hnone (hstops.accepted_of_name hname).2
    · obtain ⟨trial, htrial, hreached, -⟩ := hmoves hname
      rw [List.getLast?_eq_getElem?] at htrial
      have hmade := hstops.made.trial _ trial htrial
      exact absurd (hreached.symm.trans hpoint)
        (LineSearch.point_ne_origin hmade horigin hlength hnonzero hreduction)
  · have hflat : Vec.isNonzero d = false := Bool.not_eq_true _ ▸ hnonzero
    refine ⟨fun slope => ?_, fun _ _ => hzero hflat, fun _ _ _ => hzero hflat⟩
    obtain ⟨d', kind', slope', l₁, hd', -, hcases⟩ := tangentStep_cases ho
    obtain ⟨l₀, hd₀⟩ := hd l
    obtain ⟨hsame, -⟩ := hd'.unique hd₀
    obtain ⟨rfl, rfl⟩ := Prod.mk.inj hsame
    simp only [flatEnding?, hflat, Bool.not_false, if_true, Option.some.injEq] at hcases
    obtain ⟨ending, rfl, rfl, -⟩ | ⟨hsome, -⟩ := hcases
    · intro hending
      cases hending
    · cases hsome

/-- Whatever a system holds, its search direction is zero, and then the gradient is a combination of
the rows of the Jacobian, or it leads downhill, and a direction of the fallback is the negative of
the projected gradient. So no tangent step is turned away for want of descent, and none succeeds
where it began unless the gradient is such a combination. -/
theorem searchDirection_leadsDownhill (hp : p.IsTriangular m) (hkkt : kkt.Fits p m)
    (hJ : kkt.jacobian = .ok J) (hgradient : gradient.length = p.variableCount)
    (options : TangentOptions ℝ) (hsolves : J.SolvesTransposed options.tolerances gradient) :
    (∃ d kind, Always (kkt.searchDirection gradient J options.tolerances) (d, kind) ∧
      (Vec.isNonzero d = false → J.InRowSpace gradient) ∧
      (Vec.isNonzero d = true → Vec.dot gradient d < 0) ∧
      (kind = .projectedGradient → J.IsProjectedDescent options.tolerances gradient d)) ∧
    ∀ (b : Budget ℝ) (origin multipliers : Vec ℝ) (merit radius : ℝ) (l : Ledger ℝ)
      (o : TangentOutcome ℝ) (l' : Ledger ℝ), origin.length = p.variableCount →
      Returns (tangentStep p kkt options b origin multipliers gradient J merit radius) l o l' →
      o.IsWarranted J options origin gradient := by
  obtain ⟨d, kind, hd, hlength, hzero, hdescent, hprojected⟩ :=
    hkkt.exists_descent hp hJ hgradient hsolves
  refine ⟨⟨d, kind, hd, hzero, hdescent, hprojected⟩, ?_⟩
  intro b origin multipliers merit radius l o l' horigin ho
  exact tangentStep_isWarranted hd hgradient hlength horigin hzero hdescent ho

end KktSystem

namespace tiltedLine

theorem isTriangular : tiltedLine.IsTriangular 1 where
  rowCount := rfl
  jacobian := by decide
  hessian := by simp [tiltedLine]
  lower := by simp [tiltedLine]

theorem isSingular : (KktSystem.holding tiltedLine 1 [] [1, 1] 0 0).IsSingular := by
  have hvariables : tiltedLine.variableCount = 2 := rfl
  have hhessian : tiltedLine.hessianPattern = [] := rfl
  have hjacobian : tiltedLine.jacobianPattern = [(0, 0), (0, 1)] := rfl
  rw [KktSystem.isSingular_three_iff isTriangular rfl rfl rfl]
  simp only [KktSystem.whole, KktSystem.triangle, hvariables, hhessian, hjacobian]
  simp [SparseMatrix.placed, Position.below]

theorem applyTransposed_one : tiltedRow.applyTransposed [1] = [1, 1] := by
  simp [tiltedRow, SparseMatrix.applyTransposed, SparseMatrix.addRow, Vec.zeros, List.replicate]

theorem approximates_row : tiltedRow.Approximates [2, 0] [1] := by
  have hshape : tiltedRow.HasShape 1 2 := isAffine.hasShape
  have hone : List.length ([1] : Vec ℝ) = 1 := rfl
  rw [hshape.approximates_iff rfl hone, applyTransposed_one]
  have hresidual : Vec.minus [2, 0] [(1 : ℝ), 1] = [1, -1] := by
    simp [Vec.minus]
    norm_num
  have hnull : tiltedRow.apply [1, -1] = Vec.zeros 1 := by
    simp [tiltedRow, SparseMatrix.apply, SparseMatrix.rowProduct, Vec.zeros]
  have hpoint := hshape.euclid_apply [1, -1]
  have hlength : List.length ([2, 0] : Vec ℝ) = List.length ([1, 1] : Vec ℝ) := rfl
  rw [hnull, Vec.euclid_zeros, ← hresidual, Vec.euclid_minus hlength] at hpoint
  exact hpoint.symm

end tiltedLine

/-- The system of the line being singular, the gradient is projected onto the line. -/
theorem tiltedLine_leadsDownhill :
    (KktSystem.holding tiltedLine 1 [] [1, 1] 0 0).jacobian = .ok tiltedRow ∧
      tiltedRow.SolvesTransposed .standard [2, 0] ∧
      Always ((KktSystem.holding tiltedLine 1 [] [1, 1] 0 0).searchDirection [2, 0] tiltedRow
        .standard) ([-1, 1], .projectedGradient) := by
  let options : TangentOptions ℝ := Settings.tangentOptions .standard
  have hfits : (KktSystem.holding tiltedLine 1 [] [1, 1] 0 0).Fits tiltedLine 1 :=
    KktSystem.holding_fits rfl rfl
  have hjacobian : (KktSystem.holding tiltedLine 1 [] [1, 1] 0 0).jacobian = .ok tiltedRow := rfl
  have hsolves : tiltedRow.SolvesTransposed options.tolerances [2, 0] :=
    LeastSquares.solvesTransposed_single tiltedLine.isAffine.hasShape _ _
  have hlength : List.length ([2, 0] : Vec ℝ) = tiltedLine.variableCount := rfl
  obtain ⟨⟨d, kind, hd, -, -, hprojected⟩, -⟩ := KktSystem.searchDirection_leadsDownhill
    tiltedLine.isTriangular hfits hjacobian hlength options hsolves
  obtain ⟨fault, hfault, -⟩ := (hfits.answers tiltedLine.isTriangular hjacobian _).failure.2
    ⟨hfits.length_directionRightSide hlength, tiltedLine.isSingular⟩
  have hkind : kind = .projectedGradient := by
    obtain ⟨l', hl'⟩ := hd Ledger.empty
    have hunfit := (hfits.searchDirection tiltedLine.isTriangular.toIsPatterned hlength
      tiltedLine.isAffine.hasShape).of_returns hl'
    exact hunfit.2.2 (.inl ⟨fault, hfault⟩)
  have hvalue : d = [-1, 1] := by
    rw [(hprojected hkind).residual [1] tiltedLine.approximates_row,
      tiltedLine.applyTransposed_one]
    simp [Vec.minus, Vec.negate]
    norm_num
  rw [hkind, hvalue] at hd
  exact ⟨hjacobian, hsolves, hd⟩

end InfeasibilityControl
