import Mathlib
import InfeasibilityControl.Proofs.Exact.AffineStep

set_option autoImplicit false
set_option relaxedAutoImplicit false

/-!
A normal step moves along the gradients of the constraints.

The combinations of the rows of a Jacobian are a closed family of vectors, so every displacement is
one of them, whatever became of the least-squares solve that it was made from. A coordinate on which
no constraint depends, at the start and at the points that are accepted, stays where it is.
-/

namespace InfeasibilityControl

open Counted (Returns)

namespace SparseMatrix

variable {J : SparseMatrix ℝ} {m n : Nat} {u v : Vec ℝ} {i j : Nat}

/-- No entry of the column differs from zero. -/
def ColumnVanishes (J : SparseMatrix ℝ) (j : Nat) : Prop := ∀ i, J.coeff i j = 0

theorem HasShape.inRowSpace_applyTransposed (h : J.HasShape m n) (w : Vec ℝ) :
    J.InRowSpace (J.applyTransposed w) := by
  obtain ⟨u, hu, hweights⟩ := Vec.exists_euclid (w.euclid m)
  refine ⟨u, hu.trans h.rowCount.symm, ?_⟩
  rw [← Vec.euclid_inj (h.length_applyTransposed u) (h.length_applyTransposed w),
    h.euclid_applyTransposed, h.euclid_applyTransposed, hweights]

theorem HasShape.inRowSpace_iff (h : J.HasShape m n) :
    J.InRowSpace v ↔
      v.length = n ∧ v.euclid n ∈ LinearMap.range (LinearMap.adjoint (J.linear m n)) := by
  constructor
  · rintro ⟨w, -, rfl⟩
    refine ⟨h.length_applyTransposed w, w.euclid m, ?_⟩
    rw [h.euclid_applyTransposed]
  · rintro ⟨hv, x, hx⟩
    obtain ⟨w, hw, rfl⟩ := Vec.exists_euclid x
    rw [← h.euclid_applyTransposed, Vec.euclid_inj (h.length_applyTransposed w) hv] at hx
    exact hx ▸ h.inRowSpace_applyTransposed w

theorem HasShape.isClosed_inRowSpace (h : J.HasShape m n) : Vec.IsClosed n J.InRowSpace := by
  have hsame : J.InRowSpace = fun v => v.length = n ∧
      v.euclid n ∈ LinearMap.range (LinearMap.adjoint (J.linear m n)) :=
    funext fun v => propext h.inRowSpace_iff
  rw [hsame]
  exact Vec.isClosed_submodule _

theorem HasShape.coord_of_columnVanishes (h : J.HasShape m n) (hv : J.InRowSpace v)
    (hj : J.ColumnVanishes j) : v.coord j = 0 := by
  obtain ⟨w, -, rfl⟩ := hv
  rw [h.coord_applyTransposed]
  exact Finset.sum_eq_zero fun i _ => by rw [hj i, zero_mul]

/-- The dogleg path to a least-squares solution ends at a combination of the rows, however many
steps the solve was allowed and however it ended. -/
theorem HasShape.dogleg_inRowSpace (h : J.HasShape m n) {c b d : Vec ℝ} {radius : ℝ}
    {tolerances : LeastSquares.Tolerances ℝ} {limit? : Option Int}
    {gaussNewton : LeastSquares.Solution ℝ}
    (hsolve : LeastSquares.solve J.operator b tolerances limit? = .ok gaussNewton)
    (hdogleg : dogleg gaussNewton.vector
      (cauchyStep (J.applyTransposed c) (J.apply (J.applyTransposed c))) (J.applyTransposed c)
      radius = .ok d) : J.InRowSpace d := by
  have hclosed : Vec.IsClosed J.operator.columnCount J.InRowSpace := by
    have hcolumns : J.operator.columnCount = n := h.columnCount
    rw [hcolumns]
    exact h.isClosed_inRowSpace
  have hg := h.inRowSpace_applyTransposed c
  exact dogleg_mem hclosed (LeastSquares.solve_mem hclosed h.inRowSpace_applyTransposed hsolve)
    (fun _ => cauchyStep_mem hclosed hg) hg hdogleg

end SparseMatrix

variable {p : Problem ℝ} {options : NormalOptions ℝ} {b : Budget ℝ} {start : Vec ℝ} {j : Nat}

/-- No constraint depends on the coordinate near the point: its column of the Jacobian vanishes. -/
def Problem.IgnoresAt (p : Problem ℝ) (x : Vec ℝ) (j : Nat) : Prop :=
  ∀ J, p.jacobian x = .ok J → J.ColumnVanishes j

/-- The coordinate is ignored at the start and at the accepted trial points. -/
def Problem.Ignores (p : Problem ℝ) (start : Vec ℝ) (trials : List (Trial ℝ)) (j : Nat) : Prop :=
  p.IgnoresAt start j ∧ ∀ t ∈ trials, t.accepted = true → p.IgnoresAt t.point j

theorem Problem.Ignores.of_append {trials later : List (Trial ℝ)}
    (h : p.Ignores start (trials ++ later) j) : p.Ignores start trials j :=
  ⟨h.1, fun t ht => h.2 t (List.mem_append_left later ht)⟩

/-- The trial goes along the rows of the Jacobian at its origin. -/
structure Trial.GoesAlongRows (p : Problem ℝ) (t : Trial ℝ) : Prop where
  jacobian : p.jacobian t.origin = .ok t.jacobian
  displacement : t.jacobian.InRowSpace (Vec.minus t.point t.origin)
  /-- It would do so with another limit on the steps of the least-squares solve, too. -/
  limited : ∀ (c : Vec ℝ) (tolerances : LeastSquares.Tolerances ℝ) (limit? : Option Int)
    (radius : ℝ) (gaussNewton : LeastSquares.Solution ℝ) (d : Vec ℝ),
    LeastSquares.solve t.jacobian.operator (Vec.negate c) tolerances limit? = .ok gaussNewton →
    dogleg gaussNewton.vector (cauchyStep (t.jacobian.applyTransposed c)
      (t.jacobian.apply (t.jacobian.applyTransposed c))) (t.jacobian.applyTransposed c) radius =
        .ok d →
    t.jacobian.InRowSpace d

namespace NormalState

variable {s s' : NormalState ℝ} {g Jg : Vec ℝ} {t : Trial ℝ} {radius : ℝ} {l l' : Ledger ℝ}

/-- What the trials made so far have kept. -/
private structure KeepsToRows (p : Problem ℝ) (start : Vec ℝ) (s : NormalState ℝ) : Prop where
  length : s.point.length = p.variableCount
  jacobian : p.jacobian s.point = .ok s.jacobian
  trials : ∀ t ∈ s.trials, t.GoesAlongRows p
  /-- The Jacobian at the present point is that at the start or at an accepted point. -/
  known : ∀ j, p.Ignores start s.trials j → s.jacobian.ColumnVanishes j
  fixed : ∀ j, p.Ignores start s.trials j → s.point.coord j = start.coord j

theorem Makes.displacement_inRowSpace (h : s.Makes options.solver g Jg t)
    (haims : s.Aims options radius g Jg) (hJ : p.jacobian s.point = .ok s.jacobian) :
    s.jacobian.InRowSpace t.displacement := by
  have hshape := Problem.hasShape_of_jacobian hJ
  refine h.displacement_mem haims ?_ hshape.inRowSpace_applyTransposed
  rw [hshape.columnCount]
  exact hshape.isClosed_inRowSpace

private theorem KeepsToRows.goesAlongRows (hs : s.KeepsToRows p start)
    (haims : s.Aims options radius g Jg) (hmakes : s.Makes options.solver g Jg t)
    (hdecides : s.Decides p options t s') :
    t.GoesAlongRows p ∧ t.point.length = p.variableCount ∧
      ∀ i, t.point.coord i = s.point.coord i + t.displacement.coord i := by
  have hshape := Problem.hasShape_of_jacobian hs.jacobian
  have hd := hmakes.displacement_inRowSpace haims hs.jacobian
  have hdlength : t.displacement.length = s.point.length :=
    (hshape.inRowSpace_iff.1 hd).1.trans hs.length.symm
  have hpoint := hdecides.point_eq hdlength
  have hlength : t.point.length = p.variableCount := by
    rw [hpoint]
    exact Vec.length_plus_of_length hs.length (hdlength.trans hs.length)
  have hcoord : ∀ i, t.point.coord i = s.point.coord i + t.displacement.coord i := by
    intro i
    rw [hpoint, Vec.coord_plus hdlength.symm]
  have hmoved : Vec.minus t.point t.origin = t.displacement := by
    rw [hmakes.origin]
    refine Vec.ext_coord ?_ fun i _ => ?_
    · exact (Vec.length_minus_of_length hlength hs.length).trans (hdlength.trans hs.length).symm
    · rw [Vec.coord_minus (hlength.trans hs.length.symm), hcoord, add_sub_cancel_left]
  refine ⟨⟨?_, ?_, ?_⟩, hlength, hcoord⟩
  · rw [hmakes.origin, hmakes.jacobian]
    exact hs.jacobian
  · rw [hmoved, hmakes.jacobian]
    exact hd
  · rw [hmakes.jacobian]
    intro c tolerances limit? radius gaussNewton d
    exact hshape.dogleg_inRowSpace

private theorem KeepsToRows.attempted (hs : s.KeepsToRows p start)
    (haims : s.Aims options radius g Jg)
    (h : Returns (s.attempt options.solver p options g Jg) l s' l') :
    s'.KeepsToRows p start := by
  obtain ⟨t, htrials, hmakes, hdecides⟩ := attempt_decides h
  obtain ⟨hgoes, hlength, hcoord⟩ := hs.goesAlongRows haims hmakes hdecides
  have hall : ∀ u ∈ s'.trials, u.GoesAlongRows p := by
    rw [htrials]
    exact List.forall_mem_append.2 ⟨hs.trials, List.forall_mem_singleton.2 hgoes⟩
  have hbefore : ∀ j, p.Ignores start s'.trials j → p.Ignores start s.trials j := fun j hj =>
    (htrials ▸ hj).of_append
  cases haccepted : t.accepted with
  | true =>
    obtain ⟨hnext, -, hJ, -⟩ := hdecides.accepted haccepted
    refine ⟨hnext ▸ hlength, hnext ▸ hJ, hall, fun j hj => ?_, fun j hj => ?_⟩
    · exact hj.2 t (htrials ▸ List.mem_append_right _ (List.mem_singleton_self t)) haccepted _ hJ
    · have hshape := Problem.hasShape_of_jacobian hs.jacobian
      have hstays := hshape.coord_of_columnVanishes
        (hmakes.displacement_inRowSpace haims hs.jacobian) (hs.known j (hbefore j hj))
      rw [hnext, hcoord, hstays, add_zero]
      exact hs.fixed j (hbefore j hj)
  | false =>
    obtain ⟨hnext, -, -, hJ, -⟩ := hdecides.rejected haccepted
    refine ⟨?_, ?_, hall, fun j hj => ?_, fun j hj => ?_⟩
    · rw [hnext]
      exact hs.length
    · rw [hnext, hJ]
      exact hs.jacobian
    · rw [hJ]
      exact hs.known j (hbefore j hj)
    · rw [hnext]
      exact hs.fixed j (hbefore j hj)

end NormalState

/-- A normal step has gone along the rows of the Jacobians that it met. -/
structure NormalOutcome.GoesAlongRows (p : Problem ℝ) (start : Vec ℝ) (o : NormalOutcome ℝ) :
    Prop where
  trials : ∀ t ∈ o.trials, t.GoesAlongRows p
  /-- A coordinate that is ignored at the start and wherever the step went on is left alone. -/
  fixed : ∀ j, p.Ignores start o.trials j → o.point.coord j = start.coord j

/-- Every normal step goes along the rows, however its least-squares solves ended. -/
theorem normalStep_goesAlongRows {c : Vec ℝ} {jacobian? : Option (SparseMatrix ℝ)}
    {rho bound relativeDual floor : ℝ} {o : NormalOutcome ℝ} {l l' : Ledger ℝ}
    (h : Returns (normalStep p options b start c jacobian? rho bound relativeDual floor) l o l')
    (hstart : start.length = p.variableCount)
    (hJ : ∀ J ∈ jacobian?, p.jacobian start = .ok J) : o.GoesAlongRows p start := by
  obtain ⟨J, l₁, last, hjacobian, -, hpasses, ho⟩ := normalStep_passes_from h hJ
  have hfirst : NormalState.KeepsToRows p start
      ⟨start, c, Vec.norm c, J, options.trustRadius, false, []⟩ :=
    ⟨hstart, hjacobian, by simp, fun j hj => hj.1 J hjacobian, fun _ _ => rfl⟩
  have hlast := NormalState.iterate_rule (P := fun s => s.KeepsToRows p start) hpasses hfirst
    fun s g Jg l s' l' hs haims hattempt => hs.attempted haims hattempt
  rw [ho]
  exact ⟨hlast.trials, hlast.fixed⟩

namespace crossingLines

theorem columnVanishes : crossingRows.ColumnVanishes 2 := by
  intro i
  match i with
  | 0 => rfl
  | 1 => rfl
  | _ + 2 => rfl

theorem ignores (trials : List (Trial ℝ)) : crossingLines.Ignores [1, 1, 1] trials 2 := by
  have hignored : ∀ x, crossingLines.IgnoresAt x 2 := by
    intro x J hJ
    obtain rfl : crossingRows = J := Except.ok.inj hJ
    exact columnVanishes
  exact ⟨hignored _, fun t _ _ => hignored t.point⟩

theorem exists_run : ∃ o l', Returns (normalStep crossingLines .standard ⟨100, 60, 0⟩ [1, 1, 1]
    [1, 0.5] (some crossingRows) 1 1 0 0.5) .empty o l' ∧ o.trials ≠ [] := by
  obtain ⟨o, l', hreturns, -⟩ := completes_normalStep isTotal
    NormalOptions.standard_minTrustRadius_pos rfl start_constraints
    (isAffine.jacobian [1, 1, 1] rfl) ⟨100, 60, 0⟩ 1 1 0 0.5 .empty
  refine ⟨o, l', hreturns, trials_ne_nil_of_isAffine isAffine rfl start_constraints zero_le_one
    zero_le_one le_rfl NormalOptions.standard_acceptance_le_one one_pos
    NormalOptions.standard_minTrustRadius_le (by decide) ?_ still (by decide) in_time hreturns⟩
  have hnorm : (0.5 : ℝ) < Vec.norm [1, 0.5] := by
    refine Real.lt_sqrt_of_sq_lt ?_
    show (0.5 : ℝ) ^ 2 < 0 + 1 * 1 + 0.5 * 0.5
    norm_num
  refine lt_of_le_of_lt ?_ hnorm
  rw [updateRadius, Scalar.real_min, Scalar.real_max, Scalar.real_min]
  norm_num

end crossingLines

/-- The third coordinate is left alone on the way to the crossing of the lines. -/
theorem crossingLines_goesAlongRows : ∃ o l',
    Returns (normalStep crossingLines .standard ⟨100, 60, 0⟩ [1, 1, 1] [1, 0.5] (some crossingRows)
      1 1 0 0.5) .empty o l' ∧
    o.trials ≠ [] ∧ o.GoesAlongRows crossingLines [1, 1, 1] ∧
    crossingLines.Ignores [1, 1, 1] o.trials 2 ∧ o.point.coord 2 = 1 := by
  obtain ⟨o, l', hreturns, hsome⟩ := crossingLines.exists_run
  have hgoes : o.GoesAlongRows crossingLines [1, 1, 1] :=
    normalStep_goesAlongRows hreturns rfl
      (crossingLines.isAffine.known rfl crossingLines.known_eq)
  have hignores := crossingLines.ignores o.trials
  exact ⟨o, l', hreturns, hsome, hgoes, hignores, hgoes.fixed 2 hignores⟩

end InfeasibilityControl
