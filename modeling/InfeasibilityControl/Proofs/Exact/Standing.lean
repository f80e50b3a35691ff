import Mathlib
import InfeasibilityControl.Proofs.Exact.DoglegPath
import InfeasibilityControl.Proofs.Exact.LeastSquares
import InfeasibilityControl.Proofs.Exact.RowSpace

set_option autoImplicit false
set_option relaxedAutoImplicit false

/-!
A trial of a normal step with partial numbers.

Where a step stands, the point, the constraints, the Jacobian and the trust radius are numbers, and
the displacement of a trial is made of numbers that lies inside the trust region. The constraints at
the trial point need not be numbers. A trial is accepted only where they are; a rejected one leaves
everything as it was but the trust radius, which becomes a quarter of the displacement's length.
-/

namespace InfeasibilityControl

open Counted (Completes Returns)
open PartialReal (of)

namespace PartialReal

theorem exists_of_lt {a : PartialReal} {b : ℝ} (h : a < of b) : ∃ x < b, a = of x := by
  obtain ⟨x, y, rfl, hy, hxy⟩ := h
  rw [of_injective hy]
  exact ⟨x, hxy, rfl⟩

theorem exists_of_gt {a : ℝ} {b : PartialReal} (h : of a < b) : ∃ y, a < y ∧ b = of y := by
  obtain ⟨x, y, hx, rfl, hxy⟩ := h
  rw [of_injective hx]
  exact ⟨y, hxy, rfl⟩

end PartialReal

namespace Vec

theorem negate_asPartial (v : Vec ℝ) : negate v.asPartial = (negate v).asPartial := by
  simp [negate, asPartial]

theorem asPartial_injective : Function.Injective asPartial :=
  List.map_injective_iff.2 PartialReal.of_injective

theorem exists_of_norm {v : Vec PartialReal} {a : ℝ} (h : norm v = of a) :
    ∃ w : Vec ℝ, v = w.asPartial := by
  have hsum : ∀ (v : Vec PartialReal) (s : PartialReal) (x : ℝ),
      (List.zipWith (fun a b => a * b) v v).foldl (fun s t => s + t) s = of x →
      (∃ y, s = of y) ∧ ∃ w : Vec ℝ, v = w.asPartial := by
    intro v
    induction v with
    | nil => exact fun s x hs => ⟨⟨x, hs⟩, [], rfl⟩
    | cons a v ih =>
      intro s x hs
      obtain ⟨⟨y, hy⟩, w, rfl⟩ := ih _ x hs
      rcases s with _ | s
      · cases hy
      rcases a with _ | a
      · cases hy
      · exact ⟨⟨s, rfl⟩, a :: w, rfl⟩
  rcases hdot : dot v v with _ | x
  · rw [norm, hdot] at h
    cases h
  · exact (hsum v 0 x hdot).2

end Vec

namespace SparseMatrix

theorem hasShape_asPartial {A : SparseMatrix ℝ} {m n : Nat} :
    A.asPartial.HasShape m n ↔ A.HasShape m n := by
  constructor
  · rintro ⟨hrowCount, hcolumnCount, hrows, hcolumns⟩
    exact ⟨hrowCount, hcolumnCount, by simpa [asPartial] using hrows,
      by simpa [asPartial] using hcolumns⟩
  · rintro ⟨hrowCount, hcolumnCount, hrows, hcolumns⟩
    exact ⟨hrowCount, hcolumnCount, by simpa [asPartial] using hrows,
      by simpa [asPartial] using hcolumns⟩

end SparseMatrix

/-- Parameters that are all numbers. -/
def NormalOptions.asPartial (options : NormalOptions ℝ) : NormalOptions PartialReal :=
  ⟨of options.trustRadius, options.maxTrials, of options.acceptance, of options.stationarity,
    of options.minTrustRadius, options.tolerances.asPartial⟩

namespace NormalState

variable {normSquare length radius : ℝ} {trialNorm predicted : PartialReal}

theorem nextTrustRadius_asPartial (ratio : Option ℝ) (length radius : ℝ) :
    nextTrustRadius (ratio.map of) (of length) (of radius) =
      of (nextTrustRadius ratio length radius) := by
  cases ratio with
  | none => rfl
  | some r =>
    simp only [nextTrustRadius, Option.map_some, PartialReal.of_scientific, PartialReal.of_lt,
      PartialReal.of_mul, PartialReal.of_le]
    split
    · rfl
    split
    · rfl
    · rfl

theorem nextTrustRadius_le (ratio : Option ℝ) (hpositive : 0 < radius) (hlength : length ≤ radius) :
    nextTrustRadius ratio length radius ≤ 2 * radius := by
  have hquarter : (0.25 : ℝ) * length ≤ 2 * radius := by
    norm_num
    linarith
  have hdouble : (2.0 : ℝ) * radius ≤ 2 * radius := by norm_num
  unfold nextTrustRadius
  split
  · exact hquarter
  split
  · exact hquarter
  split
  · exact hdouble
  · linarith

theorem nextTrustRadius_of_poor {ratio : Option ℝ} (hpoor : ∀ r ∈ ratio, r < 1 / 4)
    (length radius : ℝ) : nextTrustRadius ratio length radius = length / 4 := by
  have hquarter : (0.25 : ℝ) * length = length / 4 := by
    norm_num
    ring
  cases ratio with
  | none => exact hquarter
  | some r =>
    have hr : r < 0.25 := by
      norm_num
      exact hpoor r rfl
    exact (if_pos hr).trans hquarter

theorem exists_ratio {ratio : Option PartialReal}
    (h : reductionRatio (of normSquare) trialNorm predicted = .ok ratio) :
    ∃ ratio' : Option ℝ, ratio = ratio'.map of ∧ ∀ r ∈ ratio', ∃ x q, trialNorm = of x ∧ 0 < q ∧
      r = 0.5 * (normSquare - x * x) / q := by
  unfold reductionRatio at h
  split at h
  · rename_i hformed
    obtain ⟨hpositive, hfinite⟩ := hformed
    obtain ⟨q, hq, rfl⟩ := PartialReal.exists_of_gt hpositive
    obtain ⟨x, rfl⟩ : ∃ x, trialNorm = of x := Option.isSome_iff_exists.1 hfinite
    refine ⟨some (0.5 * (normSquare - x * x) / q), ?_, ?_⟩
    · rw [← Except.ok.inj h, Option.map_some, ← PartialReal.of_div hq.ne']
      rfl
    · rintro r ⟨⟩
      exact ⟨x, q, rfl, hq, rfl⟩
  · cases h
    exact ⟨none, rfl, nofun⟩

/-- Both tests that a trial can fail make the ratio poor: the bound of the first is not above a
quarter, and without a decrease the ratio is not positive. -/
theorem poor_of_rejected {ratio : Option ℝ} {acceptance norm : ℝ} (hacceptance : acceptance ≤ 1 / 4)
    (hnorm : 0 ≤ norm)
    (hformed : ∀ r ∈ ratio, ∃ x q, trialNorm = of x ∧ 0 < q ∧
      r = 0.5 * (norm * norm - x * x) / q)
    (hrejected : (ratioReaches (ratio.map of) (of acceptance) &&
      decide (trialNorm < of norm)) = false) : ∀ r ∈ ratio, r < 1 / 4 := by
  rintro r ⟨⟩
  obtain ⟨x, q, rfl, hq, hr⟩ := hformed r rfl
  have hfails : ¬ (acceptance ≤ r ∧ x < norm) := by
    simpa [ratioReaches] using hrejected
  by_cases hratio : acceptance ≤ r
  · have hgrown : norm ≤ x := not_lt.1 fun hless => hfails ⟨hratio, hless⟩
    have hsquares := mul_self_le_mul_self hnorm hgrown
    have hnumerator : 0.5 * (norm * norm - x * x) ≤ 0 :=
      mul_nonpos_of_nonneg_of_nonpos (by norm_num) (sub_nonpos.2 hsquares)
    have hratio : r ≤ 0 := hr ▸ div_nonpos_of_nonpos_of_nonneg hnumerator hq.le
    linarith
  · linarith [not_le.1 hratio]

end NormalState

/-- Where the constraints are numbers, the entries of the Jacobian are numbers, too. -/
def Problem.HasFiniteJacobian (p : Problem PartialReal) : Prop :=
  ∀ (x c : Vec ℝ) (J : SparseMatrix PartialReal), x.length = p.variableCount →
    p.constraints x.asPartial = .ok c.asPartial → p.jacobian x.asPartial = .ok J →
      ∃ A : SparseMatrix ℝ, J = A.asPartial

/-- Where a normal step stands, in numbers. -/
structure Standing where
  point : Vec ℝ
  constraints : Vec ℝ
  jacobian : SparseMatrix ℝ
  trustRadius : ℝ

variable {p : Problem PartialReal} {options : NormalOptions ℝ} {least : ℝ} {a a' : Standing}
  {t : Trial PartialReal}

namespace Standing

/-- The constraints and the Jacobian are those of the problem at the point. -/
structure Holds (p : Problem PartialReal) (a : Standing) : Prop where
  length : a.point.length = p.variableCount
  constraints : p.constraints a.point.asPartial = .ok a.constraints.asPartial
  jacobian : p.jacobian a.point.asPartial = .ok a.jacobian.asPartial

/-- The state of a normal step that begins here. -/
noncomputable def first (a : Standing) : NormalState PartialReal :=
  ⟨a.point.asPartial, a.constraints.asPartial, Vec.norm a.constraints.asPartial,
    a.jacobian.asPartial, of a.trustRadius, false, []⟩

/-- A trial leads from one standing to the next. -/
structure Leads (p : Problem PartialReal) (least : ℝ) (a : Standing) (t : Trial PartialReal)
    (a' : Standing) : Prop where
  origin : t.origin = a.point.asPartial
  jacobian : t.jacobian = a.jacobian.asPartial
  trustRadius : t.trustRadius = of a.trustRadius
  /-- No trial is made inside a smaller region than the least one. -/
  large : least ≤ a.trustRadius
  /-- The constraints at the trial point, which need not be numbers. -/
  tried : ∃ c, p.constraints t.point = .ok c ∧ t.constraintNorm = Vec.norm c
  moved : ∃ d : Vec ℝ, d.length = a.point.length ∧ t.displacement = d.asPartial ∧
    t.point = (Vec.plus a.point d).asPartial ∧ Vec.norm d ≤ a.trustRadius ∧
    (t.accepted = false → a'.trustRadius = Vec.norm d / 4)
  doubled : a'.trustRadius ≤ 2 * a.trustRadius
  /-- A rejected trial leaves all as it was but the trust radius, and of that at most a quarter. -/
  rejected : t.accepted = false →
    ∃ radius ≤ a.trustRadius / 4, a' = { a with trustRadius := radius }
  /-- An accepted trial goes to a point with numbers for constraints, and with smaller ones. -/
  accepted : t.accepted = true → t.point = a'.point.asPartial ∧
    t.constraintNorm = of (Vec.norm a'.constraints) ∧
    Vec.norm a'.constraints < Vec.norm a.constraints

end Standing

namespace NormalState

variable {s s' : NormalState PartialReal} {g Jg : Vec PartialReal} {radius : PartialReal}
  {l l' : Ledger PartialReal}

/-- The state is this standing. -/
structure StandsAt (p : Problem PartialReal) (s : NormalState PartialReal) (a : Standing) :
    Prop where
  holds : a.Holds p
  point : s.point = a.point.asPartial
  constraints : s.constraints = a.constraints.asPartial
  constraintNorm : s.constraintNorm = of (Vec.norm a.constraints)
  jacobian : s.jacobian = a.jacobian.asPartial
  trustRadius : s.trustRadius = of a.trustRadius

theorem standsAt_first (ha : a.Holds p) : StandsAt p a.first a :=
  ⟨ha, rfl, rfl, Vec.norm_asPartial a.constraints, rfl, rfl⟩

theorem StandsAt.large (hs : s.StandsAt p a) (haims : s.Aims options.asPartial radius g Jg) :
    options.minTrustRadius ≤ a.trustRadius := by
  have hregion := haims.region
  rw [hs.trustRadius] at hregion
  exact not_lt.1 fun hsmall => hregion (PartialReal.of_lt.2 hsmall)

theorem StandsAt.hasShape (hs : s.StandsAt p a) :
    a.jacobian.HasShape a.jacobian.rowCount p.variableCount :=
  SparseMatrix.hasShape_asPartial.1 (Problem.hasShape_of_jacobian hs.holds.jacobian)

theorem StandsAt.exists_dogleg (hs : s.StandsAt p a) (haims : s.Aims options.asPartial radius g Jg)
    (hpositive : 0 < a.trustRadius) {gaussNewton : LeastSquares.Solution PartialReal}
    (hfound : LeastSquares.solve s.jacobian.operator (Vec.negate s.constraints)
      options.asPartial.tolerances none = .ok gaussNewton) :
    ∃ d : Vec ℝ, dogleg gaussNewton.vector (cauchyStep g Jg) g s.trustRadius = .ok d.asPartial ∧
      d.length = p.variableCount ∧ Vec.norm d ≤ a.trustRadius := by
  have hshape := hs.hasShape
  have hlength := hshape.length_applyTransposed a.constraints
  have hg : g = (a.jacobian.applyTransposed a.constraints).asPartial := by
    rw [haims.gradient, hs.jacobian, hs.constraints, SparseMatrix.applyTransposed_asPartial]
  have hJg : Jg =
      (a.jacobian.apply (a.jacobian.applyTransposed a.constraints)).asPartial := by
    rw [haims.image, hs.jacobian, hg, SparseMatrix.apply_asPartial]
  rw [hs.jacobian, hs.constraints, Vec.negate_asPartial] at hfound
  obtain ⟨found, hsolve, rfl⟩ := Counted.except_map_eq_ok.1
    ((LeastSquares.solve_asPartial a.jacobian.operator_extends _ options.tolerances none).symm.trans
      hfound)
  have hgaussNewton := hshape.length_solve hsolve
  have hcauchy : ∀ step ∈ cauchyStep (a.jacobian.applyTransposed a.constraints)
      (a.jacobian.apply (a.jacobian.applyTransposed a.constraints)),
      found.vector.length = step.length := fun step hstep =>
    hgaussNewton.trans ((length_of_cauchyStep hstep).trans hlength).symm
  obtain ⟨d, hd, hends⟩ := dogleg_ends (g := a.jacobian.applyTransposed a.constraints) hpositive
    hcauchy
  refine ⟨d, ?_, ?_, hends.norm_le hpositive⟩
  · rw [hg, hJg, hs.trustRadius, cauchyStep_asPartial]
    exact (dogleg_asPartial a.trustRadius hcauchy).trans (congrArg (Except.map Vec.asPartial) hd)
  · exact dogleg_mem (Vec.isClosed_length _) hgaussNewton
      (fun _ hstep => (length_of_cauchyStep hstep).trans hlength) hlength hd

theorem StandsAt.exists_displacement (hs : s.StandsAt p a)
    (haims : s.Aims options.asPartial radius g Jg) (hpositive : 0 < a.trustRadius)
    {t : Trial PartialReal} (hmakes : s.Makes options.asPartial.solver g Jg t)
    (hpoint : Vec.add s.point t.displacement = .ok t.point) :
    ∃ d : Vec ℝ, t.displacement = d.asPartial ∧ d.length = a.point.length ∧
      t.point = (Vec.plus a.point d).asPartial ∧ Vec.norm d ≤ a.trustRadius := by
  obtain ⟨gaussNewton, hfound, hpath⟩ := hmakes.displacement
  obtain ⟨d, hd, hlength, hinside⟩ := hs.exists_dogleg haims hpositive hfound
  have hdisplacement : t.displacement = d.asPartial := Except.ok.inj (hpath.symm.trans hd)
  have hlength : d.length = a.point.length := hlength.trans hs.holds.length.symm
  refine ⟨d, hdisplacement, hlength, ?_, hinside⟩
  rw [hs.point, hdisplacement, Vec.add_of_length (by simp [hlength]), Vec.plus_asPartial] at hpoint
  exact (Except.ok.inj hpoint).symm

theorem StandsAt.attempted (hs : s.StandsAt p a) (hp : p.HasFiniteJacobian)
    (hacceptance : options.acceptance ≤ 1 / 4) (hleast : 0 < options.minTrustRadius)
    (haims : s.Aims options.asPartial radius g Jg)
    (h : Returns (s.attempt options.asPartial.solver p options.asPartial g Jg) l s' l') :
    ∃ t a', s'.trials = s.trials ++ [t] ∧ a.Leads p options.minTrustRadius t a' ∧
      s'.StandsAt p a' := by
  obtain ⟨t, htrials, hmakes, hdecides⟩ := attempt_decides h
  have hlarge := hs.large haims
  have hpositive := hleast.trans_le hlarge
  obtain ⟨d, hdisplacement, hlength, hpoint, hinside⟩ :=
    hs.exists_displacement haims hpositive hmakes hdecides.point
  obtain ⟨normSquare, ratio, hnorm, hratio, haccepted, hradius⟩ := hdecides.judged
  rw [hs.constraintNorm] at hnorm haccepted
  obtain rfl : of (Vec.norm a.constraints * Vec.norm a.constraints) = normSquare :=
    Except.ok.inj hnorm
  obtain ⟨ratio, rfl, hformed⟩ := exists_ratio hratio
  rw [hdisplacement, hs.trustRadius, Vec.norm_asPartial, nextTrustRadius_asPartial] at hradius
  have horigin : t.origin = a.point.asPartial := hmakes.origin.trans hs.point
  have hjacobian : t.jacobian = a.jacobian.asPartial := hmakes.jacobian.trans hs.jacobian
  have htrust : t.trustRadius = of a.trustRadius := hmakes.trustRadius.trans hs.trustRadius
  obtain ⟨c, hvalue, htried, hkept⟩ := hdecides.constraints
  cases hverdict : t.accepted with
  | true =>
    rw [hverdict, eq_comm, Bool.and_eq_true, decide_eq_true_eq] at haccepted
    obtain ⟨x, hless, hx⟩ := PartialReal.exists_of_lt haccepted.2
    obtain ⟨c, rfl⟩ := Vec.exists_of_norm (htried.symm.trans hx)
    rw [Vec.norm_asPartial] at htried
    rw [← PartialReal.of_injective (htried.symm.trans hx)] at hless
    obtain ⟨hnext, hnextNorm, hJ, -⟩ := hdecides.accepted hverdict
    rw [hpoint] at hvalue hJ
    have hnextLength : (Vec.plus a.point d).length = p.variableCount :=
      (Vec.length_plus_of_length rfl hlength).trans hs.holds.length
    obtain ⟨J, hnextJacobian⟩ := hp _ _ _ hnextLength hvalue hJ
    refine ⟨t, ⟨Vec.plus a.point d, c, J, nextTrustRadius ratio (Vec.norm d) a.trustRadius⟩,
      htrials, ⟨horigin, hjacobian, htrust, hlarge, ?_, ?_, ?_, ?_, ?_⟩, ?_⟩
    · exact ⟨_, hpoint ▸ hvalue, htried.trans (Vec.norm_asPartial c).symm⟩
    · exact ⟨d, hlength, hdisplacement, hpoint, hinside, fun hfalse => by simp [hverdict] at hfalse⟩
    · exact nextTrustRadius_le ratio hpositive hinside
    · exact fun hfalse => by simp [hverdict] at hfalse
    · exact fun _ => ⟨hpoint, htried, hless⟩
    · exact ⟨⟨hnextLength, hvalue, hnextJacobian ▸ hJ⟩, hnext.trans hpoint, hkept hverdict,
        hnextNorm.trans htried, hnextJacobian, hradius⟩
  | false =>
    rw [hverdict, eq_comm] at haccepted
    have hpoor := poor_of_rejected hacceptance (Vec.norm_nonneg _) hformed haccepted
    have hquarter := nextTrustRadius_of_poor hpoor (Vec.norm d) a.trustRadius
    rw [hquarter] at hradius
    obtain ⟨hnext, hconstraints, hnextNorm, hnextJacobian, -⟩ := hdecides.rejected hverdict
    refine ⟨t, { a with trustRadius := Vec.norm d / 4 }, htrials,
      ⟨horigin, hjacobian, htrust, hlarge, ⟨c, hvalue, htried⟩, ?_, ?_, ?_, ?_⟩, ?_⟩
    · exact ⟨d, hlength, hdisplacement, hpoint, hinside, fun _ => rfl⟩
    · exact hquarter ▸ nextTrustRadius_le ratio hpositive hinside
    · exact fun _ => ⟨_, by linarith, rfl⟩
    · exact fun htrue => by simp [hverdict] at htrue
    · exact ⟨⟨hs.holds.length, hs.holds.constraints, hs.holds.jacobian⟩, hnext.trans hs.point,
        hconstraints.trans hs.constraints, hnextNorm.trans hs.constraintNorm,
        hnextJacobian.trans hs.jacobian, hradius⟩

theorem StandsAt.shapes (hs : s.StandsAt p a) {m : Nat} (hp : p.IsTotal m) :
    s.point.length = p.variableCount ∧ s.constraints.length = m ∧
      s.jacobian.HasShape m p.variableCount := by
  have hpoint : a.point.asPartial.length = p.variableCount :=
    Vec.length_asPartial.trans hs.holds.length
  rw [hs.point, hs.constraints, hs.jacobian]
  exact ⟨hpoint, hp.length_constraints hpoint hs.holds.constraints,
    hp.hasShape hs.holds.jacobian⟩

theorem StandsAt.attempt (hs : s.StandsAt p a) {m : Nat} (hp : p.IsTotal m)
    (hfinite : p.HasFiniteJacobian) (hacceptance : options.acceptance ≤ 1 / 4)
    (hleast : 0 < options.minTrustRadius) (haims : s.Aims options.asPartial radius g Jg) :
    Completes (s.attempt options.asPartial.solver p options.asPartial g Jg) fun s' =>
      ∃ a', s'.StandsAt p a' := by
  obtain ⟨hpoint, hc, hJ⟩ := hs.shapes hp
  refine (completes_attempt hp.isConstrained hJ.answers_recurrence hpoint hc hJ
    (fun _ => ⟨_, rfl⟩) fun gaussNewton hfound _ => ?_).of_all fun l s' l' hattempt => ?_
  · obtain ⟨d, hd, hlength, -⟩ := hs.exists_dogleg haims (hleast.trans_le (hs.large haims)) hfound
    exact ⟨_, hd, Vec.length_asPartial.trans hlength⟩
  · obtain ⟨-, a', -, -, hnext⟩ := hs.attempted hfinite hacceptance hleast haims hattempt
    exact ⟨a', hnext⟩

end NormalState

end InfeasibilityControl
