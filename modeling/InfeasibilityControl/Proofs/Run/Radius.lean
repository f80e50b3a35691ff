import InfeasibilityControl.Proofs.Order.FloatSign
import InfeasibilityControl.Proofs.Run.Course
import Mathlib.Data.List.Chain

set_option autoImplicit false
set_option relaxedAutoImplicit false

/-!
The radius of tolerated infeasibility along a run.

A normal step never raises the radius. A failed tangent step halves it, but not below the primal
tolerance; where that tolerance exceeds the bound of the radius the floor lifts the radius above its
bound. Without such a step the radius never grows and stays between its bound and its floor.
-/

namespace InfeasibilityControl

open Counted (Returns)
open RunState (Starts Restores Judges Descends afterTangent)

variable {K : Type} [Scalar K]

/-- The radius never grows from row to row, never exceeds the bound and never drops below both the
bound and the floor. It is a number if the bound is one. -/
structure RadiusLaw (bound floor : K) (rows : List (ProgressRow K)) : Prop where
  number : bound ≤ bound → ∀ row ∈ rows, row.radius ≤ row.radius
  shrinking : rows.IsChain fun a b => ¬ a.radius < b.radius
  bounded : ∀ row ∈ rows, ¬ bound < row.radius
  floored : ∀ row ∈ rows, ¬ (row.radius < bound ∧ row.radius < floor)

/-- A row tells of a tangent step without success. -/
def ProgressRow.TellsOfFailure (row : ProgressRow K) : Prop :=
  row.stage = "T" ∧ row.status ≠ "success"

/-- A failed tangent step shrinks the radius to a floor that lies above its bound. -/
def Settings.LiftsRadius (settings : Settings K) (floor : K) (rows : List (ProgressRow K)) : Prop :=
  settings.tangentFailure = .shrink ∧ settings.radiusBound < floor ∧
    ∃ row ∈ rows, row.TellsOfFailure

theorem Settings.liftsRadius_append {settings : Settings K} {floor : K}
    {rows : List (ProgressRow K)} {row : ProgressRow K} :
    settings.LiftsRadius floor (rows ++ [row]) ↔ settings.LiftsRadius floor rows ∨
      (settings.tangentFailure = .shrink ∧ settings.radiusBound < floor ∧ row.TellsOfFailure) := by
  simp only [LiftsRadius, List.mem_append, List.mem_singleton]
  constructor
  · rintro ⟨hshrink, hbelow, failed, hmem | rfl, hfailed⟩
    · exact .inl ⟨hshrink, hbelow, failed, hmem, hfailed⟩
    · exact .inr ⟨hshrink, hbelow, hfailed⟩
  · rintro (⟨hshrink, hbelow, failed, hmem, hfailed⟩ | ⟨hshrink, hbelow, hfailed⟩)
    · exact ⟨hshrink, hbelow, failed, .inl hmem, hfailed⟩
    · exact ⟨hshrink, hbelow, row, .inr rfl, hfailed⟩

/-- A radius at which a run may stand: not below both the bound and the floor. It is a number if the
bound is one. -/
structure IsFloored (bound floor radius : K) : Prop where
  number : bound ≤ bound → 0 ≤ radius
  floored : ¬ (radius < bound ∧ radius < floor)

/-- A radius at which a run may stand that keeps the law. It is a number if the bound is one. -/
structure IsLawful (bound floor radius : K) : Prop where
  number : bound ≤ bound → 0 ≤ radius
  undefined : ¬ bound ≤ bound → ¬ radius ≤ radius
  bounded : ¬ bound < radius
  floored : ¬ (radius < bound ∧ radius < floor)

section

variable [SignedScalar K] {bound floor radius : K}

open ComparableScalar SignedScalar

theorem updateRadius_cases (radius floor : K) {rel : K} (hrel : ¬ rel < 0) (hbound : ¬ bound < 0) :
    updateRadius radius bound rel floor = radius ∨
      (updateRadius radius bound rel floor < radius ∧
        ¬ updateRadius radius bound rel floor < floor ∧
        ¬ updateRadius radius bound rel floor < 0) := by
  have hcapped : ¬ Scalar.min rel 0.75 < 0 := by
    unfold Scalar.min
    split
    · exact three_quarters_not_neg
    · exact hrel
  have htarget := mul_not_neg hcapped hbound
  unfold updateRadius
  generalize Scalar.min rel 0.75 * bound = target at htarget
  have hmax : ¬ Scalar.max target floor < floor ∧ ¬ Scalar.max target floor < 0 := by
    unfold Scalar.max
    split
    · rename_i hbelow
      exact ⟨lt_irrefl floor, fun hneg => htarget (lt_trans hbelow hneg)⟩
    · rename_i habove
      exact ⟨habove, htarget⟩
  unfold Scalar.min
  split
  · rename_i hlower
    exact .inr ⟨hlower, hmax⟩
  · exact .inl rfl

theorem IsFloored.update {rel : K} (h : IsFloored bound floor radius) (hrel : ¬ rel < 0)
    (hbound : ¬ bound < 0) : IsFloored bound floor (updateRadius radius bound rel floor) := by
  obtain heq | ⟨hlower, hfloor, hsign⟩ := updateRadius_cases radius floor hrel hbound
  · rw [heq]
    exact h
  · exact ⟨fun _ => le_of_not_lt (le_refl_left (le_of_lt hlower)) zero_le_zero hsign,
      fun hfloored => hfloor hfloored.2⟩

theorem IsLawful.update {rel : K} (h : IsLawful bound floor radius) (hrel : ¬ rel < 0)
    (hbound : ¬ bound < 0) :
    IsLawful bound floor (updateRadius radius bound rel floor) ∧
      ¬ radius < updateRadius radius bound rel floor := by
  obtain ⟨hnumber, hfloored⟩ := IsFloored.update ⟨h.number, h.floored⟩ hrel hbound
  obtain heq | ⟨hlower, -, -⟩ := updateRadius_cases radius floor hrel hbound
  · rw [heq]
    exact ⟨h, lt_irrefl radius⟩
  generalize updateRadius radius bound rel floor = next at hnumber hfloored hlower
  refine ⟨⟨hnumber, ?_, ?_, hfloored⟩, ?_⟩
  · intro hundefined
    exact absurd (le_refl_right (le_of_lt hlower)) (h.undefined hundefined)
  · intro habove
    exact h.bounded (lt_trans habove hlower)
  · intro hgrown
    exact lt_irrefl radius (lt_trans hgrown hlower)

theorem IsFloored.halve (h : IsFloored bound floor radius) :
    IsFloored bound floor (Scalar.max (0.5 * radius) floor) := by
  have hsign : bound ≤ bound → ¬ (0.5 : K) * radius < 0 := fun hnumber =>
    mul_not_neg half_not_neg fun hneg => lt_irrefl _ (lt_of_le_of_lt (h.number hnumber) hneg)
  unfold Scalar.max
  split
  · rename_i hbelow
    have hfloor : floor ≤ floor := le_refl_right (le_of_lt hbelow)
    exact ⟨fun hnumber => le_of_not_lt hfloor zero_le_zero fun hneg =>
      hsign hnumber (lt_trans hbelow hneg), fun hfloored => lt_irrefl floor hfloored.2⟩
  · rename_i habove
    exact ⟨fun hnumber => le_of_not_lt (le_refl_left (half_le (h.number hnumber))) zero_le_zero
      (hsign hnumber), fun hfloored => habove hfloored.2⟩

theorem IsLawful.halve (h : IsLawful bound floor radius) (hfloor : ¬ bound < floor) :
    IsLawful bound floor (Scalar.max (0.5 * radius) floor) ∧
      ¬ radius < Scalar.max (0.5 * radius) floor := by
  obtain ⟨hnumber', hfloored⟩ := IsFloored.halve ⟨h.number, h.floored⟩
  have hhalf : bound ≤ bound → 0.5 * radius ≤ radius := fun hnumber => half_le (h.number hnumber)
  have hundefined : ¬ bound ≤ bound → ¬ (0.5 : K) * radius ≤ 0.5 * radius := fun hbound hle =>
    h.undefined hbound (number_of_half hle)
  unfold Scalar.max at hnumber' hfloored ⊢
  split
  · rename_i hbelow
    rw [if_pos hbelow] at hnumber' hfloored
    have hnumber : bound ≤ bound := by
      by_contra hbound
      exact hundefined hbound (le_refl_left (le_of_lt hbelow))
    refine ⟨⟨hnumber', fun hbound => absurd hnumber hbound, hfloor, hfloored⟩, fun hgrown => ?_⟩
    have hlow : ¬ radius < bound := fun hlow => h.floored ⟨hlow, hgrown⟩
    have hle := le_of_not_lt (le_refl_right (h.number hnumber)) hnumber hlow
    exact hfloor (lt_of_le_of_lt hle hgrown)
  · rename_i habove
    rw [if_neg habove] at hnumber' hfloored
    refine ⟨⟨hnumber', hundefined, fun hgrown => ?_, hfloored⟩, fun hgrown => ?_⟩
    · have hnumber := le_refl_left (le_of_lt hgrown)
      have hle := le_of_not_lt hnumber (le_refl_right (h.number hnumber)) h.bounded
      exact lt_irrefl _ (lt_of_le_of_lt (le_trans (hhalf hnumber) hle) hgrown)
    · have hnumber : bound ≤ bound := by
        by_contra hbound
        exact h.undefined hbound (le_refl_left (le_of_lt hgrown))
      exact lt_irrefl _ (lt_of_le_of_lt (hhalf hnumber) hgrown)

/-- Halving down to a floor above the bound lifts the radius above its bound. -/
theorem IsLawful.lift (h : IsLawful bound floor radius) (hfloor : bound < floor) :
    bound < Scalar.max (0.5 * radius) floor := by
  have hnumber : bound ≤ bound := le_refl_left (le_of_lt hfloor)
  have hhalf : 0.5 * radius ≤ radius := half_le (h.number hnumber)
  have hle := le_of_not_lt hnumber (le_refl_right (h.number hnumber)) h.bounded
  unfold Scalar.max
  split
  · exact hfloor
  · rename_i habove
    exact absurd (lt_of_le_of_lt (le_trans hhalf hle) hfloor) habove

theorem relativeDual_not_neg {dualNorm gradientNorm : K} (dualTolerance : K)
    (hdual : ¬ dualNorm < 0) (hgradient : ¬ gradientNorm < 0) :
    ¬ relativeDual dualNorm gradientNorm dualTolerance < 0 := by
  unfold relativeDual
  split
  · exact lt_irrefl 0
  · exact div_succ_not_neg hdual hgradient

end

/-- The law along a run that stands at a lawful radius, the one that the last row shows. -/
structure RunState.KeepsRadius (bound floor : K) (r : RunState K) : Prop where
  law : RadiusLaw bound floor (r.stages.map Stage.row)
  lawful : IsLawful bound floor r.iterate.radius
  shown : ∃ before s, r.stages = before ++ [s] ∧ s.row.radius = r.iterate.radius

theorem RadiusLaw.append [ComparableScalar K] {bound floor : K} {rows : List (ProgressRow K)}
    {row : ProgressRow K} (h : RadiusLaw bound floor rows)
    (hrow : IsLawful bound floor row.radius)
    (hshrinks : ∀ last ∈ rows.getLast?, ¬ last.radius < row.radius) :
    RadiusLaw bound floor (rows ++ [row]) := by
  refine ⟨fun hnumber => ?_, ?_, ?_, ?_⟩
  · have hnew := ComparableScalar.le_refl_right (hrow.number hnumber)
    exact List.forall_mem_append.2 ⟨h.number hnumber, List.forall_mem_singleton.2 hnew⟩
  · refine List.isChain_append.2 ⟨h.shrinking, List.isChain_singleton row, ?_⟩
    simpa using hshrinks
  · exact List.forall_mem_append.2 ⟨h.bounded, List.forall_mem_singleton.2 hrow.bounded⟩
  · exact List.forall_mem_append.2 ⟨h.floored, List.forall_mem_singleton.2 hrow.floored⟩

theorem RunState.KeepsRadius.append [ComparableScalar K] {bound floor : K} {r r' : RunState K}
    {s : Stage K} (h : r.KeepsRadius bound floor) (hstages : r'.stages = r.stages ++ [s])
    (hshown : s.row.radius = r'.iterate.radius) (hlawful : IsLawful bound floor r'.iterate.radius)
    (hshrinks : ¬ r.iterate.radius < r'.iterate.radius) : r'.KeepsRadius bound floor := by
  obtain ⟨before, last, hlast, hradius⟩ := h.shown
  refine ⟨?_, hlawful, r.stages, s, hstages, hshown⟩
  rw [hstages, List.map_append, List.map_cons, List.map_nil]
  refine h.law.append ?_ ?_
  · rw [hshown]
    exact hlawful
  · rw [hlast]
    simpa [hradius, hshown] using hshrinks

variable {p : Problem K} {settings : Settings K} {policy : RegularizationPolicy K}
  {start? : Option (Vec K)} {l₀ l l' : Ledger K} {c : RunContext K} {m : Moment}
  {r r' : RunState K}

theorem isLawful_bound [SignedScalar K] {bound : K} (hbound : ¬ bound ≤ 0) (floor : K) :
    IsLawful bound floor bound := by
  refine ⟨fun hnumber => ?_, id, ComparableScalar.lt_irrefl _, fun hfloored => ?_⟩
  · refine ComparableScalar.le_of_not_lt hnumber SignedScalar.zero_le_zero fun hneg => ?_
    exact hbound (ComparableScalar.le_of_lt hneg)
  · exact ComparableScalar.lt_irrefl _ hfloored.1

theorem RunState.Starts.keepsRadius [SignedScalar K]
    (h : Starts p settings policy start? c r l l') (hbound : ¬ settings.radiusBound ≤ 0)
    (floor : K) : r.KeepsRadius settings.radiusBound floor := by
  obtain ⟨row, hrow, hshown⟩ := h.stages
  have hlawful : IsLawful settings.radiusBound floor r.iterate.radius := by
    rw [h.radius]
    exact isLawful_bound hbound floor
  refine ⟨?_, hlawful, [], _, hrow, hshown.radius⟩
  rw [hrow, List.map_cons, List.map_nil, ← List.nil_append [_]]
  refine RadiusLaw.append ⟨?_, List.isChain_nil, ?_, ?_⟩ (hshown.radius ▸ hlawful) ?_ <;> simp

theorem Iterate.freshDualNorm_not_neg [SignedScalar K] {s : Iterate K} {d : K}
    (h : s.freshDualNorm = .ok d) : ¬ d < 0 := by
  obtain ⟨g, -, rfl⟩ := Counted.except_map_eq_ok.1 h
  exact Vec.norm_not_neg g

theorem RunState.Restores.updates [SignedScalar K] {o : NormalOutcome K}
    (h : Restores c r o r' l l') : ∃ rel, ¬ rel < 0 ∧
      r'.iterate.radius =
        updateRadius r.iterate.radius c.settings.radiusBound rel c.tolerances.primal := by
  obtain ⟨d, hd, hradius⟩ := h.radius
  have hgradient : ¬ r.iterate.gradientNorm < 0 := Vec.norm_not_neg r.iterate.gradient
  exact ⟨_, relativeDual_not_neg c.tolerances.dual (Iterate.freshDualNorm_not_neg hd) hgradient,
    h.iterate.radius.trans hradius⟩

theorem RunState.Restores.keepsRadius [SignedScalar K] {o : NormalOutcome K}
    (h : Restores c r o r' l l') (hbound : ¬ c.settings.radiusBound ≤ 0)
    (hr : r.KeepsRadius c.settings.radiusBound c.tolerances.primal) :
    r'.KeepsRadius c.settings.radiusBound c.tolerances.primal := by
  obtain ⟨row, hrow, hshown⟩ := h.stages
  obtain ⟨rel, hrel, hradius⟩ := h.updates
  obtain ⟨hlawful, hshrinks⟩ := hr.lawful.update hrel fun hneg =>
    hbound (ComparableScalar.le_of_lt hneg)
  rw [← hradius] at hlawful hshrinks
  exact hr.append hrow hshown.radius hlawful hshrinks

/-- A tangent step keeps the law, unless it fails and lifts the radius above its bound. -/
theorem RunState.Descends.keepsRadius [SignedScalar K] {o : TangentOutcome K}
    (h : Descends c r o r' l l') (hr : r.KeepsRadius c.settings.radiusBound c.tolerances.primal) :
    (c.settings.tangentFailure = .shrink ∧ c.settings.radiusBound < c.tolerances.primal ∧
      o.ending.isSuccess = false ∧ c.settings.radiusBound < r'.iterate.radius) ∨
    (¬ (c.settings.tangentFailure = .shrink ∧ c.settings.radiusBound < c.tolerances.primal ∧
      o.ending.isSuccess = false) ∧
      r'.KeepsRadius c.settings.radiusBound c.tolerances.primal) := by
  obtain ⟨s, row, hrow, ⟨g?, hs⟩, hshown⟩ := h.stages
  have hrowRadius : row.radius = r'.iterate.radius := by
    rw [hshown.radius, hs]
    rfl
  have hradius : r'.iterate.radius =
      (afterTangent c.settings c.tolerances.primal r.iterate.radius o.ending).1 :=
    congrArg Prod.fst h.radius
  obtain ⟨hshrink, hfailed, hlow⟩ | ⟨hother, hsame⟩ :=
    afterTangent_radius c.settings c.tolerances.primal r.iterate.radius o.ending
  · rw [hlow] at hradius
    by_cases hfloor : c.settings.radiusBound < c.tolerances.primal
    · left
      rw [hradius]
      exact ⟨hshrink, hfloor, hfailed, hr.lawful.lift hfloor⟩
    · right
      obtain ⟨hlawful, hshrinks⟩ := hr.lawful.halve hfloor
      rw [← hradius] at hlawful hshrinks
      exact ⟨fun hlifts => hfloor hlifts.2.1, hr.append hrow hrowRadius hlawful hshrinks⟩
  · right
    rw [hsame] at hradius
    refine ⟨fun hlifts => hother ⟨hlifts.1, hlifts.2.2⟩, hr.append hrow hrowRadius ?_ ?_⟩
    · rw [hradius]
      exact hr.lawful
    · rw [hradius]
      exact ComparableScalar.lt_irrefl _

/-- As long as no failed tangent step lifts the radius, the law holds; after one that does, it is
broken for good. -/
def RunState.TellsRadius (settings : Settings K) (floor : K) (r : RunState K) : Prop :=
  (settings.LiftsRadius floor (r.stages.map Stage.row) ∧
    ∃ row ∈ r.stages.map Stage.row, settings.radiusBound < row.radius) ∨
  (¬ settings.LiftsRadius floor (r.stages.map Stage.row) ∧
    r.KeepsRadius settings.radiusBound floor)

theorem RunState.Starts.tellsRadius [SignedScalar K]
    (h : Starts p settings policy start? c r l l') (hbound : ¬ settings.radiusBound ≤ 0)
    (floor : K) : r.TellsRadius settings floor := by
  obtain ⟨row, hrow, hshown⟩ := h.stages
  refine .inr ⟨?_, h.keepsRadius hbound floor⟩
  rintro ⟨-, -, failed, hmem, hfailed, -⟩
  rw [hrow, List.map_cons, List.map_nil, List.mem_singleton] at hmem
  rw [hmem, hshown.stage] at hfailed
  exact absurd hfailed (by decide)

theorem RunState.Restores.tellsRadius [SignedScalar K] {o : NormalOutcome K}
    (h : Restores c r o r' l l') (hbound : ¬ c.settings.radiusBound ≤ 0)
    (hr : r.TellsRadius c.settings c.tolerances.primal) :
    r'.TellsRadius c.settings c.tolerances.primal := by
  obtain ⟨row, hrow, hshown⟩ := h.stages
  have hquiet : ¬ row.TellsOfFailure := by
    rintro ⟨hstage, -⟩
    rw [hshown.stage] at hstage
    exact absurd hstage (by decide)
  unfold TellsRadius
  rw [hrow, List.map_append, List.map_cons, List.map_nil, Settings.liftsRadius_append]
  obtain ⟨hlifts, hhigh⟩ | ⟨hlawful, hkeeps⟩ := hr
  · exact .inl ⟨.inl hlifts, hhigh.imp fun row hrow => ⟨List.mem_append_left _ hrow.1, hrow.2⟩⟩
  · refine .inr ⟨?_, h.keepsRadius hbound hkeeps⟩
    rintro (hlifts | ⟨-, -, hfailed⟩)
    · exact hlawful hlifts
    · exact hquiet hfailed

theorem RunState.Descends.tellsRadius [SignedScalar K] {o : TangentOutcome K}
    (h : Descends c r o r' l l') (hr : r.TellsRadius c.settings c.tolerances.primal) :
    r'.TellsRadius c.settings c.tolerances.primal := by
  obtain ⟨s, row, hrow, ⟨g?, hs⟩, hshown⟩ := h.stages
  have hfailure : row.TellsOfFailure ↔ o.ending.isSuccess = false := by
    rw [ProgressRow.TellsOfFailure, hshown.stage, hshown.status, Ne,
      TangentEnding.name_eq_success_iff]
    simp
  unfold TellsRadius
  rw [hrow, List.map_append, List.map_cons, List.map_nil, Settings.liftsRadius_append, hfailure]
  obtain ⟨hlifts, hhigh⟩ | ⟨hlawful, hkeeps⟩ := hr
  · exact .inl ⟨.inl hlifts, hhigh.imp fun row hrow => ⟨List.mem_append_left _ hrow.1, hrow.2⟩⟩
  obtain ⟨hshrink, hfloor, hfailed, hhigh⟩ | ⟨hother, hkept⟩ := h.keepsRadius hkeeps
  · refine .inl ⟨.inr ⟨hshrink, hfloor, hfailed⟩, row, by simp, ?_⟩
    rw [hshown.radius]
    rw [hs] at hhigh
    exact hhigh
  · refine .inr ⟨?_, hkept⟩
    rintro (hlifts | hlifts)
    · exact hlawful hlifts
    · exact hother hlifts

theorem Reaches.radiusLaw [SignedScalar K] (h : Reaches p settings policy start? l₀ c m r l)
    (hbound : ¬ settings.radiusBound ≤ 0) : r.TellsRadius settings c.tolerances.primal := by
  refine h.rule (P := fun c _ r _ => r.TellsRadius settings c.tolerances.primal) ?_ ?_ ?_ ?_ ?_ ?_
  · intro c r l hstep
    exact hstep.tellsRadius hbound _
  · rintro c again r o r' l l' h hr - hstep
    rw [← h.settings_eq] at hbound hr ⊢
    exact hstep.tellsRadius hbound hr
  · intro c r l _ hr _
    exact hr
  · rintro c r r' l l' - hr - hstep
    obtain ⟨g?, solved, rfl⟩ := hstep.state
    exact hr.imp id fun hkeeps => ⟨hkeeps.1, hkeeps.2.law, hkeeps.2.lawful, hkeeps.2.shown⟩
  · intro c r l _ hr _
    exact hr
  · rintro c r o r' l l' h hr - hstep
    rw [← h.settings_eq] at hr ⊢
    exact hstep.tellsRadius hr

/-- The law of the radius holds exactly as long as no failed tangent step lifts the radius, at every
state that a run reaches and in the history of its result. -/
theorem radiusLaw_iff [SignedScalar K] (hbound : ¬ settings.radiusBound ≤ 0) :
    (∀ c m r l, Reaches p settings policy start? l₀ c m r l →
      settings.tolerancesAt p (start?.getD p.start) = .ok c.tolerances ∧
      (RadiusLaw settings.radiusBound c.tolerances.primal (r.stages.map Stage.row) ↔
        ¬ settings.LiftsRadius c.tolerances.primal (r.stages.map Stage.row))) ∧
    ∀ rounds res l, Returns (solveWithin p settings policy start? rounds) l₀ (some res) l →
      settings.tolerancesAt p (start?.getD p.start) = .ok res.tolerances ∧
      (RadiusLaw settings.radiusBound res.tolerances.primal res.history ↔
        ¬ settings.LiftsRadius res.tolerances.primal res.history) := by
  have hreached : ∀ c m r l, Reaches p settings policy start? l₀ c m r l →
      settings.tolerancesAt p (start?.getD p.start) = .ok c.tolerances ∧
      (RadiusLaw settings.radiusBound c.tolerances.primal (r.stages.map Stage.row) ↔
        ¬ settings.LiftsRadius c.tolerances.primal (r.stages.map Stage.row)) := by
    intro c m r l hr
    obtain ⟨r₁, l₁, hstarts⟩ := hr.started
    refine ⟨hstarts.tolerancesAt, ?_⟩
    obtain ⟨hlifts, row, hmem, hhigh⟩ | ⟨hother, hkeeps⟩ := hr.radiusLaw hbound
    · refine ⟨fun hlaw => absurd hhigh (hlaw.bounded row hmem), fun hother => ?_⟩
      exact absurd hlifts hother
    · exact ⟨fun _ => hother, fun _ => hkeeps.law⟩
  refine ⟨hreached, fun rounds res l h => ?_⟩
  obtain ⟨c, r, l₁, hr, -, hres, -⟩ := solveWithin_returns h
  rw [hres.tolerances, hres.history]
  exact hreached c _ r l₁ hr

/-- A function of the two coordinates of a point. -/
private def onPlane {α : Type} (f : Float → Float → α) (x : Vec Float) : Except Fault α :=
  match x with
  | [a, b] => .ok (f a b)
  | _ => .error .shapeMismatch

/-- Two wells side by side in the plane, with steep walls and narrow against the slope between
them. -/
def doubleWell : Problem Float where
  name := "double_well"
  start := [0.01, 0]
  constraintCount := 1
  inequalityCount := 0
  bounded := false
  evaluationTime := 0
  objective := onPlane fun a _ => 1e5 * (a * a * a * a) - 1e2 * (a * a)
  gradient := onPlane fun a _ => [4e5 * (a * a * a) - 2e2 * a, 0]
  constraints := onPlane fun _ b => [b]
  jacobianPattern := [⟨0, 1⟩]
  jacobianValues := onPlane fun _ _ => [1]
  hessianPattern := [⟨0, 0⟩]
  hessianValues := fun x _ _ => onPlane (fun a _ => [1.2e6 * (a * a) - 2e2]) x

/-- Few evaluations, a line search that soon gives up, and a tolerance above the bound of the
radius. -/
def Settings.hasty : Settings Float :=
  { standard with
    absolute := 0.01
    relative := 0
    radiusBound := 1e-6
    maxEvaluations := 5
    minStep := 0.9
    tangentFailure := .shrink }

/-- Between the wells the line search fails, and the radius is lifted above its bound. -/
theorem doubleWell_breaks_radiusLaw : ¬ Settings.hasty.radiusBound ≤ 0 ∧ ∃ res l,
    Returns (solveWithin doubleWell .hasty (.fixed .standard) none 5) .empty (some res) l ∧
      ¬ RadiusLaw Settings.hasty.radiusBound res.tolerances.primal res.history := by
  have hbound : ¬ Settings.hasty.radiusBound ≤ 0 := by decide +kernel
  have hrun : (Counted.value? (solveWithin doubleWell .hasty (.fixed .standard) none 5)
      .empty).any (fun res? => res?.any fun res =>
        decide (Settings.hasty.radiusBound < res.tolerances.primal) &&
          res.history.any fun row => decide (row.stage = "T" ∧ row.status ≠ "success")) = true := by
    decide +kernel
  obtain ⟨res?, hvalue, hres⟩ := (Option.any_eq_true _ _).1 hrun
  obtain ⟨res, rfl, hres⟩ := (Option.any_eq_true _ _).1 hres
  obtain ⟨l, h⟩ := Counted.value?_eq_some_iff.1 hvalue
  obtain ⟨hbelow, hfailed⟩ := Bool.and_eq_true_iff.1 hres
  obtain ⟨row, hmem, hfailed⟩ := List.any_eq_true.1 hfailed
  have hfailed : row.stage = "T" ∧ row.status ≠ "success" := of_decide_eq_true hfailed
  obtain ⟨-, hlaw⟩ := (radiusLaw_iff hbound).2 _ _ _ h
  refine ⟨hbound, res, l, h, fun hholds => hlaw.1 hholds ?_⟩
  exact ⟨rfl, of_decide_eq_true hbelow, row, hmem, hfailed⟩

end InfeasibilityControl
