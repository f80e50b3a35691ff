import InfeasibilityControl.Proofs.Run.Rest

set_option autoImplicit false
set_option relaxedAutoImplicit false

/-!
Runs that stand still.

At a standstill a round leaves the iterate as it was, but for its number: the point is inside the
radius and passes no test, the multipliers are settled, there is no descent along the constraints,
and the radius is restored. Rounds that rest come to a standstill once the multipliers and the
radius have settled.
-/

namespace InfeasibilityControl

open RunState (afterTangent)

variable {K : Type} [Scalar K]

/-- The iterate as it is so many iterations later. -/
def Iterate.later (s : Iterate K) (n : Nat) : Iterate K := { s with iteration := s.iteration + n }

omit [Scalar K] in
@[simp] theorem Iterate.later_zero (s : Iterate K) : s.later 0 = s := by
  simp [later]

omit [Scalar K] in
theorem Iterate.later_later (s : Iterate K) (m n : Nat) :
    (s.later m).later n = s.later (m + n) := by
  simp [later, Int.add_assoc]

/-- The rounds from here leave the iterate as it is, but for its number. With `g` the gradient of
the Lagrangian and `rho` the radius of the normal steps, the point passes no test and lies inside
the radius, its multipliers are estimated as they are known, and no tangent step finds descent or
leaves another radius than the present one. -/
structure Iterate.StandsStill (c : RunContext K) (kkt : KktSystem K) (g : Vec K) (rho : K)
    (s : Iterate K) : Prop where
  coincides : Vec.coincides s.point s.point
  gradient : s.freshLagrangianGradient = .ok g
  multipliers : c.settings.leastSquaresMultipliers s.jacobian s.gradient = .ok s.multipliers
  fails : ¬ s.Passes c.tolerances
  radius : rho = updateRadius s.radius c.settings.radiusBound
    (relativeDual (Vec.norm g) s.gradientNorm c.tolerances.dual) c.tolerances.primal
  inside : s.primalNorm ≤ rho
  flat : ∀ n, ∃ kkt' ending,
    ((s.settled s.multipliers rho (some g)).later n).IsFlat c kkt kkt' ending ∧
      (s.radius, false) = afterTangent c.settings c.tolerances.primal rho ending

theorem Iterate.StandsStill.next {c : RunContext K} {kkt kkt' : KktSystem K} {g : Vec K} {rho : K}
    {s : Iterate K} {ending : TangentEnding K} (h : s.StandsStill c kkt g rho)
    (hflat : (s.settled s.multipliers rho (some g)).IsFlat c kkt kkt' ending) :
    ((s.settled s.multipliers s.radius (some g)).later 1).StandsStill c kkt' g rho := by
  obtain ⟨_, _, _, _, _, _, -, hloaded, -⟩ := hflat
  refine ⟨h.coincides, h.gradient, h.multipliers, h.fails, h.radius, h.inside, fun n => ?_⟩
  obtain ⟨kkt'', ending, hflat, hradius⟩ := h.flat (1 + n)
  obtain ⟨regularization, gradient, merit, d, kind, slope, hpolicy, hloaded', hflat⟩ := hflat
  refine ⟨kkt'', ending, ⟨regularization, gradient, merit, d, kind, slope, ?_, ?_, hflat⟩, hradius⟩
  · rw [← later_later] at hpolicy
    exact hpolicy
  · rw [KktSystem.loaded_of_loaded hloaded]
    exact hloaded'

namespace Iterate.SharesPoint

variable {s s' : Iterate K}

omit [Scalar K] in
theorem settled_eq (h : s.SharesPoint s') {n : Nat} (hiteration : s'.iteration = s.iteration + n)
    (y : Vec K) (rho : K) (g? : Option (Vec K)) :
    s'.settled y rho g? = (s.settled y rho g?).later n := by
  cases s'
  obtain ⟨rfl, rfl, rfl, rfl, rfl⟩ := h
  cases hiteration
  rfl

theorem freshLagrangianGradient (h : s.SharesPoint s') (hy : s'.multipliers = s.multipliers) :
    s'.freshLagrangianGradient = s.freshLagrangianGradient := by
  simp only [Iterate.freshLagrangianGradient, h.jacobian, h.gradient, hy]

theorem passes_iff (h : s.SharesPoint s') (hy : s'.multipliers = s.multipliers)
    {t : RunTolerances K} : s'.Passes t ↔ s.Passes t := by
  simp only [Passes, primalNorm, freshDualNorm, h.freshLagrangianGradient hy, h.constraints]

end Iterate.SharesPoint

/-- Rounds that all rest. -/
def IdlesOn (c : RunContext K) (x : Nat → RunState K) : Prop :=
  ∀ n, ∃ l l', (x n).Idles c (x (n + 1)) l l'

namespace IdlesOn

variable {c : RunContext K} {x : Nat → RunState K}

theorem shares (h : IdlesOn c x) (n : Nat) : (x 0).iterate.SharesPoint (x n).iterate ∧
    (x n).iterate.iteration = (x 0).iterate.iteration + n := by
  induction n with
  | zero => exact ⟨⟨rfl, rfl, rfl, rfl, rfl⟩, by simp⟩
  | succ n ih =>
    obtain ⟨l, l', hidles⟩ := h n
    refine ⟨ih.1.trans hidles.shares, ?_⟩
    rw [hidles.iteration, ih.2]
    omega

theorem loaded (h : IdlesOn c x) (n : Nat) (y z : Vec K) (gamma delta : K) :
    (x n).kkt.loaded c.problem y z gamma delta =
      (x 0).kkt.loaded c.problem y z gamma delta := by
  induction n with
  | zero => rfl
  | succ n ih =>
    obtain ⟨l, l', hidles⟩ := h n
    obtain ⟨d, rho, ending, g, -, -, -, -, hflat, -⟩ := hidles.flat
    obtain ⟨_, _, _, _, _, _, -, hloaded, -⟩ := hflat
    rw [KktSystem.loaded_of_loaded hloaded, ih]

theorem multipliers (h : IdlesOn c x)
    (hy : c.settings.leastSquaresMultipliers (x 0).iterate.jacobian (x 0).iterate.gradient =
      .ok (x 0).iterate.multipliers) (n : Nat) :
    (x n).iterate.multipliers = (x 0).iterate.multipliers := by
  cases n with
  | zero => rfl
  | succ n =>
    obtain ⟨l, l', hidles⟩ := h n
    have hnext := hidles.multipliers
    rw [(h.shares n).1.jacobian, (h.shares n).1.gradient, hy] at hnext
    exact (Except.ok.inj hnext).symm

theorem round (h : IdlesOn c x)
    (hy : c.settings.leastSquaresMultipliers (x 0).iterate.jacobian (x 0).iterate.gradient =
      .ok (x 0).iterate.multipliers) :
    ∃ g, (x 0).iterate.freshLagrangianGradient = .ok g ∧ ∀ n, ∃ rho kkt ending,
      rho = updateRadius (x n).iterate.radius c.settings.radiusBound
        (relativeDual (Vec.norm g) (x 0).iterate.gradientNorm c.tolerances.dual)
        c.tolerances.primal ∧
      (x 0).iterate.primalNorm ≤ rho ∧
      (((x 0).iterate.settled (x 0).iterate.multipliers rho (some g)).later n).IsFlat c (x 0).kkt
        kkt ending ∧
      ((x (n + 1)).iterate.radius, false) =
        afterTangent c.settings c.tolerances.primal rho ending := by
  obtain ⟨_, _, hfirst⟩ := h 0
  obtain ⟨_, _, _, g, -, -, -, hg, -⟩ := hfirst.flat
  rw [h.multipliers hy 1] at hg
  refine ⟨g, hg, fun n => ?_⟩
  obtain ⟨l, l', hidles⟩ := h n
  obtain ⟨hshares, hiteration⟩ := h.shares n
  obtain ⟨d, rho, ending, g', hd, hrho, hinside, hg', hflat, hafter⟩ := hidles.flat
  rw [h.multipliers hy (n + 1), hshares.settled_eq hiteration] at hg' hflat
  obtain rfl : g' = g := Except.ok.inj (hg'.symm.trans hg)
  have hfresh := (hshares.freshLagrangianGradient (h.multipliers hy n)).trans hg
  rw [Iterate.freshDualNorm_eq hfresh, Except.ok.injEq] at hd
  refine ⟨rho, (x (n + 1)).kkt, ending, ?_, ?_, ?_, hafter⟩
  · rw [hrho, ← hd, Iterate.gradientNorm, hshares.gradient]
    rfl
  · rw [Iterate.primalNorm, ← hshares.constraints]
    exact hinside
  · obtain ⟨regularization, gradient, merit, v, kind, slope, hpolicy, hloaded, hflat⟩ := hflat
    rw [h.loaded n] at hloaded
    exact ⟨regularization, gradient, merit, v, kind, slope, hpolicy, hloaded, hflat⟩

theorem standsStill (h : IdlesOn c x)
    (hy : c.settings.leastSquaresMultipliers (x 0).iterate.jacobian (x 0).iterate.gradient =
      .ok (x 0).iterate.multipliers)
    (hradius : ∀ n, (x n).iterate.radius = (x 0).iterate.radius) :
    ∃ g rho, (x 0).iterate.StandsStill c (x 0).kkt g rho := by
  obtain ⟨g, hg, hround⟩ := h.round hy
  obtain ⟨rho, _, _, hrho, hinside, -⟩ := hround 0
  obtain ⟨l, l', hidles⟩ := h 0
  refine ⟨g, rho, hidles.coincides, hg, hy, ?_, hrho, hinside, fun n => ?_⟩
  · rw [← hidles.shares.passes_iff (h.multipliers hy 1)]
    exact hidles.fails
  · obtain ⟨rho', kkt, ending, hrho', -, hflat, hafter⟩ := hround n
    rw [hradius n, ← hrho] at hrho'
    subst hrho'
    rw [hradius (n + 1)] at hafter
    exact ⟨kkt, ending, hflat, hafter⟩

end IdlesOn

end InfeasibilityControl
