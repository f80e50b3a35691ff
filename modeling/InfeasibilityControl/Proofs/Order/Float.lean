import InfeasibilityControl.Proofs.Order.Laws
import Mathlib

set_option autoImplicit false
set_option relaxedAutoImplicit false

/-!
Floating-point numbers obey the laws of comparison.

Every value but the undefined one has a place in a linear order: first come the classes from minus
infinity to infinity, then within a class the exponents, then the mantissas. Comparisons of values
are comparisons of places.
-/

namespace InfeasibilityControl

namespace FloatOrder

open Float.Model

/-- The place of a value among all values, by class, exponent and mantissa. An undefined value has
none, and the two zeros share theirs. -/
def rank? : UnpackedFloat → Option (Lex (Int × Lex (Int × Int)))
  | .notANumber => none
  | .infinity .negative => some (toLex (-2, toLex (0, 0)))
  | .finite .negative m e _ => some (toLex (-1, toLex (-e, -m)))
  | .zero _ => some (toLex (0, toLex (0, 0)))
  | .finite .positive m e _ => some (toLex (1, toLex (e, m)))
  | .infinity .positive => some (toLex (2, toLex (0, 0)))

private theorem compare_neg (a b : Int) : compare (-a) (-b) = (compare a b).swap := by
  rcases Int.lt_trichotomy a b with h | rfl | h
  · rw [compare_lt_iff_lt.2 h, compare_gt_iff_gt.2 (by omega)]
    rfl
  · simp
  · rw [compare_gt_iff_gt.2 h, compare_lt_iff_lt.2 (by omega)]
    rfl

private theorem compare_cast (m n : Nat) : compare (m : Int) (n : Int) = compare m n := by
  rcases Nat.lt_trichotomy m n with h | rfl | h
  · rw [compare_lt_iff_lt.2 h, compare_lt_iff_lt.2 (by omega)]
  · simp
  · rw [compare_gt_iff_gt.2 h, compare_gt_iff_gt.2 (by omega)]

private theorem compare_eq (a b : UnpackedFloat) :
    a.compare b = (rank? a).bind fun x => (rank? b).map fun y => compare x y := by
  rcases a with ⟨_ | _⟩ | _ | _ | ⟨_ | _, m, e, hm⟩ <;>
    rcases b with ⟨_ | _⟩ | _ | _ | ⟨_ | _, m', e', hm'⟩
  any_goals rfl
  · change some ((compare e e').then (compare m m')).swap =
      some ((compare (-e) (-e')).then (compare (-(m : Int)) (-(m' : Int))))
    rw [compare_neg, compare_neg, compare_cast, Ordering.swap_then]
  · change some ((compare e e').then (compare m m')) =
      some ((compare e e').then (compare (m : Int) (m' : Int)))
    rw [compare_cast]

/-- Where a floating-point number stands among all. -/
def place? (a : Float) : Option (Lex (Int × Lex (Int × Int))) := rank? a.toModel.unpack

theorem lt_iff {a b : Float} :
    a < b ↔ ∃ x y, place? a = some x ∧ place? b = some y ∧ x < y := by
  refine decide_eq_true_iff.trans ?_
  change ((a.toModel.unpack.compare b.toModel.unpack) == some .lt) = true ↔ _
  rw [compare_eq, place?, place?]
  cases rank? a.toModel.unpack with
  | none => simp
  | some x =>
    cases rank? b.toModel.unpack with
    | none => simp
    | some y => simpa using compare_lt_iff_lt (a := x) (b := y)

theorem le_iff {a b : Float} :
    a ≤ b ↔ ∃ x y, place? a = some x ∧ place? b = some y ∧ x ≤ y := by
  refine decide_eq_true_iff.trans ?_
  change ((a.toModel.unpack.compare b.toModel.unpack).any (·.isLE)) = true ↔ _
  rw [compare_eq, place?, place?]
  cases rank? a.toModel.unpack with
  | none => simp
  | some x =>
    cases rank? b.toModel.unpack with
    | none => simp
    | some y => simpa [Ordering.isLE_iff_ne_gt] using compare_le_iff_le (a := x) (b := y)

private theorem mul_self_eq {a b : Float} (h : (a == b) = true) : a * a = b * b := by
  obtain ⟨-, -, rfl | ⟨rfl, rfl⟩ | ⟨rfl, rfl⟩⟩ := Float.beq_iff_ne_nan_and_eq.1 h
  · rfl
  · rfl
  · rfl

end FloatOrder

instance : ComparableScalar Float where
  lt_irrefl a h := by
    obtain ⟨x, y, hx, hy, hlt⟩ := FloatOrder.lt_iff.1 h
    rw [hx] at hy
    cases hy
    exact lt_irrefl x hlt
  lt_trans h h' := by
    obtain ⟨x, y, hx, hy, hlt⟩ := FloatOrder.lt_iff.1 h
    obtain ⟨y', z, hy', hz, hlt'⟩ := FloatOrder.lt_iff.1 h'
    rw [hy] at hy'
    cases hy'
    exact FloatOrder.lt_iff.2 ⟨x, z, hx, hz, hlt.trans hlt'⟩
  lt_of_le_of_lt h h' := by
    obtain ⟨x, y, hx, hy, hle⟩ := FloatOrder.le_iff.1 h
    obtain ⟨y', z, hy', hz, hlt⟩ := FloatOrder.lt_iff.1 h'
    rw [hy] at hy'
    cases hy'
    exact FloatOrder.lt_iff.2 ⟨x, z, hx, hz, hle.trans_lt hlt⟩
  le_trans h h' := by
    obtain ⟨x, y, hx, hy, hle⟩ := FloatOrder.le_iff.1 h
    obtain ⟨y', z, hy', hz, hle'⟩ := FloatOrder.le_iff.1 h'
    rw [hy] at hy'
    cases hy'
    exact FloatOrder.le_iff.2 ⟨x, z, hx, hz, hle.trans hle'⟩
  le_of_lt h := by
    obtain ⟨x, y, hx, hy, hlt⟩ := FloatOrder.lt_iff.1 h
    exact FloatOrder.le_iff.2 ⟨x, y, hx, hy, hlt.le⟩
  le_refl_left h := by
    obtain ⟨x, y, hx, hy, hle⟩ := FloatOrder.le_iff.1 h
    exact FloatOrder.le_iff.2 ⟨x, x, hx, hx, le_refl x⟩
  le_refl_right h := by
    obtain ⟨x, y, hx, hy, hle⟩ := FloatOrder.le_iff.1 h
    exact FloatOrder.le_iff.2 ⟨y, y, hy, hy, le_refl y⟩
  le_of_not_lt h h' hlt := by
    obtain ⟨x, _, hx, -, -⟩ := FloatOrder.le_iff.1 h
    obtain ⟨y, _, hy, -, -⟩ := FloatOrder.le_iff.1 h'
    refine FloatOrder.le_iff.2 ⟨y, x, hy, hx, not_lt.1 fun hxy => hlt ?_⟩
    exact FloatOrder.lt_iff.2 ⟨x, y, hx, hy, hxy⟩
  mul_self_eq := FloatOrder.mul_self_eq

end InfeasibilityControl
