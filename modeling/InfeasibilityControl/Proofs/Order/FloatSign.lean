import InfeasibilityControl.Proofs.Order.Float

set_option autoImplicit false
set_option relaxedAutoImplicit false

/-!
The signs of floating-point numbers.

No operation makes a negative value of values that are not negative: the sign of a result is that of
its operands, and packing keeps it. Halving lowers the exponent by one; at the least exponent it
loses a bit, and rounding does not make up for more than that.
-/

namespace InfeasibilityControl

namespace FloatOrder

open Float.Model Float.Model.UnpackedFloat

/-- Mantissa and exponent of a finite value as the format keeps them: the mantissa has all its bits
unless the exponent is the least. -/
structure IsKept (m : Nat) (e : Int) : Prop where
  positive : 0 < m
  bits : m < 2 ^ 53
  least : -1074 ≤ e
  greatest : e ≤ 971
  full : 2 ^ 52 ≤ m ∨ e = -1074

private theorem bias_eq : (Format.binary64.exponentBias : Int) = 1023 := rfl

private theorem toNat_one_append (b : BitVec 52) : (1#1 ++ b).toNat = 2 ^ 52 + b.toNat := by
  rw [BitVec.toNat_append, ← Nat.shiftLeft_add_eq_or_of_lt b.isLt]
  rfl

private theorem isKept_of_unpack {v : Float.Model} {s : Sign} {m : Nat} {e : Int} {hm : 0 < m}
    (h : v.unpack = .finite s m e hm) : IsKept m e := by
  have hmantissa : (@unpackMantissa .binary64 v.toBits.toBitVec).toNat < 2 ^ 52 :=
    (@unpackMantissa .binary64 v.toBits.toBitVec).isLt
  have hexponent : (@unpackExponent .binary64 v.toBits.toBitVec).toNat < 2 ^ 11 :=
    (@unpackExponent .binary64 v.toBits.toBitVec).isLt
  unfold Float.Model.unpack UnpackedFloat.unpack at h
  dsimp only at h
  split at h
  · split at h <;> cases h
  rename_i htop
  have htop : (@unpackExponent .binary64 v.toBits.toBitVec).toNat ≠ 2047 :=
    fun heq => htop (BitVec.eq_of_toNat_eq heq)
  split at h
  · rename_i hzero
    split at h
    · cases h
    · cases h
      rw [hzero]
      exact ⟨hm, by omega, by simp [bias_eq], by simp [bias_eq], .inr (by simp [bias_eq])⟩
  · rename_i hzero
    have hzero : (@unpackExponent .binary64 v.toBits.toBitVec).toNat ≠ 0 :=
      fun heq => hzero (BitVec.eq_of_toNat_eq heq)
    have hone := toNat_one_append (@unpackMantissa .binary64 v.toBits.toBitVec)
    cases h
    refine ⟨hm, ?_, ?_, ?_, .inl ?_⟩
    · omega
    · rw [bias_eq]; omega
    · rw [bias_eq]; omega
    · omega

private theorem unpack_full {s : Sign} {m : Nat} {e : Int} (hm : 0 < m) (hfull : 2 ^ 52 ≤ m)
    (hbits : m < 2 ^ 53) (hleast : -1074 ≤ e) (hgreatest : e ≤ 971) :
    UnpackedFloat.unpack .binary64 (packComponents .binary64 s (BitVec.ofNat 11 (e + 1075).toNat)
      (BitVec.ofNat 52 m)) = .finite s m e hm := by
  have hexponent : (BitVec.ofNat 11 (e + 1075).toNat).toNat = (e + 1075).toNat := by
    rw [BitVec.toNat_ofNat]
    omega
  have htop : BitVec.ofNat 11 (e + 1075).toNat ≠ -1#11 := by
    intro heq
    have heq := congrArg BitVec.toNat heq
    rw [hexponent] at heq
    change _ = 2047 at heq
    omega
  have hzero : BitVec.ofNat 11 (e + 1075).toNat ≠ 0#11 := by
    intro heq
    have heq := congrArg BitVec.toNat heq
    rw [hexponent] at heq
    change _ = 0 at heq
    omega
  have hmantissa : (1#1 ++ BitVec.ofNat 52 m).toNat = m := by
    rw [toNat_one_append, BitVec.toNat_ofNat]
    omega
  unfold UnpackedFloat.unpack
  simp only [unpackExponent_packComponents, unpackMantissa_packComponents,
    unpackSign_packComponents, Sign.ofBitVec_toBitVec]
  rw [if_neg htop, if_neg hzero]
  simp only [hmantissa, hexponent, bias_eq, finite.injEq, true_and]
  change ((e + 1075).toNat : Int) - (1023 + 52) = e
  omega

private theorem unpack_partial {s : Sign} {m : Nat} (hm : 0 < m) (hpartial : m < 2 ^ 52) :
    UnpackedFloat.unpack .binary64 (packComponents .binary64 s (BitVec.ofNat 11 0)
      (BitVec.ofNat 52 m)) = .finite s m (-1074) hm := by
  have hmantissa : (BitVec.ofNat 52 m).toNat = m := by
    rw [BitVec.toNat_ofNat]
    omega
  have hzero : BitVec.ofNat 52 m ≠ 0#52 := by
    intro heq
    have heq := congrArg BitVec.toNat heq
    rw [hmantissa] at heq
    change _ = 0 at heq
    omega
  unfold UnpackedFloat.unpack
  simp only [unpackExponent_packComponents, unpackMantissa_packComponents,
    unpackSign_packComponents, Sign.ofBitVec_toBitVec]
  rw [if_neg (by decide), if_pos trivial, dif_neg hzero]
  simp only [hmantissa, bias_eq, finite.injEq, true_and]
  rfl

private theorem unpack_pack {s : Sign} {m : Nat} {e : Int} (h : IsKept m e) :
    (Float.Model.pack (.finite s m e h.positive)).unpack = .finite s m e h.positive := by
  have hbits := h.bits
  have hleast := h.least
  have hgreatest := h.greatest
  have hbiased : (e + Format.binary64.exponentBias +
      Format.binary64.mantissaBitsWithoutImplicit).toNat = (e + 1075).toNat := by
    rw [bias_eq]
    change (e + 1023 + 52).toNat = _
    omega
  have hlog : m.log2 + 1 = Format.binary64.mantissaBits ↔ 2 ^ 52 ≤ m := by
    have hlower := Nat.le_log2 (Nat.ne_of_gt h.positive) (k := 52)
    have hupper := (Nat.log2_lt (Nat.ne_of_gt h.positive) (k := 53)).2 hbits
    change m.log2 + 1 = 53 ↔ _
    omega
  change UnpackedFloat.unpack _ (UnpackedFloat.pack _ _) = _
  unfold UnpackedFloat.pack
  simp only [hbiased, hlog]
  rw [if_neg (by omega)]
  by_cases hfull : 2 ^ 52 ≤ m
  · rw [if_pos hfull]
    exact unpack_full h.positive hfull hbits hleast hgreatest
  · obtain rfl : e = -1074 := h.full.resolve_left hfull
    rw [if_neg hfull]
    exact unpack_partial h.positive (by omega)

/-- The sign is minus, also that of a zero. -/
def hasMinus : UnpackedFloat → Bool
  | .infinity .negative | .zero .negative | .finite .negative _ _ _ => true
  | _ => false

/-- Minus infinity or a negative number. -/
def isNegative : UnpackedFloat → Bool
  | .infinity .negative | .finite .negative _ _ _ => true
  | _ => false

private theorem hasMinus_unpack {e : BitVec 11} {m : BitVec 52} :
    hasMinus (UnpackedFloat.unpack .binary64 (packComponents .binary64 .positive e m)) = false := by
  unfold UnpackedFloat.unpack
  simp only [unpackSign_packComponents, Sign.ofBitVec_toBitVec]
  split
  · split <;> rfl
  · split
    · split <;> rfl
    · rfl

private theorem hasMinus_pack {u : UnpackedFloat} (h : hasMinus u = false) :
    hasMinus (Float.Model.pack u).unpack = false := by
  change hasMinus (UnpackedFloat.unpack _ (UnpackedFloat.pack _ u)) = false
  rcases u with ⟨_ | _⟩ | _ | ⟨_ | _⟩ | ⟨_ | _, m, e, hm⟩
  case infinity.positive | notANumber | zero.positive => rfl
  case finite.positive =>
    unfold UnpackedFloat.pack
    dsimp only
    split
    · exact hasMinus_unpack
    · split <;> exact hasMinus_unpack
  all_goals cases h

private theorem isNegative_of_hasMinus {u : UnpackedFloat} (h : hasMinus u = false) :
    isNegative u = false := by
  rcases u with ⟨_ | _⟩ | _ | ⟨_ | _⟩ | ⟨_ | _, m, e, hm⟩ <;> first | rfl | cases h

private theorem isNegative_pack {u : UnpackedFloat} (h : isNegative u = false) :
    isNegative (Float.Model.pack u).unpack = false := by
  cases hminus : hasMinus u with
  | false => exact isNegative_of_hasMinus (hasMinus_pack hminus)
  | true =>
    rcases u with ⟨_ | _⟩ | _ | ⟨_ | _⟩ | ⟨_ | _, m, e, hm⟩
    any_goals cases h
    any_goals cases hminus
    rfl

private theorem hasMinus_round {format : Format} {m : Nat} {e : Int} {a : Accuracy} :
    hasMinus (roundWithAccuracy format .positive m e a) = false := by
  unfold roundWithAccuracy
  dsimp only
  split <;> rfl

private theorem isNegative_mul {format : Format} {u v : UnpackedFloat} (hu : isNegative u = false)
    (hv : isNegative v = false) : isNegative (UnpackedFloat.mul format u v) = false := by
  rcases u with ⟨_ | _⟩ | _ | ⟨_ | _⟩ | ⟨_ | _, m, e, hm⟩ <;>
    rcases v with ⟨_ | _⟩ | _ | ⟨_ | _⟩ | ⟨_ | _, m', e', hm'⟩
  any_goals cases hu
  any_goals cases hv
  any_goals rfl
  exact isNegative_of_hasMinus hasMinus_round

private theorem isNegative_div {format : Format} {u v : UnpackedFloat} (hu : isNegative u = false)
    (hv : hasMinus v = false) : isNegative (UnpackedFloat.div format u v) = false := by
  rcases u with ⟨_ | _⟩ | _ | ⟨_ | _⟩ | ⟨_ | _, m, e, hm⟩ <;>
    rcases v with ⟨_ | _⟩ | _ | ⟨_ | _⟩ | ⟨_ | _, m', e', hm'⟩
  any_goals cases hu
  any_goals cases hv
  any_goals rfl
  exact isNegative_of_hasMinus hasMinus_round

private theorem isNegative_sqrt {format : Format} {u : UnpackedFloat} :
    isNegative (UnpackedFloat.sqrt format u) = false := by
  rcases u with ⟨_ | _⟩ | _ | ⟨_ | _⟩ | ⟨_ | _, m, e, hm⟩
  any_goals rfl
  exact isNegative_of_hasMinus hasMinus_round

private theorem hasMinus_add {format : Format} {u : UnpackedFloat} {m : Nat} {e : Int} {hm : 0 < m}
    (hu : isNegative u = false) :
    hasMinus (UnpackedFloat.add format u (.finite .positive m e hm)) = false := by
  rcases u with ⟨_ | _⟩ | _ | ⟨_ | _⟩ | ⟨_ | _, m', e', hm'⟩
  any_goals cases hu
  any_goals rfl
  simp only [UnpackedFloat.add, Sign.apply, decreaseExponent, UnpackedFloat.normalize]
  generalize m' <<< _ = a
  generalize m <<< _ = b
  split
  · rename_i hlt
    have hlt := compare_lt_iff_lt.1 hlt
    omega
  · rfl
  · exact hasMinus_round

private theorem unpack_zero : (0.0 : Float).toModel.unpack = .zero .positive := rfl

private theorem lt_zero_iff {a : Float} : a < 0.0 ↔ isNegative a.toModel.unpack = true := by
  refine decide_eq_true_iff.trans ?_
  change ((a.toModel.unpack.compare (0.0 : Float).toModel.unpack) == some .lt) = true ↔ _
  rw [unpack_zero]
  rcases a.toModel.unpack with ⟨_ | _⟩ | _ | ⟨_ | _⟩ | ⟨_ | _, m, e, hm⟩ <;> exact Iff.rfl

private theorem shift_exact (m k : Nat) :
    ExtendedMantissa.mk (2 ^ k * m) false false >>> k = ⟨m, false, false⟩ := by
  induction k generalizing m with
  | zero =>
    rw [Nat.pow_zero, Nat.one_mul]
    rfl
  | succ k ih =>
    change ExtendedMantissa.shiftRightOne
      (ExtendedMantissa.mk (2 ^ (k + 1) * m) false false >>> k) = _
    rw [Nat.pow_succ, Nat.mul_assoc, ih]
    simp [ExtendedMantissa.shiftRightOne]

/-- Half a mantissa, rounded to the nearest and to the even one of two. -/
def halfMantissa (m : Nat) : Nat := m / 2 + m % 2 * (m / 2 % 2)

private theorem roundedMantissa_half (m : Nat) :
    (ExtendedMantissa.mk (2 ^ 52 * m) false false >>> 53).roundedMantissa = halfMantissa m := by
  change ExtendedMantissa.roundedMantissa (ExtendedMantissa.shiftRightOne
    (ExtendedMantissa.mk (2 ^ 52 * m) false false >>> 52)) = _
  rw [shift_exact]
  obtain h | h := Nat.mod_two_eq_zero_or_one m <;>
    simp [ExtendedMantissa.shiftRightOne, ExtendedMantissa.roundedMantissa, halfMantissa,
      ExtendedMantissa.accuracy, Accuracy.roundToNearestEven, h]

private theorem shiftToTargetExponent_of_le {m k : Nat} {e e' : Int}
    (htarget : Format.binary64.targetExponent (totalExponent m e) = e') (hk : e + k = e') :
    shiftToTargetExponent .binary64 m e .exact = (ExtendedMantissa.mk m false false >>> k, e') := by
  have hshift : (e' - e).toNat = k := by omega
  unfold shiftToTargetExponent shiftToExponent
  rw [htarget]
  simp only [hshift, hk]
  rfl

private theorem targetExponent_eq (e : Int) :
    Format.binary64.targetExponent e = max (e - 53) (-1074) := rfl

private theorem round_eq {m r : Nat} {e e' : Int} {x : ExtendedMantissa}
    (hfirst : shiftToTargetExponent .binary64 m e .exact = (x, e')) (hr : x.roundedMantissa = r)
    (hsecond : Format.binary64.targetExponent (totalExponent r e') = e') :
    roundWithAccuracy .binary64 .positive m e .exact =
      if h : r = 0 then .zero .positive else .finite .positive r e' (Nat.pos_of_ne_zero h) := by
  have hsecond : shiftToTargetExponent .binary64 r e' .exact = (⟨r, false, false⟩, e') :=
    shiftToTargetExponent_of_le hsecond (k := 0) (by omega)
  subst hr
  unfold roundWithAccuracy
  simp only [hfirst, hsecond]

private theorem half_full {m : Nat} {e : Int} (hm : 0 < m) (hfull : 2 ^ 52 ≤ m) (hbits : m < 2 ^ 53)
    (hleast : -1074 < e) :
    roundWithAccuracy .binary64 .positive (2 ^ 52 * m) (-53 + e) .exact =
      .finite .positive m (e - 1) hm := by
  have hlog : m.log2 = 52 := (Nat.log2_eq_iff (Nat.ne_of_gt hm)).2 ⟨hfull, hbits⟩
  have hproduct : (2 ^ 52 * m).log2 = 104 := (Nat.log2_eq_iff (by omega)).2 (by omega)
  have hfirst : shiftToTargetExponent .binary64 (2 ^ 52 * m) (-53 + e) .exact =
      (ExtendedMantissa.mk (2 ^ 52 * m) false false >>> 52, e - 1) := by
    refine shiftToTargetExponent_of_le ?_ (by omega)
    rw [targetExponent_eq, totalExponent, hproduct]
    omega
  rw [shift_exact] at hfirst
  have hsecond : Format.binary64.targetExponent (totalExponent m (e - 1)) = e - 1 := by
    rw [targetExponent_eq, totalExponent, hlog]
    omega
  rw [round_eq hfirst rfl hsecond]
  exact dif_neg (Nat.ne_of_gt hm)

theorem halfMantissa_le {m : Nat} : halfMantissa m ≤ m := by
  unfold halfMantissa
  obtain h | h := Nat.mod_two_eq_zero_or_one m <;> rw [h] <;> omega

private theorem half_least {m : Nat} (hm : 0 < m) (hbits : m < 2 ^ 53) :
    roundWithAccuracy .binary64 .positive (2 ^ 52 * m) (-53 + -1074) .exact =
      if h : halfMantissa m = 0 then .zero .positive
      else .finite .positive (halfMantissa m) (-1074) (Nat.pos_of_ne_zero h) := by
  have hproduct : (2 ^ 52 * m).log2 < 105 := (Nat.log2_lt (by omega)).2 (by omega)
  have hfirst : shiftToTargetExponent .binary64 (2 ^ 52 * m) (-53 + -1074) .exact =
      (ExtendedMantissa.mk (2 ^ 52 * m) false false >>> 53, -1074) := by
    refine shiftToTargetExponent_of_le ?_ (by omega)
    rw [targetExponent_eq, totalExponent]
    omega
  have hlog : (halfMantissa m).log2 < 53 := by
    by_cases hzero : halfMantissa m = 0
    · rw [hzero]
      decide
    · exact (Nat.log2_lt hzero).2 (Nat.lt_of_le_of_lt halfMantissa_le hbits)
  have hsecond :
      Format.binary64.targetExponent (totalExponent (halfMantissa m) (-1074)) = -1074 := by
    rw [targetExponent_eq, totalExponent]
    omega
  exact round_eq hfirst (roundedMantissa_half m) hsecond

/-- Half of a value that is not negative has its place at or before that of the value. -/
private theorem half_place {u : UnpackedFloat} (hu : isNegative u = false) (hn : rank? u ≠ none)
    (hkept : ∀ s m e hm, u = .finite s m e hm → IsKept m e) :
    ∃ x y, rank? (Float.Model.pack (UnpackedFloat.mul .binary64
      (.finite .positive (2 ^ 52) (-53) (by decide)) u)).unpack = some x ∧
      rank? u = some y ∧ x ≤ y := by
  rcases u with ⟨_ | _⟩ | _ | ⟨_ | _⟩ | ⟨_ | _, m, e, hm⟩
  case infinity.positive => exact ⟨_, _, rfl, rfl, le_refl _⟩
  case zero.negative | zero.positive => exact ⟨_, _, rfl, rfl, le_refl _⟩
  case finite.positive =>
    have hkept := hkept _ _ _ _ rfl
    change ∃ x y, rank? (Float.Model.pack (roundWithAccuracy .binary64 .positive (2 ^ 52 * m)
      (-53 + e) .exact)).unpack = some x ∧ _
    by_cases hleast : e = -1074
    · subst hleast
      rw [half_least hm hkept.bits]
      split
      · refine ⟨_, _, rfl, rfl, ?_⟩
        simp [Prod.Lex.toLex_le_toLex]
      · rename_i hzero
        have hhalf : IsKept (halfMantissa m) (-1074) :=
          ⟨Nat.pos_of_ne_zero hzero, Nat.lt_of_le_of_lt halfMantissa_le hkept.bits, by decide,
            by decide, .inr rfl⟩
        rw [unpack_pack hhalf]
        refine ⟨_, _, rfl, rfl, ?_⟩
        have hle := halfMantissa_le (m := m)
        simp [Prod.Lex.toLex_le_toLex, hle]
    · have hfull := hkept.full.resolve_right hleast
      have habove : -1074 < e := by
        have := hkept.least
        omega
      have hgreatest := hkept.greatest
      rw [half_full hm hfull hkept.bits habove]
      rw [unpack_pack ⟨hm, hkept.bits, by omega, by omega, .inl hfull⟩]
      refine ⟨_, _, rfl, rfl, Prod.Lex.toLex_le_toLex.2 (.inr ⟨rfl, ?_⟩)⟩
      exact Prod.Lex.toLex_le_toLex.2 (.inl (Int.sub_one_lt_of_le (Int.le_refl e)))
  all_goals first | exact absurd rfl hn | cases hu

private theorem unpack_half : (0.5 : Float).toModel.unpack =
    .finite .positive (2 ^ 52) (-53) (by decide) := rfl

private theorem unpack_one : (1.0 : Float).toModel.unpack =
    .finite .positive (2 ^ 52) (-52) (by decide) := rfl

private theorem rank?_ne_none {a b : Float} (h : a ≤ b) :
    rank? a.toModel.unpack ≠ none ∧ rank? b.toModel.unpack ≠ none := by
  obtain ⟨x, y, hx, hy, -⟩ := le_iff.1 h
  rw [place?] at hx hy
  simp [hx, hy]

private theorem not_negative {a : Float} : ¬ a < 0.0 ↔ isNegative a.toModel.unpack = false := by
  rw [lt_zero_iff, Bool.not_eq_true]

private theorem mul_not_neg {a b : Float} (ha : ¬ a < 0.0) (hb : ¬ b < 0.0) : ¬ a * b < 0.0 :=
  not_negative.2 (isNegative_pack (isNegative_mul (not_negative.1 ha) (not_negative.1 hb)))

private theorem div_succ_not_neg {a b : Float} (ha : ¬ a < 0.0) (hb : ¬ b < 0.0) :
    ¬ a / (b + 1.0) < 0.0 := by
  have hsum : hasMinus (b + 1.0).toModel.unpack = false := by
    refine hasMinus_pack ?_
    rw [unpack_one]
    exact hasMinus_add (not_negative.1 hb)
  exact not_negative.2 (isNegative_pack (isNegative_div (not_negative.1 ha) hsum))

private theorem half_le {a : Float} (h : 0.0 ≤ a) : 0.5 * a ≤ a := by
  have hsign : ¬ a < 0.0 := fun hneg =>
    ComparableScalar.lt_irrefl _ (ComparableScalar.lt_of_le_of_lt h hneg)
  obtain ⟨x, y, hx, hy, hle⟩ := half_place (not_negative.1 hsign) (rank?_ne_none h).2
    fun s m e hm hu => isKept_of_unpack hu
  refine le_iff.2 ⟨x, y, ?_, hy, hle⟩
  rw [← unpack_half] at hx
  exact hx

private theorem number_of_half {a : Float} (h : (0.5 : Float) * a ≤ 0.5 * a) : a ≤ a := by
  cases hu : rank? a.toModel.unpack with
  | some x => exact le_iff.2 ⟨x, x, hu, hu, le_refl x⟩
  | none =>
    have hnone : a.toModel.unpack = .notANumber := by
      generalize a.toModel.unpack = u at hu
      rcases u with ⟨_ | _⟩ | _ | ⟨_ | _⟩ | ⟨_ | _, m, e, hm⟩ <;> first | rfl | cases hu
    have hproduct := (rank?_ne_none h).1
    change rank? (Float.Model.pack (UnpackedFloat.mul .binary64 _ a.toModel.unpack)).unpack ≠ none
      at hproduct
    rw [hnone, unpack_half] at hproduct
    exact absurd rfl hproduct

end FloatOrder

instance : SignedScalar Float where
  zero_le_zero := by decide +kernel
  sqrt_not_neg _ :=
    FloatOrder.not_negative.2 (FloatOrder.isNegative_pack FloatOrder.isNegative_sqrt)
  mul_not_neg := FloatOrder.mul_not_neg
  div_succ_not_neg := FloatOrder.div_succ_not_neg
  half_not_neg := by decide +kernel
  three_quarters_not_neg := by decide +kernel
  half_le := FloatOrder.half_le
  number_of_half := FloatOrder.number_of_half

end InfeasibilityControl
