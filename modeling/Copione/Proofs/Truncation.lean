import Copione.Proofs.ReadNumerals
/-!
# Truncation

The integer part of a float is a float. As such it is compared with the limits of 64-bit integers, both of
which are made floats first: the lower one stays what it is, and the upper one is rounded up to the power of
two above it. So a float is converted to exactly its integer part, or not at all.
-/
namespace Copione

namespace Binary

variable {negative : Bool} {mantissa scale num : Nat} {x : Float} {bits : UInt64}

/-- The number that bits stand for: a sign, eleven bits of an exponent and 52 bits of a fraction. -/
def value? (bits : UInt64) : Option ℚ :=
  let sign : ℚ := if bits.toNat / 2 ^ 63 = 0 then 1 else -1
  let exponent : Nat := bits.toNat / 2 ^ 52 % 2 ^ 11
  let fraction : Nat := bits.toNat % 2 ^ 52
  if exponent = 2047 then none
  else if exponent = 0 then some (sign * (fraction / 2 ^ 52 * 2 ^ (-1022 : ℤ)))
  else some (sign * ((1 + fraction / 2 ^ 52) * 2 ^ ((exponent : ℤ) - 1023)))

def integerPart (q : ℚ) : ℤ := if 0 ≤ q then ⌊q⌋ else ⌈q⌉

private theorem unit_eq : unit = 2 ^ 1074 := by decide +kernel

private theorem cast_signed (negative : Bool) (n : Nat) :
    (signed negative n : ℚ) = (if negative then -1 else 1) * n := by
  cases negative <;> simp [signed]

private theorem binade_eq (m : ℚ) (scale : Nat) :
    m / 2 ^ 52 * 2 ^ ((scale : ℤ) - 1022) = m * 2 ^ scale / unit := by
  have hpower : (2 : ℚ) ^ ((scale : ℤ) - 1022) = 2 ^ scale / 2 ^ 1022 := by
    rw [zpow_sub₀ two_ne_zero, zpow_natCast]
    rfl
  have hunit : (unit : ℚ) = 2 ^ 52 * 2 ^ 1022 := by
    rw [unit_eq, Nat.cast_pow, Nat.cast_ofNat, ← pow_add]
  rw [hpower, hunit, div_mul_div_comm]

private theorem value?_eq (bits : UInt64) :
    value? bits = match ofBits bits with
      | .finite negative mantissa scale => some (units negative mantissa scale / unit)
      | _ => none := by
  have hlt := bits.toNat_lt
  have hsign : (if bits.toNat / 2 ^ 63 = 0 then (1 : ℚ) else -1) =
      if decide (signBit ≤ bits.toNat) then -1 else 1 := by
    have htop : bits.toNat / 2 ^ 63 = 0 ↔ ¬signBit ≤ bits.toNat := by
      rw [signBit]
      omega
    simp only [htop, decide_eq_true_eq, ite_not]
  have hvalue (negative : Bool) (m scale : Nat) : (units negative m scale : ℚ) / unit =
      (if negative then -1 else 1) * (m / 2 ^ 52 * 2 ^ ((scale : ℤ) - 1022)) := by
    rw [units, cast_signed, binade_eq, Nat.cast_mul, Nat.cast_pow, Nat.cast_ofNat, mul_div_assoc]
  have hfinite : 2 ^ 11 = 2048 := rfl
  unfold value? ofBits
  simp only [hsign, hfinite, fractions_eq, beq_iff_eq]
  by_cases hlast : bits.toNat / 2 ^ 52 % 2048 = 2047
  · by_cases hzero : bits.toNat % 2 ^ 52 = 0 <;> simp only [hlast, hzero, if_true, if_false]
  by_cases hfirst : bits.toNat / 2 ^ 52 % 2048 = 0
  · simp only [hfirst, if_true, if_neg (by decide : ¬0 = 2047), hvalue, Nat.cast_zero, zero_sub]
  · have hexponent : ((bits.toNat / 2 ^ 52 % 2048 - 1 : Nat) : ℤ) - 1022 =
        ((bits.toNat / 2 ^ 52 % 2048 : Nat) : ℤ) - 1023 := by omega
    have hone : (1 : ℚ) = (2 ^ 52 : Nat) / 2 ^ 52 := by norm_num
    simp only [if_neg hlast, if_neg hfirst, hvalue, hexponent]
    rw [hone, ← add_div, ← Nat.cast_add]

private theorem integerPart_neg (q : ℚ) : integerPart (-q) = -integerPart q := by
  unfold integerPart
  rcases lt_trichotomy q 0 with hneg | rfl | hpos
  · rw [if_pos (by linarith), if_neg (by linarith), Int.floor_neg]
  · simp
  · rw [if_neg (by linarith), if_pos hpos.le, Int.ceil_neg]

private theorem integerPart_units (negative : Bool) (mantissa scale : Nat) :
    integerPart (units negative mantissa scale / unit) = signed negative (whole mantissa scale) := by
  have hmagnitude : integerPart (((mantissa * 2 ^ scale : Nat) : ℚ) / unit) = whole mantissa scale := by
    rw [integerPart, if_pos (by positivity), Rat.floor_natCast_div_natCast, whole, Nat.shiftLeft_eq]
    rfl
  cases negative with
  | false => exact hmagnitude
  | true =>
    rw [units, signed, if_pos rfl, Int.cast_neg, Int.cast_natCast, neg_div, integerPart_neg, hmagnitude]
    rfl

private theorem exists_canonical {a e : Nat} (ha : a < 2 * fractions) (he : e ≤ 2045) :
    ∃ mantissa scale, Canonical mantissa scale ∧ mantissa * 2 ^ scale = a * 2 ^ e := by
  -- a mantissa that is no normal one is doubled, and the scale goes down to zero
  induction e generalizing a with
  | zero => exact ⟨a, 0, ⟨ha, .inl rfl, he⟩, rfl⟩
  | succ e ih =>
    by_cases hnormal : fractions ≤ a
    · exact ⟨a, e + 1, ⟨ha, .inr hnormal, he⟩, rfl⟩
    · obtain ⟨mantissa, scale, hc, hvalue⟩ := @ih (2 * a) (by omega) (by omega)
      refine ⟨mantissa, scale, hc, ?_⟩
      rw [hvalue, Nat.pow_succ]
      ac_rfl

/-- A ratio that is a float is not rounded. -/
theorem nearestBits_exact {den : Nat} (hc : Canonical mantissa scale) (hden : 0 < den)
    (h : num * unit = den * (mantissa * 2 ^ scale)) :
    nearestBits num den = scale * fractions + mantissa := by
  refine nearestBits_eq hc hden ?_
  have hvalue : num * (4 * unit) = 4 * mantissa * (2 ^ scale * den) := by
    rw [Nat.mul_left_comm, h]
    ac_rfl
  have hpos : 0 < 2 ^ scale * den := Nat.mul_pos (Nat.two_pow_pos scale) hden
  rw [Decimal.interval_eq, Decimal.Interval.Holds]
  simp only [beq_iff_eq, hvalue, Nat.mul_assoc _ (2 ^ scale) den]
  split
  · exact ⟨Nat.mul_le_mul_right _ (Nat.sub_le _ _), Nat.mul_le_mul_right _ (Nat.le_add_right _ _)⟩
  · have hbelow := below_pos mantissa scale
    exact ⟨Nat.mul_lt_mul_of_pos_right (by omega) hpos, Nat.mul_lt_mul_of_pos_right (by omega) hpos⟩

private theorem ofFloat_ofNat {a e : Nat} (negative : Bool) (ha : a < 2 * fractions) (he : e ≤ 2045)
    (h : num * unit = a * 2 ^ e) :
    ∃ mantissa scale, ofFloat (ofRatio negative num 1) = .finite negative mantissa scale ∧
      mantissa * 2 ^ scale = num * unit := by
  obtain ⟨mantissa, scale, hc, hvalue⟩ := exists_canonical ha he
  rw [← h] at hvalue
  exact ⟨mantissa, scale, ofFloat_ofRatio negative hc (nearestBits_exact hc Nat.one_pos (by omega)), hvalue⟩

private theorem ofFloat_trunc (h : ofFloat x = .finite negative mantissa scale) :
    ∃ mantissa' scale', ofFloat (trunc x) = .finite negative mantissa' scale' ∧
      mantissa' * 2 ^ scale' = whole mantissa scale * unit := by
  obtain ⟨hc, -⟩ := ofBits_finite h
  simp only [trunc, h]
  rcases Nat.le_total 1074 scale with hlarge | hsmall
  · -- a float this large is whole
    refine ofFloat_ofNat negative hc.lt hc.scale_le ?_
    have hdvd : unit ∣ 2 ^ scale := by
      rw [← Nat.one_shiftLeft, ← Nat.add_sub_cancel' hlarge, Nat.shiftLeft_add, Nat.shiftLeft_eq]
      exact Nat.dvd_mul_right unit _
    rw [whole, Nat.shiftLeft_eq, Nat.div_mul_cancel (Nat.dvd_mul_left_of_dvd hdvd mantissa)]
  · refine @ofFloat_ofNat _ (mantissa / 2 ^ (1074 - scale)) 1074 negative
      (Nat.lt_of_le_of_lt (Nat.div_le_self _ _) hc.lt) (by decide) ?_
    have hsplit : unit = 2 ^ (1074 - scale) * 2 ^ scale := by
      rw [unit_eq, ← Nat.pow_add, Nat.sub_add_cancel hsmall]
    have hwhole : whole mantissa scale = mantissa / 2 ^ (1074 - scale) := by
      rw [whole, Nat.shiftLeft_eq, hsplit, Nat.mul_div_mul_right _ _ (Nat.two_pow_pos scale)]
    rw [hwhole, unit_eq]

private theorem whole_eq {w : Nat} (h : mantissa * 2 ^ scale = w * unit) :
    whole mantissa scale = w := by
  rw [whole, Nat.shiftLeft_eq, h, Nat.mul_div_cancel _ unit_pos]

private theorem ofFloat_ofInt {n : Int} (h : |n| ≤ 2 ^ 53) :
    ∃ mantissa scale, ofFloat (ofInt n) = .finite (n < 0) mantissa scale ∧
      mantissa * 2 ^ scale = n.natAbs * unit := by
  have hle : n.natAbs ≤ 2 * fractions := by
    rw [Int.abs_eq_natAbs] at h
    rw [fractions]
    omega
  rcases Nat.lt_or_eq_of_le hle with hlt | hlast
  · exact @ofFloat_ofNat _ _ 1074 _ hlt (by decide) (by rw [unit_eq])
  · refine @ofFloat_ofNat _ 1 1127 _ (by decide) (by decide) ?_
    rw [hlast]
    decide +kernel

private theorem ofFloat_minValue : ofFloat
    (ofInt Int64.minValue.toInt) = .finite true fractions 1085 := by
  decide +kernel

private theorem ofFloat_maxValue : ofFloat
    (ofInt Int64.maxValue.toInt) = .finite false fractions 1085 := by
  decide +kernel

private theorem units_of_whole {w : Nat} (negative : Bool) (h : mantissa * 2 ^ scale = w * unit) :
    units negative mantissa scale = signed negative w * unit := by
  cases negative <;> simp [units, signed, h]

private theorem limit_eq : fractions * 2 ^ 1085 = 2 ^ 63 * unit := by decide +kernel

private theorem limits_iff {w : Nat} (h : ofFloat x = .finite negative mantissa scale)
    (hwhole : mantissa * 2 ^ scale = w * unit) :
    (ofInt Int64.minValue.toInt ≤ x ↔ -2 ^ 63 ≤ signed negative w) ∧
      (x < ofInt Int64.maxValue.toInt ↔ signed negative w < 2 ^ 63) := by
  have hpos : (0 : Int) < unit := Int.natCast_pos.mpr unit_pos
  rw [le_iff ofFloat_minValue h, lt_iff h ofFloat_maxValue, units_of_whole negative hwhole,
    units_of_whole true limit_eq, units_of_whole false limit_eq]
  exact ⟨mul_le_mul_iff_of_pos_right hpos, mul_lt_mul_iff_of_pos_right hpos⟩

/-- In range, the conversion to integers leaves out nothing but the fraction. -/
theorem toInt64_finite {z : Int} (h : signed negative (whole mantissa scale) = z) (hlow : -2 ^ 63 ≤ z)
    (hhigh : z < 2 ^ 63) : (Binary.finite negative mantissa scale).toInt64 = Int64.ofInt z := by
  have hclamp : (Binary.finite negative mantissa scale).toInt64 = Int64.ofIntClamp z := by rw [← h]; rfl
  rw [hclamp, ← Int64.toInt_inj, Int64.toInt_ofInt_of_le hlow hhigh]
  exact Int64.toInt_ofIntClamp hlow (Int.le_sub_one_of_lt hhigh)

end Binary

namespace Value

open Binary

variable {negative : Bool} {mantissa scale : Nat} {x : Float} {n : Int64}

private theorem truncate?_finite (h : ofFloat x = .finite negative mantissa scale) :
    truncate? x = Numeral.inInt64? (signed negative (whole mantissa scale)) := by
  obtain ⟨mantissa', scale', hparts, hvalue⟩ := ofFloat_trunc h
  obtain ⟨hlow, hhigh⟩ := limits_iff hparts hvalue
  have hfinite : (trunc x).isFinite := by rw [isFinite_eq, hparts]; rfl
  have hinteger := @toInt64_finite negative mantissa' scale' _ (congrArg (signed negative) (whole_eq hvalue))
  rw [truncate?, Numeral.inInt64?]
  simp only [hfinite, hlow, hhigh, hparts, Numeral.inRange_iff, Bool.true_and, Bool.and_eq_true, decide_eq_true_eq]
  split
  · next hrange => rw [hinteger hrange.1 hrange.2]
  · rfl

private theorem truncate?_eq_none (h : (ofFloat x).IsFinite = false) : truncate? x = none := by
  have htrunc : trunc x = x := by
    unfold trunc
    cases hparts : ofFloat x with
    | nan | infinite => rfl
    | finite => simp [hparts, IsFinite] at h
  rw [truncate?, htrunc, isFinite_eq, h]
  rfl

/-- An integer comes from a float if it is the integer part of what the float stands for. -/
theorem truncate?_eq_some_iff (bits : UInt64) :
    truncate? (Float.ofBits bits) = some n ↔ ∃ q, value? bits = some q ∧ n.toInt = integerPart q := by
  have hparts := ofFloat_ofBits bits
  rw [value?_eq]
  cases hb : ofBits bits with
  | nan | infinite =>
    have hnone := @truncate?_eq_none (Float.ofBits bits) (by rw [hparts, hb]; rfl)
    simp only [hnone, reduceCtorEq, false_and, exists_false]
  | finite negative mantissa scale =>
    rw [truncate?_finite (hparts.trans hb), Numeral.inInt64?_eq_some_iff, ← integerPart_units]
    simp only [Option.some.injEq, exists_eq_left']

private theorem truncate?_ofInt (h : |n.toInt| ≤ 2 ^ 53) : truncate? (ofInt n.toInt) = some n := by
  obtain ⟨mantissa, scale, hparts, hvalue⟩ := ofFloat_ofInt h
  rw [truncate?_finite hparts, Numeral.inInt64?_eq_some_iff, whole_eq hvalue, signed]
  simp only [decide_eq_true_eq]
  split <;> omega

private theorem toInteger_of_some (h : truncate? x = some n) : toInteger (.float x) = .ok n := by
  simp only [toInteger, h]

private theorem toInteger_of_none (h : truncate? x = none) :
    toInteger (.float x) = .error (.cannotConvert (.float x) .int) := by
  simp only [toInteger, h]

private theorem toFloat_int (n : Int64) : toFloat (.int n) = .ok (ofInt n.toInt) := by
  rw [toFloat]

/-- A float is converted to its integer part if this is in range, and to nothing otherwise. So integers that
are floats are kept on the way to floats and back. -/
theorem toInteger_truncates (bits : UInt64) :
    (∀ q, value? bits = some q → -2 ^ 63 ≤ integerPart q → integerPart q < 2 ^ 63 →
      ∃ n, toInteger (.float (Float.ofBits bits)) = .ok n ∧ n.toInt = integerPart q) ∧
    ((∀ q, value? bits = some q → ¬(-2 ^ 63 ≤ integerPart q ∧ integerPart q < 2 ^ 63)) →
      ∃ fault, toInteger (.float (Float.ofBits bits)) = .error fault ∧ fault.kind = .mismatchedType) ∧
    ∀ n : Int64, |n.toInt| ≤ 2 ^ 53 → ∃ x, toFloat (.int n) = .ok x ∧ toInteger (.float x) = .ok n := by
  refine ⟨fun q hq hlow hhigh => ?_, fun hout => ?_, fun n hn => ?_⟩
  · have hvalue : (Int64.ofInt (integerPart q)).toInt = integerPart q := Int64.toInt_ofInt_of_le hlow hhigh
    exact ⟨_, toInteger_of_some ((truncate?_eq_some_iff bits).mpr ⟨q, hq, hvalue⟩), hvalue⟩
  · have hnone : truncate? (Float.ofBits bits) = none := by
      refine Option.eq_none_iff_forall_ne_some.mpr fun n hn => ?_
      obtain ⟨q, hq, hvalue⟩ := (truncate?_eq_some_iff bits).mp hn
      have hin := hout q hq
      rw [← hvalue] at hin
      exact hin ⟨n.le_toInt, n.toInt_lt⟩
    exact ⟨_, toInteger_of_none hnone, rfl⟩
  · exact ⟨ofInt n.toInt, toFloat_int n, toInteger_of_some (truncate?_ofInt hn)⟩

/-- The floats at both limits, and the last integer of those that are all floats. -/
theorem toInteger_truncates_at_limits :
    value? 0xC3E0000000000000 = some (-2 ^ 63) ∧ integerPart (-2 ^ 63) = -2 ^ 63 ∧
      (∃ n, toInteger (.float (Float.ofBits 0xC3E0000000000000)) = .ok n ∧ n.toInt = -2 ^ 63) ∧
      value? 0x43E0000000000000 = some (2 ^ 63) ∧ integerPart (2 ^ 63) = 2 ^ 63 ∧
      (∃ fault, toInteger (.float (Float.ofBits 0x43E0000000000000)) = .error fault ∧
        fault.kind = .mismatchedType) ∧
      |(2 ^ 53 : Int64).toInt| ≤ 2 ^ 53 ∧
      ∃ x, toFloat (.int (2 ^ 53)) = .ok x ∧ toInteger (.float x) = .ok (2 ^ 53) := by
  have hlow : value? 0xC3E0000000000000 = some (-2 ^ 63) := by decide +kernel
  have hlowPart : integerPart (-2 ^ 63) = -2 ^ 63 := by norm_num [integerPart]
  have hhigh : value? 0x43E0000000000000 = some (2 ^ 63) := by decide +kernel
  have hhighPart : integerPart (2 ^ 63) = 2 ^ 63 := by norm_num [integerPart]
  have hwhole : |(2 ^ 53 : Int64).toInt| ≤ 2 ^ 53 := by decide
  obtain ⟨hin, -, hback⟩ := toInteger_truncates 0xC3E0000000000000
  obtain ⟨-, hout, -⟩ := toInteger_truncates 0x43E0000000000000
  refine ⟨hlow, hlowPart, ?_, hhigh, hhighPart, hout fun q hq => ?_, hwhole, hback _ hwhole⟩
  · obtain ⟨n, hn, hvalue⟩ := hin _ hlow (by rw [hlowPart]) (by rw [hlowPart]; decide)
    exact ⟨n, hn, hvalue.trans hlowPart⟩
  · obtain rfl := Option.some.inj (hhigh.symm.trans hq)
    rw [hhighPart]
    decide

end Value
end Copione
