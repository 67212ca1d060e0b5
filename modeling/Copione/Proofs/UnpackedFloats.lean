import Mathlib
import Copione.Proofs.NearestFloats
/-!
# Unpacked floats

The parts of a float are those that the standard library unpacks it into. So the bits of a float are kept,
the library tells finite floats by their parts, and it compares them as the numbers that they are.
-/
namespace Copione.Binary

open Float.Model (UnpackedFloat)
open Float.Model.UnpackedFloat

variable {bits : UInt64} {x y : Float} {negative negative' : Bool} {mantissa scale mantissa' scale' : Nat}

def sign (negative : Bool) : Sign := if negative then .negative else .positive

/-- A float as the standard library unpacks it. It has a zero of its own, and its exponents are those of
the mantissas as whole numbers. -/
def unpacked : Binary → UnpackedFloat
  | .nan => .notANumber
  | .infinite negative => .infinity (sign negative)
  | .finite negative mantissa scale =>
    if h : 0 < mantissa then .finite (sign negative) mantissa (scale - 1074) h else .zero (sign negative)

private theorem toNat_unpackMantissa (bits : UInt64) :
    (@unpackMantissa .binary64 bits.toBitVec).toNat = bits.toNat % fractions := by
  rw [unpackMantissa_def, BitVec.extractLsb'_toNat]
  rfl

private theorem toNat_unpackExponent (bits : UInt64) :
    (@unpackExponent .binary64 bits.toBitVec).toNat = bits.toNat / fractions % 2048 := by
  rw [unpackExponent_def, BitVec.extractLsb'_toNat, Nat.shiftRight_eq_div_pow]
  rfl

private theorem ofBitVec_unpackSign (bits : UInt64) :
    Sign.ofBitVec (@unpackSign .binary64 bits.toBitVec) = sign (signBit ≤ bits.toNat) := by
  have hlt := bits.toNat_lt
  have hsign : signBit = 2 ^ 63 := rfl
  have htop : (@unpackSign .binary64 bits.toBitVec).toNat = bits.toNat / 2 ^ 63 % 2 := by
    rw [unpackSign_def, BitVec.extractLsb'_toNat, Nat.shiftRight_eq_div_pow]
    rfl
  have hzero : @unpackSign .binary64 bits.toBitVec = 0#1 ↔ ¬2 ^ 63 ≤ bits.toNat := by
    rw [← BitVec.toNat_inj, htop, BitVec.toNat_ofNat]
    omega
  simp only [Sign.ofBitVec, sign, hsign, hzero, decide_eq_true_eq, ite_not]

private theorem toNat_append_one (m : BitVec 52) : (1#1 ++ m).toNat = fractions + m.toNat := by
  rw [BitVec.toNat_append, ← Nat.shiftLeft_add_eq_or_of_lt m.isLt]
  rfl

private theorem unpack_eq (bits : UInt64) : unpack .binary64 bits.toBitVec =
    (ofBits bits).unpacked := by
  have hm := toNat_unpackMantissa bits
  have he := toNat_unpackExponent bits
  have hones : @unpackExponent .binary64 bits.toBitVec = -1#11 ↔ bits.toNat / fractions % 2048 = 2047 := by
    rw [← BitVec.toNat_inj, he]
    rfl
  have hnone : @unpackExponent .binary64 bits.toBitVec = 0#11 ↔ bits.toNat / fractions % 2048 = 0 := by
    rw [← BitVec.toNat_inj, he]
    rfl
  have hzero : @unpackMantissa .binary64 bits.toBitVec = 0#52 ↔ bits.toNat % fractions = 0 := by
    rw [← BitVec.toNat_inj, hm]
    rfl
  unfold unpack ofBits
  simp only [hones, hnone, hzero, ofBitVec_unpackSign, beq_iff_eq]
  split
  · split <;> rfl
  split
  · next hexponent =>
    split
    · next hfraction => simp only [unpacked, hfraction, Nat.lt_irrefl, dif_neg, not_false_eq_true]
    · next hfraction =>
      simp only [unpacked, Nat.pos_of_ne_zero hfraction, dif_pos, hm]
      congr 1
      rw [he, hexponent]
      rfl
  · have hbias : (Float.Model.Format.binary64.exponentBias : Int) = 1023 := rfl
    simp only [unpacked, toNat_append_one, hm]
    rw [dif_pos (by simp [fractions])]
    congr 1
    rw [he]
    omega

private theorem toModel_unpack (x : Float) : x.toModel.unpack =
    (ofFloat x).unpacked := unpack_eq x.toBits

theorem isFinite_eq (x : Float) : x.isFinite = (ofFloat x).IsFinite := by
  show x.toModel.unpack.isFinite = _
  rw [toModel_unpack]
  cases ofFloat x with
  | nan | infinite => rfl
  | finite negative mantissa scale =>
    unfold unpacked
    dsimp only
    split <;> rfl

theorem isNaN_iff (x : Float) : x.isNaN ↔ ofFloat x = .nan := by
  show x.toModel.unpack.isNaN ↔ _
  rw [toModel_unpack]
  cases ofFloat x with
  | nan | infinite => simp [unpacked, UnpackedFloat.isNaN]
  | finite negative mantissa scale =>
    unfold unpacked
    dsimp only
    split <;> simp [UnpackedFloat.isNaN]

/-- A float keeps its bits, unless it is not a number. -/
theorem toBits_ofBits (h : ofBits bits ≠ .nan) : (Float.ofBits bits).toBits = bits := by
  have hvalid : Float.Model.Format.binary64.Valid bits.toBitVec := by
    refine ⟨fun hones hsome => absurd ?_ h⟩
    have hunpack : unpack .binary64 bits.toBitVec = .notANumber := by
      unfold unpack
      rw [if_pos hones, if_neg hsome]
    rw [unpack_eq] at hunpack
    cases hb : ofBits bits with
    | nan => rfl
    | infinite => simp [hb, unpacked] at hunpack
    | finite =>
      rw [hb, unpacked] at hunpack
      split at hunpack <;> cases hunpack
  exact congrArg UInt64.ofBitVec (pack_unpack_of_valid hvalid)

theorem ofFloat_ofBits (bits : UInt64) : ofFloat (Float.ofBits bits) = ofBits bits := by
  by_cases hnan : ofBits bits = .nan
  · have hpacked : (Float.ofBits bits).toBits = UInt64.ofBitVec (pack .binary64 (unpack .binary64 bits.toBitVec)) :=
      rfl
    rw [ofFloat, hpacked, unpack_eq, hnan]
    rfl
  · rw [ofFloat, toBits_ofBits hnan]

private theorem ofBits_parts (negative : Bool) (hc : Canonical mantissa scale) :
    ofBits (UInt64.ofNat ((if negative then signBit else 0) + (scale * fractions + mantissa))) =
      .finite negative mantissa scale := by
  have hlt := hc.lt
  have hnormal := hc.normal
  have hscale := hc.scale_le
  have hfractions : fractions = 0x10000000000000 := rfl
  have hsign : signBit = 0x8000000000000000 := rfl
  generalize hn : (if negative then signBit else 0) + (scale * fractions + mantissa) = n
  have hfields : decide (signBit ≤ n) = negative ∧ n < UInt64.size ∧
      n / fractions % 2048 = (if mantissa < fractions then 0 else scale + 1) ∧
      n % fractions = (if mantissa < fractions then mantissa else mantissa - fractions) := by
    simp only [hfractions, hsign, UInt64.size] at *
    cases negative <;> split <;> simp at * <;> omega
  obtain ⟨hnegative, hsize, hexponent, hfraction⟩ := hfields
  unfold ofBits
  simp only [UInt64.toNat_ofNat_of_lt' hsize, hnegative, hexponent, hfraction, beq_iff_eq]
  by_cases hsmall : mantissa < fractions
  · have hzero : scale = 0 := by omega
    simp [hsmall, hzero]
  · have hwhole : fractions + (mantissa - fractions) = mantissa := by omega
    have hfinite : scale + 1 ≠ 2047 := by omega
    simp [hsmall, hwhole, hfinite]

theorem ofFloat_ofRatio {num den : Nat} (negative : Bool) (hc : Canonical mantissa scale)
    (h : nearestBits num den = scale * fractions + mantissa) :
    ofFloat (ofRatio negative num den) = .finite negative mantissa scale := by
  rw [ofRatio, h, ofFloat_ofBits, ofBits_parts negative hc]

def signed (negative : Bool) (n : Nat) : Int := if negative then -n else n

def units (negative : Bool) (mantissa scale : Nat) : Int := signed negative (mantissa * 2 ^ scale)

private theorem magnitude_lt (hc : Canonical mantissa scale) (hc' : Canonical mantissa' scale')
    (h : scale < scale') : mantissa * 2 ^ scale < mantissa' * 2 ^ scale' := by
  have hle : fractions ≤ mantissa' := hc'.normal.resolve_left (by omega)
  calc mantissa * 2 ^ scale < 2 * fractions * 2 ^ scale :=
        Nat.mul_lt_mul_of_pos_right hc.lt (Nat.two_pow_pos scale)
    _ = fractions * 2 ^ (scale + 1) := by rw [Nat.pow_succ]; ac_rfl
    _ ≤ mantissa' * 2 ^ scale' := Nat.mul_le_mul hle (Nat.pow_le_pow_right (by decide) h)

private theorem compare_congr {α β : Type} [LinearOrder α] [LinearOrder β] {a b : α} {c d : β}
    (hlt : a < b ↔ c < d) (hgt : b < a ↔ d < c) : compare a b = compare c d := by
  rcases lt_trichotomy c d with h | h | h
  · rw [compare_lt_iff_lt.mpr h, compare_lt_iff_lt.mpr (hlt.mpr h)]
  · rw [compare_eq_iff_eq.mpr h, compare_eq_iff_eq]
    exact le_antisymm (not_lt.mp (hgt.not.mpr h.not_gt)) (not_lt.mp (hlt.not.mpr h.not_lt))
  · rw [compare_gt_iff_gt.mpr h, compare_gt_iff_gt.mpr (hgt.mpr h)]

private theorem compare_magnitude (hc : Canonical mantissa scale) (hc' : Canonical mantissa' scale') :
    (compare ((scale : Int) - 1074) (scale' - 1074)).then (compare mantissa mantissa') =
      compare (mantissa * 2 ^ scale) (mantissa' * 2 ^ scale') := by
  rcases Nat.lt_trichotomy scale scale' with hlt | rfl | hgt
  · rw [compare_lt_iff_lt.mpr (by omega), compare_lt_iff_lt.mpr (magnitude_lt hc hc' hlt)]
    rfl
  · have hpos := Nat.two_pow_pos scale
    rw [compare_eq_iff_eq.mpr rfl, Ordering.eq_then]
    exact compare_congr (Nat.mul_lt_mul_right hpos).symm (Nat.mul_lt_mul_right hpos).symm
  · rw [compare_gt_iff_gt.mpr (by omega), compare_gt_iff_gt.mpr (magnitude_lt hc' hc hgt)]
    rfl

/-- The standard library compares finite floats as numbers; the two zeros are one. -/
theorem compare_unpacked (hc : Canonical mantissa scale) (hc' : Canonical mantissa' scale') :
    (unpacked (.finite negative mantissa scale)).compare (unpacked (.finite negative' mantissa' scale')) =
      some (compare (units negative mantissa scale) (units negative' mantissa' scale')) := by
  have hmagnitude := compare_magnitude hc hc'
  have hpos : 0 < mantissa → 0 < mantissa * 2 ^ scale := fun h => Nat.mul_pos h (Nat.two_pow_pos _)
  have hpos' : 0 < mantissa' → 0 < mantissa' * 2 ^ scale' := fun h => Nat.mul_pos h (Nat.two_pow_pos _)
  have hzero : ¬0 < mantissa → mantissa * 2 ^ scale = 0 := fun h => by
    rw [Nat.eq_zero_of_not_pos h, Nat.zero_mul]
  have hzero' : ¬0 < mantissa' → mantissa' * 2 ^ scale' = 0 := fun h => by
    rw [Nat.eq_zero_of_not_pos h, Nat.zero_mul]
  unfold unpacked units signed
  generalize mantissa * 2 ^ scale = a at *
  generalize mantissa' * 2 ^ scale' = b at *
  by_cases hm : 0 < mantissa <;> by_cases hm' : 0 < mantissa' <;>
    simp only [hm, hm', dif_pos, dif_neg, not_false_eq_true]
  · specialize hpos hm
    specialize hpos' hm'
    cases negative <;> cases negative'
    · refine congrArg some (hmagnitude.trans (compare_congr ?_ ?_)) <;> simp
    · exact congrArg some (compare_gt_iff_gt.mpr (by simp; omega)).symm
    · exact congrArg some (compare_lt_iff_lt.mpr (by simp; omega)).symm
    · have hswap := (congrArg Ordering.swap hmagnitude).trans (Nat.compare_swap a b)
      refine congrArg some (hswap.trans (compare_congr ?_ ?_)) <;> simp
  · cases negative
    · exact congrArg some (compare_gt_iff_gt.mpr (by simp [hzero' hm', hpos hm])).symm
    · exact congrArg some (compare_lt_iff_lt.mpr (by simp [hzero' hm', hpos hm])).symm
  · cases negative'
    · exact congrArg some (compare_lt_iff_lt.mpr (by simp [hzero hm, hpos' hm'])).symm
    · exact congrArg some (compare_gt_iff_gt.mpr (by simp [hzero hm, hpos' hm'])).symm
  · exact congrArg some (compare_eq_iff_eq.mpr (by simp [hzero hm, hzero' hm'])).symm

section

variable (hx : ofFloat x = .finite negative mantissa scale)
  (hy : ofFloat y = .finite negative' mantissa' scale')

include hx hy

private theorem compare_toModel :
    x.toModel.unpack.compare y.toModel.unpack =
      some (compare (units negative mantissa scale) (units negative' mantissa' scale')) := by
  rw [toModel_unpack, toModel_unpack, hx, hy]
  exact compare_unpacked (ofBits_finite hx).1 (ofBits_finite hy).1

theorem le_iff : x ≤ y ↔ units negative mantissa scale ≤ units negative' mantissa' scale' := by
  have hle : x ≤ y ↔ (x.toModel.unpack.compare y.toModel.unpack).any Ordering.isLE := by
    show decide (x.toModel ≤ y.toModel) = true ↔ _
    rw [decide_eq_true_iff]
    exact Iff.rfl
  rw [hle, compare_toModel hx hy]
  exact Std.isLE_compare

theorem lt_iff : x < y ↔ units negative mantissa scale < units negative' mantissa' scale' := by
  have hlt : x < y ↔ x.toModel.unpack.compare y.toModel.unpack == some .lt := by
    show decide (x.toModel < y.toModel) = true ↔ _
    rw [decide_eq_true_iff]
    exact Iff.rfl
  rw [hlt, compare_toModel hx hy, ← compare_lt_iff_lt]
  simp

end

end Copione.Binary
