import Mathlib.Algebra.Group.Nat.Defs
import Copione.Decimal.Shortest
/-!
# Nearest floats

A ratio in the interval of numbers that round to a float is rounded to it. Its quotient by the power of
two that the float counts in is nearest to the mantissa, halves going to the even one. Only right below
a power of two is the quotient taken by the next smaller power, and then the mantissa carries.
-/
namespace Copione

namespace Binary

/-- The parts of a finite float, as its bits give them. -/
structure Canonical (mantissa scale : Nat) : Prop where
  lt : mantissa < 2 * fractions
  normal : scale = 0 ∨ fractions ≤ mantissa
  scale_le : scale ≤ 2045

def IsFinite : Binary → Bool
  | .finite .. => true
  | _ => false

theorem exists_of_isFinite {b : Binary} (h : b.IsFinite) :
    ∃ negative mantissa scale, b = .finite negative mantissa scale := by
  cases b with
  | finite negative mantissa scale => exact ⟨negative, mantissa, scale, rfl⟩
  | nan => cases h
  | infinite => cases h

theorem ofBits_finite {bits : UInt64} {negative : Bool} {mantissa scale : Nat}
    (h : ofBits bits = .finite negative mantissa scale) :
    Canonical mantissa scale ∧
      bits.toNat = (if negative then signBit else 0) + (scale * fractions + mantissa) := by
  have hlt := bits.toNat_lt
  have hsign : signBit = 0x8000000000000000 := rfl
  have hfractions : fractions = 0x10000000000000 := rfl
  unfold ofBits at h
  simp only [hfractions, beq_iff_eq] at h
  split at h
  · split at h <;> cases h
  split at h
  · cases h
    refine ⟨⟨by omega, .inl rfl, by omega⟩, ?_⟩
    simp only [decide_eq_true_eq]
    split <;> omega
  · cases h
    refine ⟨⟨by omega, .inr (by omega), by omega⟩, ?_⟩
    rw [hfractions]
    simp only [decide_eq_true_eq]
    split <;> omega

/-- The ratio is at most half from `n`, and exactly half only if `n` is even. -/
structure Near (num den n : Nat) : Prop where
  low : 2 * (den * n) ≤ 2 * num + den
  high : 2 * num ≤ 2 * (den * n) + den
  odd : n % 2 = 1 → 2 * (den * n) ≠ 2 * num + den ∧ 2 * num ≠ 2 * (den * n) + den

private theorem roundQuotient_eq {num den n : Nat} (hden : 0 < den) (h : Near num den n) :
    roundQuotient num den = n := by
  have hsplit := Nat.div_add_mod num den
  have hrest := Nat.mod_lt num hden
  have hlow := h.low
  have hhigh := h.high
  have hodd := h.odd
  have hnext : den * (num / den + 1) = den * (num / den) + den := Nat.mul_succ _ _
  have hbounds : num / den = n ∨ num / den + 1 = n := by
    rcases Nat.lt_trichotomy (num / den) n with hlt | heq | hgt
    · by_cases hone : num / den + 1 = n
      · exact .inr hone
      · have hle : den * (num / den + 2) ≤ den * n := Nat.mul_le_mul_left den (by omega)
        rw [Nat.mul_add] at hle
        omega
    · exact .inl heq
    · have hle : den * (n + 1) ≤ den * (num / den) := Nat.mul_le_mul_left den hgt
      rw [Nat.mul_succ] at hle
      omega
  unfold roundQuotient
  rcases hbounds with hn | hn
  · rw [← hn] at hlow hhigh hodd ⊢
    have hkeep : 2 * (num % den) < den ∨ 2 * (num % den) = den ∧ num / den % 2 = 0 := by omega
    simp [hkeep]
  · rw [← hn, hnext] at hlow hhigh hodd
    have hraise : ¬(2 * (num % den) < den ∨ 2 * (num % den) = den ∧ num / den % 2 = 0) := by omega
    simp [hraise, hn]

theorem log2_eq {n k : Nat} (hlow : 2 ^ k ≤ n) (hhigh : n < 2 ^ (k + 1)) : n.log2 = k := by
  have hpos := Nat.two_pow_pos k
  have hne : n ≠ 0 := by omega
  have hle := (Nat.le_log2 hne).mpr hlow
  have hlt := (Nat.log2_lt hne).mpr hhigh
  omega

theorem fractions_eq : fractions = 2 ^ 52 := by decide

theorem unit_pos : 0 < unit := by decide +kernel

/-- How far an interval goes down, in quarters of what its mantissa counts. -/
def below (mantissa scale : Nat) : Nat := if mantissa = fractions ∧ 0 < scale then 1 else 2

theorem below_pos (mantissa scale : Nat) : 0 < below mantissa scale := by
  unfold below
  split <;> omega

theorem below_le (mantissa scale : Nat) : below mantissa scale ≤ 2 := by
  unfold below
  split <;> omega

end Binary

namespace Decimal

def Interval.Holds (i : Interval) (num den : Nat) : Prop :=
  if i.closed then i.low * den ≤ num * i.den ∧ num * i.den ≤ i.high * den
  else i.low * den < num * i.den ∧ num * i.den < i.high * den

theorem interval_eq (mantissa scale : Nat) :
    interval mantissa scale =
      { low := (4 * mantissa - Binary.below mantissa scale) * 2 ^ scale
        value := 4 * mantissa * 2 ^ scale
        high := (4 * mantissa + 2) * 2 ^ scale
        den := 4 * Binary.unit
        closed := mantissa % 2 == 0 } := by
  simp [interval, Binary.below, Nat.shiftLeft_eq]

end Decimal

namespace Binary

open Decimal

variable {mantissa scale num den : Nat}

private theorem quarters_of_holds (h : (interval mantissa scale).Holds num den) :
    4 * (den * 2 ^ scale * mantissa) ≤
        4 * (num * unit) + below mantissa scale * (den * 2 ^ scale) ∧
      4 * (num * unit) ≤ 4 * (den * 2 ^ scale * mantissa) + 2 * (den * 2 ^ scale) ∧
      (mantissa % 2 = 1 →
        4 * (den * 2 ^ scale * mantissa) ≠
          4 * (num * unit) + below mantissa scale * (den * 2 ^ scale) ∧
        4 * (num * unit) ≠ 4 * (den * 2 ^ scale * mantissa) + 2 * (den * 2 ^ scale)) := by
  rw [interval_eq, Interval.Holds] at h
  simp only [beq_iff_eq] at h
  have hlow : (4 * mantissa - below mantissa scale) * 2 ^ scale * den =
      4 * (den * 2 ^ scale * mantissa) - below mantissa scale * (den * 2 ^ scale) := by
    rw [Nat.mul_assoc, Nat.sub_mul]
    congr 1 <;> ac_rfl
  have hhigh : (4 * mantissa + 2) * 2 ^ scale * den =
      4 * (den * 2 ^ scale * mantissa) + 2 * (den * 2 ^ scale) := by
    rw [Nat.mul_assoc, Nat.add_mul]
    congr 1 <;> ac_rfl
  have hvalue : num * (4 * unit) = 4 * (num * unit) := by ac_rfl
  rw [hlow, hhigh, hvalue] at h
  generalize den * 2 ^ scale * mantissa = a at h ⊢
  generalize below mantissa scale * (den * 2 ^ scale) = b at h ⊢
  split at h <;> omega

private theorem near_of_holds (h : (interval mantissa scale).Holds num den) :
    Near (num * unit) (den * 2 ^ scale) mantissa := by
  obtain ⟨hlow, hhigh, hodd⟩ := quarters_of_holds h
  have hdown := Nat.mul_le_mul_right (den * 2 ^ scale) (below_le mantissa scale)
  -- an odd mantissa is no power of two, so its interval goes down by half
  have hwhole : mantissa % 2 = 1 → below mantissa scale = 2 := fun hm => by
    rw [below, if_neg]
    rintro ⟨rfl, -⟩
    simp [fractions] at hm
  refine ⟨by omega, by omega, fun hm => ?_⟩
  rw [hwhole hm] at hodd
  have := hodd hm
  omega

/-- The ratio is in the binade of the float. -/
private theorem scale_of_le (hc : Canonical mantissa scale) (hden : 0 < den)
    (h : (interval mantissa scale).Holds num den)
    (hlarge : scale = 0 ∨ 2 ^ (52 + scale) ≤ num * unit / den) :
    (num * unit / den).log2 - 52 = scale := by
  have hnear := near_of_holds h
  have hlt : num * unit / den < 2 ^ (52 + scale + 1) := by
    refine Nat.div_lt_of_lt_mul ?_
    have hmantissa : den * 2 ^ scale * mantissa + den * 2 ^ scale ≤ den * 2 ^ scale * (2 * fractions) := by
      rw [← Nat.mul_succ]
      exact Nat.mul_le_mul_left _ hc.lt
    have hpow : den * 2 ^ (52 + scale + 1) = den * 2 ^ scale * (2 * fractions) := by
      rw [fractions_eq, Nat.mul_assoc]
      congr 1
      rw [← Nat.pow_succ', ← Nat.pow_add]
      congr 1
      omega
    have hpos : 0 < den * 2 ^ scale := Nat.mul_pos hden (Nat.two_pow_pos _)
    have hhigh := hnear.high
    omega
  rcases hlarge with rfl | hle
  · by_cases hle : 2 ^ 52 ≤ num * unit / den
    · rw [log2_eq hle hlt]
    · have hlog : (num * unit / den).log2 ≤ 52 := by
        by_cases hzero : num * unit / den = 0
        · simp [hzero]
        · exact Nat.le_of_lt ((Nat.log2_lt hzero).mpr (Nat.lt_of_not_le hle))
      omega
  · rw [log2_eq hle hlt]
    omega

/-- Right below a power of two the ratio is in the binade below, where it is near to the power. -/
private theorem carries_of_lt (hc : Canonical mantissa (scale + 1)) (hden : 0 < den)
    (h : (interval mantissa (scale + 1)).Holds num den)
    (hsmall : num * unit / den < 2 ^ (52 + (scale + 1))) :
    mantissa = fractions ∧ (num * unit / den).log2 - 52 = scale ∧
      Near (num * unit) (den * 2 ^ scale) (2 * fractions) := by
  obtain ⟨hlow, -, -⟩ := quarters_of_holds h
  have hle : fractions ≤ mantissa := hc.normal.resolve_left (Nat.succ_ne_zero scale)
  have hpos : 0 < den * 2 ^ scale := Nat.mul_pos hden (Nat.two_pow_pos _)
  have hdouble : den * 2 ^ (scale + 1) = 2 * (den * 2 ^ scale) := by rw [Nat.pow_succ]; ac_rfl
  have hbinade : den * 2 ^ (52 + scale) = den * 2 ^ scale * fractions := by
    rw [fractions_eq, Nat.pow_add]
    ac_rfl
  have hlt : num * unit < 2 * (den * 2 ^ scale * fractions) := by
    have htwice : 2 ^ (52 + (scale + 1)) * den = 2 * (den * 2 ^ (52 + scale)) := by
      rw [← Nat.add_assoc, Nat.pow_succ, Nat.mul_comm _ 2, Nat.mul_assoc, Nat.mul_comm den]
    rw [← hbinade, ← htwice]
    exact (Nat.div_lt_iff_lt_mul hden).mp hsmall
  rw [hdouble, Nat.mul_assoc] at hlow
  have hmantissa : mantissa = fractions := by
    refine Nat.le_antisymm (Nat.le_of_not_lt fun hgt => ?_) hle
    have hstep := Nat.mul_le_mul_left (den * 2 ^ scale) hgt
    rw [Nat.mul_succ] at hstep
    rw [below, if_neg (by omega)] at hlow
    omega
  rw [below, if_pos ⟨hmantissa, Nat.succ_pos _⟩, hmantissa] at hlow
  have hlarge : den * 2 ^ scale ≤ den * 2 ^ scale * fractions := Nat.le_mul_of_pos_right _ (by decide)
  have hthere : 2 ^ (52 + scale) ≤ num * unit / den := by
    rw [Nat.le_div_iff_mul_le hden, Nat.mul_comm, hbinade]
    omega
  have hproduct : den * 2 ^ scale * (2 * fractions) = 2 * (den * 2 ^ scale * fractions) := by ac_rfl
  refine ⟨hmantissa, ?_, ?_⟩
  · rw [log2_eq hthere hsmall]
    omega
  · exact ⟨by omega, by omega, fun hodd => by omega⟩

/-- A ratio in the interval of a float is rounded to the float. -/
theorem nearestBits_eq (hc : Canonical mantissa scale) (hden : 0 < den)
    (h : (interval mantissa scale).Holds num den) :
    nearestBits num den = scale * fractions + mantissa := by
  have hfinite : scale * fractions + mantissa ≤ infinityBits := by
    have hlt := hc.lt
    have hle := Nat.mul_le_mul_right fractions hc.scale_le
    rw [infinityBits]
    omega
  have hpos (k : Nat) : 0 < den * 2 ^ k := Nat.mul_pos hden (Nat.two_pow_pos k)
  rw [nearestBits]
  by_cases hlarge : scale = 0 ∨ 2 ^ (52 + scale) ≤ num * unit / den
  · rw [scale_of_le hc hden h hlarge, Nat.shiftLeft_eq, roundQuotient_eq (hpos scale) (near_of_holds h),
      Nat.min_eq_left hfinite]
  · obtain ⟨hsome, hsmall⟩ := not_or.mp hlarge
    obtain ⟨scale, rfl⟩ := Nat.exists_eq_add_one_of_ne_zero hsome
    obtain ⟨rfl, hscale, hnear⟩ := carries_of_lt hc hden h (Nat.lt_of_not_le hsmall)
    have hcarry : scale * fractions + 2 * fractions = (scale + 1) * fractions + fractions := by
      rw [Nat.succ_mul scale]
      omega
    rw [hscale, Nat.shiftLeft_eq, roundQuotient_eq (hpos scale) hnear, hcarry, Nat.min_eq_left hfinite]

end Binary
end Copione
