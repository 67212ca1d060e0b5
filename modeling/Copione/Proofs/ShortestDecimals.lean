import Copione.Proofs.NearestFloats
/-!
# Shortest decimals

The search for the shortest decimal of a float ends on a grid that has a point in the interval of the
float: the last grid is finer than the interval is long. So the decimal is rounded to the float.
-/
namespace Copione

namespace Decimal

def num (d : Decimal) : Nat := d.digits * 10 ^ d.exponent.toNat

def den (d : Decimal) : Nat := 10 ^ (-d.exponent).toNat

theorem den_pos (d : Decimal) : 0 < d.den := Nat.pow_pos (by decide)

namespace Interval

variable {i : Interval} {tie : Tie} {n : Nat} {exponent : Int}

private theorem contains_rescale :
    (i.rescale exponent).contains n ↔ i.Holds (Decimal.mk n exponent).num (Decimal.mk n exponent).den := by
  have hvalue : n * (i.den * 10 ^ exponent.toNat) = n * 10 ^ exponent.toNat * i.den := by ac_rfl
  simp only [contains, rescale, Holds, num, Decimal.den, Nat.pow_eq, hvalue]
  split <;> simp

/-- The grid has a point in the interval: the interval is longer than a step. -/
structure Spans (i : Interval) : Prop where
  low : i.low < i.value
  high : i.value < i.high
  den_pos : 0 < i.den
  long : i.low + i.den < i.high

private theorem nearest?_contains (h : i.nearest? tie = some n) : i.contains n := by
  unfold nearest? at h
  simp only [] at h
  split at h
  · next hbelow habove =>
    obtain rfl := Option.some.inj h
    split
    · exact habove
    · exact hbelow
  · next hbelow _ =>
    obtain rfl := Option.some.inj h
    exact hbelow
  · next habove =>
    obtain rfl := Option.some.inj h
    exact habove
  · cases h

private theorem Spans.nearest? (h : i.Spans) (tie : Tie) : (i.nearest? tie).isSome := by
  have hsplit := Nat.div_add_mod i.value i.den
  have hrest := Nat.mod_lt i.value h.den_pos
  have hlow := h.low
  have hhigh := h.high
  have hlong := h.long
  have hnext : (i.value / i.den + 1) * i.den = i.den * (i.value / i.den) + i.den := by
    rw [Nat.succ_mul, Nat.mul_comm]
  have hsome : i.contains (i.value / i.den) ∨ i.contains (i.value / i.den + 1) := by
    unfold contains
    rw [hnext, Nat.mul_comm]
    split
    · simp only [Bool.and_eq_true, decide_eq_true_eq]
      omega
    · simp only [Bool.and_eq_true, decide_eq_true_eq]
      omega
  unfold Interval.nearest?
  rcases hsome with hbelow | habove
  · simp only [hbelow]
    split <;> simp_all
  · simp only [habove]
    split <;> simp_all

end Interval

variable {i : Interval} {tie : Tie}

/-- The search ends on a grid that has a point in the interval, if it comes to one that does. -/
theorem refine_holds {fuel k : Nat} {exponent : Int} (hk : k < fuel)
    (h : ((i.rescale (exponent - k)).nearest? tie).isSome) :
    i.Holds (refine tie i fuel exponent).num (refine tie i fuel exponent).den := by
  induction fuel generalizing exponent k with
  | zero => exact absurd hk (Nat.not_lt_zero k)
  | succ fuel ih =>
    rw [refine]
    cases hnearest : (i.rescale exponent).nearest? tie with
    | some digits => exact Interval.contains_rescale.mp (Interval.nearest?_contains hnearest)
    | none =>
      cases k with
      | zero => simp [hnearest] at h
      | succ k =>
        refine ih (Nat.lt_of_succ_lt_succ hk) ?_
        rwa [Int.sub_sub, Int.add_comm 1, ← Int.natCast_succ]

private theorem grid_fine : ∀ n : Nat, n < 2098 →
    4 * Binary.unit * 10 ^ ((n - 1073 : Int) * 30103 / 100000 + 1 - 23).toNat <
      3 * 2 ^ (n - 52) * 10 ^ (-((n - 1073 : Int) * 30103 / 100000 + 1 - 23)).toNat := by
  decide +kernel

variable {mantissa scale : Nat}

/-- The search begins at an exponent that depends on the binade of the float only. -/
private theorem coarseExponent_eq (hsome : mantissa ≠ 0) :
    coarseExponent (interval mantissa scale).value (interval mantissa scale).den =
      ((mantissa.log2 + scale : Nat) - 1073 : Int) * 30103 / 100000 + 1 := by
  have hlow := Nat.log2_self_le hsome
  have hhigh := Nat.lt_log2_self (n := mantissa)
  have hvalue : (interval mantissa scale).value.log2 = mantissa.log2 + scale + 2 := by
    have hpow (k : Nat) : 2 ^ (k + scale + 2) = 4 * 2 ^ k * 2 ^ scale := by
      rw [Nat.pow_add, Nat.pow_add, Nat.mul_comm _ (2 ^ 2), Nat.mul_assoc]
    have hscale := Nat.two_pow_pos scale
    rw [interval_eq]
    refine Binary.log2_eq ?_ ?_
    · rw [hpow]
      exact Nat.mul_le_mul_right _ (Nat.mul_le_mul_left 4 hlow)
    · have hlt : 4 * mantissa < 4 * 2 ^ (mantissa.log2 + 1) := by omega
      have hstep : mantissa.log2 + scale + 2 + 1 = mantissa.log2 + 1 + scale + 2 := by omega
      rw [hstep, hpow]
      exact Nat.mul_lt_mul_of_pos_right hlt hscale
  have hunit : (4 * Binary.unit).log2 = 1076 := by decide +kernel
  have hden : (interval mantissa scale).den.log2 = 1076 := hunit
  rw [coarseExponent, hvalue, hden]
  congr 3
  omega

private theorem spans_last (hc : Binary.Canonical mantissa scale) (hsome : mantissa ≠ 0) :
    ((interval mantissa scale).rescale
      (coarseExponent (interval mantissa scale).value (interval mantissa scale).den - 23)).Spans := by
  have hlog : mantissa.log2 ≤ 52 := by
    have hlt := hc.lt
    rw [Binary.fractions_eq, ← Nat.pow_succ'] at hlt
    exact Nat.le_of_lt_succ ((Nat.log2_lt hsome).mpr hlt)
  have hscale := hc.scale_le
  have hfine := grid_fine (mantissa.log2 + scale) (by omega)
  rw [coarseExponent_eq hsome]
  generalize ((mantissa.log2 + scale : Nat) - 1073 : Int) * 30103 / 100000 + 1 - 23 = exponent at hfine ⊢
  have hpos : 0 < 2 ^ scale * 10 ^ (-exponent).toNat :=
    Nat.mul_pos (Nat.two_pow_pos scale) (Nat.pow_pos (by decide))
  have hlong : 4 * Binary.unit * 10 ^ exponent.toNat < 3 * (2 ^ scale * 10 ^ (-exponent).toNat) := by
    refine Nat.lt_of_lt_of_le hfine ?_
    rw [Nat.mul_assoc]
    exact Nat.mul_le_mul_left 3 (Nat.mul_le_mul_right _ (Nat.pow_le_pow_right (by decide) (by omega)))
  have hbelow := Binary.below_pos mantissa scale
  rw [interval_eq]
  constructor
  · simp only [Interval.rescale, Nat.pow_eq, Nat.mul_assoc _ (2 ^ scale)]
    exact Nat.mul_lt_mul_of_pos_right (by omega) hpos
  · simp only [Interval.rescale, Nat.pow_eq, Nat.mul_assoc _ (2 ^ scale)]
    exact Nat.mul_lt_mul_of_pos_right (by omega) hpos
  · exact Nat.mul_pos (Nat.mul_pos (by decide) Binary.unit_pos) (Nat.pow_pos (by decide))
  · simp only [Interval.rescale, Nat.pow_eq, Nat.mul_assoc _ (2 ^ scale)]
    have hsum := Nat.mul_le_mul_right (2 ^ scale * 10 ^ (-exponent).toNat)
      (show 4 * mantissa - Binary.below mantissa scale + 3 ≤ 4 * mantissa + 2 by
        have := Binary.below_le mantissa scale
        omega)
    rw [Nat.add_mul] at hsum
    exact Nat.lt_of_lt_of_le (Nat.add_lt_add_left hlong _) hsum

/-- The shortest decimal of a float is in its interval. -/
theorem shortest_holds (hc : Binary.Canonical mantissa scale) (tie : Tie) :
    (interval mantissa scale).Holds (shortest tie mantissa scale).num (shortest tie mantissa scale).den := by
  by_cases hsome : mantissa = 0
  · subst hsome
    simp [shortest, Interval.Holds, interval, num, den]
  · rw [shortest, if_neg (by simpa using hsome)]
    exact refine_holds (k := 23) (by decide) ((spans_last hc hsome).nearest? tie)

/-- The shortest decimal of a float is rounded to the float. -/
theorem nearestBits_shortest (hc : Binary.Canonical mantissa scale) (tie : Tie) :
    Binary.nearestBits (shortest tie mantissa scale).num (shortest tie mantissa scale).den =
      scale * Binary.fractions + mantissa :=
  Binary.nearestBits_eq hc (den_pos _) (shortest_holds hc tie)

end Decimal
end Copione
