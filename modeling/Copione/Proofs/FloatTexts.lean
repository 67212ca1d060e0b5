import Copione.Decimal.Layout
import Copione.Decimal.Numeral
import Copione.Proofs.ShortestDecimals
import Mathlib.Data.List.Basic
/-!
# Float texts

In every style, two finite floats have the same text only if they are the same float. A positional text
denotes the decimal that it writes, and a text with an exponent shows its digits and its exponent, so
the text gives the ratio; and the decimal is rounded to the float.
-/
namespace Copione

namespace Numeral

theorem toNat_eq (digits : List Char) : toNat digits = Nat.ofDigitChars 10 digits 0 := by
  rw [toNat, Nat.ofDigitChars_eq_foldl]
  simp only [Nat.mul_comm]

@[simp] theorem toNat_toDigits (n : Nat) : toNat (Nat.toDigits 10 n) = n := by
  rw [toNat_eq, Nat.ofDigitChars_ten_toDigits]

private theorem toNat_append (first second : List Char) :
    toNat (first ++ second) = toNat first * 10 ^ second.length + toNat second := by
  simp only [toNat_eq]
  rw [Nat.ofDigitChars_append, Nat.ofDigitChars_eq_ofDigitChars_zero, Nat.mul_comm]

@[simp] theorem toNat_zeros (n : Nat) : toNat (List.replicate n '0') = 0 := by
  rw [toNat_eq, Nat.ofDigitChars_replicate_zero, Nat.mul_zero]

theorem isDigit_of_mem_toDigits {n : Nat} {c : Char} (h : c ∈ Nat.toDigits 10 n) : isDigit c :=
  Nat.isDigit_of_mem_toDigits (by decide) (by decide) h

private theorem isDigit_of_mem_zeros {n : Nat} {c : Char} (h : c ∈ List.replicate n '0') :
    isDigit c := by
  rw [List.eq_of_mem_replicate h]
  rfl

theorem ne_of_isDigit {c d : Char} (hc : isDigit c) (hd : isDigit d = false) : c ≠ d := by
  rintro rfl
  rw [hc] at hd
  cases hd

end Numeral

namespace Decimal

open Numeral

variable {d d' : Decimal}

/-- Digits on both sides of the point, that denote the decimal. -/
structure Denotes (d : Decimal) (whole fraction : List Char) : Prop where
  whole_ne : whole ≠ []
  fraction_ne : fraction ≠ []
  digits : ∀ c ∈ whole ++ fraction, isDigit c
  value : toNat (whole ++ fraction) * d.den = d.num * 10 ^ fraction.length

theorem positional_denotes (d : Decimal) :
    ∃ whole fraction, d.positional = whole ++ '.' :: fraction ∧ d.Denotes whole fraction := by
  obtain ⟨n, exponent⟩ := d
  have hvalue := toNat_toDigits n
  have hdigit : ∀ c ∈ Nat.toDigits 10 n, isDigit c := fun c => isDigit_of_mem_toDigits
  have hpos : 0 < (Nat.toDigits 10 n).length := Nat.length_toDigits_pos
  have hnone : toNat ['0'] = 0 := rfl
  unfold positional leadingExponent
  dsimp only
  generalize Nat.toDigits 10 n = ds at hvalue hdigit hpos ⊢
  have hne : ds ≠ [] := List.ne_nil_of_length_pos hpos
  split
  · -- zeros behind the digits
    next hexponent =>
    have hden : (-exponent).toNat = 0 := by omega
    refine ⟨ds ++ List.replicate exponent.toNat '0', ['0'], rfl, by simp [hne], by simp, ?_, ?_⟩
    · simp only [List.mem_append, List.mem_singleton]
      rintro c ((hc | hc) | rfl)
      · exact hdigit c hc
      · exact isDigit_of_mem_zeros hc
      · rfl
    · rw [toNat_append, toNat_append, hvalue, hnone]
      simp [num, den, hden]
  have hnum : exponent.toNat = 0 := by omega
  split
  · -- the point among the digits
    next hexponent hwhole =>
    generalize hcut : ((ds.length : Int) + exponent - 1 + 1).toNat = cut
    have hlength : (ds.drop cut).length = (-exponent).toNat := by
      rw [List.length_drop]
      omega
    refine ⟨ds.take cut, ds.drop cut, rfl, ?_, ?_, ?_, ?_⟩
    · exact List.ne_nil_of_length_pos (by rw [List.length_take]; omega)
    · exact List.ne_nil_of_length_pos (by omega)
    · rw [List.take_append_drop]
      exact hdigit
    · rw [List.take_append_drop, hlength, hvalue]
      simp [num, den, hnum]
  · -- zeros in front of the digits
    next hexponent hwhole =>
    generalize hgap : (-((ds.length : Int) + exponent - 1 + 1)).toNat = gap
    have hlength : (List.replicate gap '0' ++ ds).length = (-exponent).toNat := by
      rw [List.length_append, List.length_replicate]
      omega
    refine ⟨['0'], List.replicate gap '0' ++ ds, rfl, by simp, by simp [hne], ?_, ?_⟩
    · simp only [List.mem_append, List.mem_singleton]
      rintro c (rfl | hc | hc)
      · rfl
      · exact isDigit_of_mem_zeros hc
      · exact hdigit c hc
    · rw [toNat_append, hlength, hnone, toNat_append, hvalue]
      simp [num, den, hnum]

private theorem Interval.Holds.of_ratio {i : Interval} {num den num' den' : Nat} (h : i.Holds num den)
    (hden : 0 < den) (hden' : 0 < den') (hratio : num' * den = num * den') : i.Holds num' den' := by
  have hlimit (limit : Nat) : limit * den' * den = limit * den * den' := Nat.mul_right_comm ..
  have hvalue : num' * i.den * den = num * i.den * den' := by
    rw [Nat.mul_right_comm, hratio, Nat.mul_right_comm]
  unfold Holds at h ⊢
  split at h <;> simp only [*, ↓reduceIte, Bool.false_eq_true]
  · refine ⟨Nat.le_of_mul_le_mul_right ?_ hden, Nat.le_of_mul_le_mul_right ?_ hden⟩
    · rw [hlimit, hvalue]
      exact Nat.mul_le_mul_right den' h.1
    · rw [hlimit, hvalue]
      exact Nat.mul_le_mul_right den' h.2
  · refine ⟨Nat.lt_of_mul_lt_mul_right (a := den) ?_, Nat.lt_of_mul_lt_mul_right (a := den) ?_⟩
    · rw [hlimit, hvalue]
      exact Nat.mul_lt_mul_of_pos_right h.1 hden'
    · rw [hlimit, hvalue]
      exact Nat.mul_lt_mul_of_pos_right h.2 hden'

/-- What denotes the shortest decimal of a float is rounded to the float. -/
theorem Denotes.nearestBits {mantissa scale : Nat} {tie : Tie} {whole fraction : List Char}
    (hc : Binary.Canonical mantissa scale) (h : (shortest tie mantissa scale).Denotes whole fraction) :
    Binary.nearestBits (toNat (whole ++ fraction)) (10 ^ fraction.length) =
      scale * Binary.fractions + mantissa :=
  Binary.nearestBits_eq hc (Nat.pow_pos (by decide))
    ((shortest_holds hc tie).of_ratio (den_pos _) (Nat.pow_pos (by decide)) h.value)

/-- A positional text shows what it denotes. -/
theorem Denotes.unique {whole fraction whole' fraction' : List Char} (h : d.Denotes whole fraction)
    (htext : whole ++ '.' :: fraction = whole' ++ '.' :: fraction') :
    whole = whole' ∧ fraction = fraction' := by
  have hpoint : '.' ∉ whole ++ fraction := fun hmem => by cases h.digits _ hmem
  rw [List.mem_append, not_or] at hpoint
  obtain ⟨hwhole, -, hfraction⟩ := (List.append_cons_inj_of_notMem hpoint.1 hpoint.2).mp htext
  exact ⟨hwhole, hfraction⟩

def signOf (plus : Bool) (exponent : Int) : List Char :=
  if exponent < 0 then ['-'] else if plus then ['+'] else []

private theorem exponent_unique {plus : Bool} {e e' : Int}
    (h : signOf plus e ++ Nat.toDigits 10 e.natAbs = signOf plus e' ++ Nat.toDigits 10 e'.natAbs) :
    e = e' := by
  have hminus (e : Int) : '-' ∈ signOf plus e ++ Nat.toDigits 10 e.natAbs ↔ e < 0 := by
    have hdigits : '-' ∉ Nat.toDigits 10 e.natAbs := fun hmem => by cases isDigit_of_mem_toDigits hmem
    unfold signOf
    split
    · next he => simp [he]
    · next he => cases plus <;> simp [he, hdigits]
  have hsign : e < 0 ↔ e' < 0 := by rw [← hminus e, h, hminus e']
  have hsigns : signOf plus e = signOf plus e' := by simp only [signOf, hsign]
  rw [hsigns] at h
  have habs := congrArg toNat (List.append_cancel_left h)
  simp only [toNat_toDigits] at habs
  omega

/-- The parts of a text with an exponent: the digits, and the power of ten of the first one. -/
structure Shows (plus : Bool) (d : Decimal) (mantissa power : List Char) : Prop where
  head : ∃ c rest, mantissa = c :: rest ∧ isDigit c
  chars : ∀ c ∈ mantissa, isDigit c ∨ c = '.'
  digits : mantissa.filter (· ≠ '.') = Nat.toDigits 10 d.digits
  power : power = signOf plus d.leadingExponent ++ Nat.toDigits 10 d.leadingExponent.natAbs

private theorem scientific_shows (plus : Bool) (d : Decimal) :
    ∃ mantissa power, d.scientific plus = mantissa ++ 'e' :: power ∧ d.Shows plus mantissa power := by
  have hdigit : ∀ c ∈ Nat.toDigits 10 d.digits, isDigit c := fun c => isDigit_of_mem_toDigits
  have hpos : 0 < (Nat.toDigits 10 d.digits).length := Nat.length_toDigits_pos
  unfold scientific
  dsimp only
  generalize hds : Nat.toDigits 10 d.digits = ds at hdigit hpos ⊢
  have hfilter : ds.filter (· ≠ '.') = ds :=
    List.filter_eq_self.mpr fun c hc => decide_eq_true (ne_of_isDigit (hdigit c hc) rfl)
  match ds with
  | [] => cases hpos
  | [first] =>
    refine ⟨[first], _, List.append_assoc _ _ _, ⟨first, [], rfl, hdigit first (by simp)⟩, ?_, ?_, rfl⟩
    · exact fun c hc => .inl (hdigit c hc)
    · rw [hfilter, hds]
  | first :: second :: more =>
    refine ⟨first :: '.' :: second :: more, _, List.append_assoc _ _ _, ⟨first, _, rfl, ?_⟩, ?_, ?_, rfl⟩
    · exact hdigit first (by simp)
    · intro c hc
      simp only [List.mem_cons] at hc hdigit
      grind
    · have hpoint : (first :: '.' :: second :: more).filter (· ≠ '.') =
          (first :: second :: more).filter (· ≠ '.') := by simp [List.filter_cons]
      rw [hds, hpoint, hfilter]

private theorem notMem_positional (d : Decimal) : 'e' ∉ d.positional := by
  obtain ⟨whole, fraction, htext, hdenotes⟩ := d.positional_denotes
  intro hmem
  rw [htext, List.mem_append, List.mem_cons, ← or_assoc, or_right_comm, ← List.mem_append] at hmem
  rcases hmem with hmem | hmem
  · cases hdenotes.digits _ hmem
  · cases hmem

private theorem mem_scientific (plus : Bool) (d : Decimal) : 'e' ∈ d.scientific plus := by
  obtain ⟨mantissa, power, htext, -⟩ := scientific_shows plus d
  rw [htext]
  exact List.mem_append_right _ List.mem_cons_self

private theorem scientific_injective {plus : Bool} (h : d.scientific plus = d'.scientific plus) :
    d = d' := by
  obtain ⟨mantissa, power, htext, hshows⟩ := scientific_shows plus d
  obtain ⟨mantissa', power', htext', hshows'⟩ := scientific_shows plus d'
  rw [htext, htext'] at h
  have hmantissa : 'e' ∉ mantissa := fun hmem => by
    rcases hshows.chars _ hmem with hc | hc <;> cases hc
  have hpower : 'e' ∉ power := by
    rw [hshows.power, List.mem_append, not_or]
    refine ⟨?_, fun hmem => by cases isDigit_of_mem_toDigits hmem⟩
    unfold signOf
    split
    · decide
    · cases plus <;> decide
  obtain ⟨rfl, -, rfl⟩ := (List.append_cons_inj_of_notMem hmantissa hpower).mp h
  have hdigits := congrArg toNat (hshows.digits.symm.trans hshows'.digits)
  simp only [toNat_toDigits] at hdigits
  have hexponent := exponent_unique (hshows.power.symm.trans hshows'.power)
  obtain ⟨n, exponent⟩ := d
  obtain ⟨n', exponent'⟩ := d'
  obtain rfl : n = n' := hdigits
  simp only [leadingExponent] at hexponent
  obtain rfl : exponent = exponent' := by omega
  rfl

private theorem positional_injective {tie : Tie} {mantissa scale mantissa' scale' : Nat}
    (hc : Binary.Canonical mantissa scale) (hc' : Binary.Canonical mantissa' scale')
    (h : (shortest tie mantissa scale).positional = (shortest tie mantissa' scale').positional) :
    scale * Binary.fractions + mantissa = scale' * Binary.fractions + mantissa' := by
  obtain ⟨whole, fraction, htext, hdenotes⟩ := (shortest tie mantissa scale).positional_denotes
  obtain ⟨whole', fraction', htext', hdenotes'⟩ := (shortest tie mantissa' scale').positional_denotes
  rw [htext, htext'] at h
  obtain ⟨rfl, rfl⟩ := hdenotes.unique h
  exact (hdenotes.nearestBits hc).symm.trans (hdenotes'.nearestBits hc')

end Decimal

namespace FloatStyle

open Numeral

variable {style : FloatStyle} {mantissa scale mantissa' scale' : Nat} {x y : Float} {c : Char}

def magnitude (style : FloatStyle) (mantissa scale : Nat) : List Char :=
  let d := Decimal.shortest style.tie mantissa scale
  let plain :=
    match style.positional with
    | none => true
    | some (low, high) => mantissa == 0 || (low ≤ d.leadingExponent && d.leadingExponent < high)
  if plain then d.positional else d.scientific style.plus

theorem write_finite {negative : Bool} (h : Binary.ofFloat x = .finite negative mantissa scale) :
    style.write x = String.ofList
      (if negative then '-' :: style.magnitude mantissa scale else style.magnitude mantissa scale) := by
  rw [write, h]
  rfl

private theorem magnitude_eq (style : FloatStyle) (mantissa scale : Nat) :
    style.magnitude mantissa scale = (Decimal.shortest style.tie mantissa scale).positional ∨
      style.magnitude mantissa scale =
        (Decimal.shortest style.tie mantissa scale).scientific style.plus := by
  unfold magnitude
  dsimp only
  generalize (match style.positional with | none => true | some (low, high) => _) = plain
  cases plain
  · exact .inr rfl
  · exact .inl rfl

private theorem magnitude_injective (hc : Binary.Canonical mantissa scale)
    (hc' : Binary.Canonical mantissa' scale')
    (h : style.magnitude mantissa scale = style.magnitude mantissa' scale') :
    scale * Binary.fractions + mantissa = scale' * Binary.fractions + mantissa' := by
  rcases style.magnitude_eq mantissa scale with hm | hm <;>
    rcases style.magnitude_eq mantissa' scale' with hm' | hm' <;> rw [hm, hm'] at h
  · exact Decimal.positional_injective hc hc' h
  · exact absurd (h ▸ Decimal.mem_scientific ..) (Decimal.notMem_positional _)
  · exact absurd (h ▸ Decimal.mem_scientific ..) (Decimal.notMem_positional _)
  · have hbits := Decimal.nearestBits_shortest hc style.tie
    rw [Decimal.scientific_injective h] at hbits
    exact hbits.symm.trans (Decimal.nearestBits_shortest hc' style.tie)

private theorem magnitude_eq_cons (style : FloatStyle) (mantissa scale : Nat) :
    ∃ c rest, style.magnitude mantissa scale = c :: rest ∧ isDigit c := by
  rcases style.magnitude_eq mantissa scale with h | h
  · obtain ⟨whole, fraction, htext, hdenotes⟩ := Decimal.positional_denotes _
    obtain ⟨c, whole, rfl⟩ := List.exists_cons_of_ne_nil hdenotes.whole_ne
    exact ⟨c, whole ++ '.' :: fraction, h.trans htext, hdenotes.digits c List.mem_cons_self⟩
  · obtain ⟨mantissa, power, htext, hshows⟩ := Decimal.scientific_shows style.plus _
    obtain ⟨c, rest, rfl, hc⟩ := hshows.head
    exact ⟨c, rest ++ 'e' :: power, h.trans htext, hc⟩

private theorem mem_magnitude (hmem : c ∈ style.magnitude mantissa scale) :
    isDigit c ∨ c ∈ ['.', 'e', '-', '+'] := by
  rcases style.magnitude_eq mantissa scale with h | h <;> rw [h] at hmem
  · obtain ⟨whole, fraction, htext, hdenotes⟩ := Decimal.positional_denotes _
    rw [htext, List.mem_append, List.mem_cons] at hmem
    rcases hmem with hmem | rfl | hmem
    · exact .inl (hdenotes.digits c (List.mem_append_left _ hmem))
    · exact .inr (by decide)
    · exact .inl (hdenotes.digits c (List.mem_append_right _ hmem))
  · obtain ⟨mantissa, power, htext, hshows⟩ := Decimal.scientific_shows style.plus _
    rw [htext, List.mem_append, List.mem_cons, hshows.power, List.mem_append] at hmem
    rcases hmem with hmem | rfl | hmem | hmem
    · exact (hshows.chars c hmem).imp_right fun hc => by simp [hc]
    · exact .inr (by decide)
    · unfold Decimal.signOf at hmem
      grind
    · exact .inl (isDigit_of_mem_toDigits hmem)

private theorem marked_magnitude (style : FloatStyle) (mantissa scale : Nat) :
    '.' ∈ style.magnitude mantissa scale ∨ 'e' ∈ style.magnitude mantissa scale := by
  rcases style.magnitude_eq mantissa scale with h | h <;> rw [h]
  · obtain ⟨whole, fraction, htext, -⟩ := Decimal.positional_denotes _
    rw [htext]
    exact .inl (List.mem_append_right _ List.mem_cons_self)
  · exact .inr (Decimal.mem_scientific ..)

theorem write_eq_cons (h : (Binary.ofFloat x).IsFinite) :
    ∃ c rest, (style.write x).toList = c :: rest ∧ (isDigit c ∨ c = '-') := by
  obtain ⟨negative, mantissa, scale, hx⟩ := Binary.exists_of_isFinite h
  obtain ⟨c, rest, hmagnitude, hc⟩ := style.magnitude_eq_cons mantissa scale
  rw [write_finite hx, String.toList_ofList]
  cases negative with
  | false => exact ⟨c, rest, hmagnitude, .inl hc⟩
  | true => exact ⟨'-', _, rfl, .inr rfl⟩

theorem mem_write (h : (Binary.ofFloat x).IsFinite) (hc : c ∈ (style.write x).toList) :
    isDigit c ∨ c ∈ ['.', 'e', '-', '+'] := by
  obtain ⟨negative, mantissa, scale, hx⟩ := Binary.exists_of_isFinite h
  rw [write_finite hx, String.toList_ofList] at hc
  cases negative with
  | false => exact mem_magnitude hc
  | true =>
    rcases List.mem_cons.mp hc with rfl | hc
    · exact .inr (by decide)
    · exact mem_magnitude hc

theorem marked_write (h : (Binary.ofFloat x).IsFinite) :
    '.' ∈ (style.write x).toList ∨ 'e' ∈ (style.write x).toList := by
  obtain ⟨negative, mantissa, scale, hx⟩ := Binary.exists_of_isFinite h
  rw [write_finite hx, String.toList_ofList]
  cases negative with
  | false => exact style.marked_magnitude mantissa scale
  | true =>
    exact (style.marked_magnitude mantissa scale).imp (List.mem_cons_of_mem _) (List.mem_cons_of_mem _)

private theorem toBits_injective {x y : Float} (h : x.toBits = y.toBits) : x = y := by
  obtain ⟨bits, hbits⟩ := x
  obtain ⟨bits', hbits'⟩ := y
  obtain rfl : bits = bits' := h
  rfl

/-- In every style, a finite float is the only one with its text. -/
theorem write_injective (style : FloatStyle) (hx : (Binary.ofFloat x).IsFinite) (hy : (Binary.ofFloat y).IsFinite)
    (h : style.write x = style.write y) : x = y := by
  obtain ⟨negative, mantissa, scale, hx⟩ := Binary.exists_of_isFinite hx
  obtain ⟨negative', mantissa', scale', hy⟩ := Binary.exists_of_isFinite hy
  obtain ⟨hc, hbits⟩ := Binary.ofBits_finite hx
  obtain ⟨hc', hbits'⟩ := Binary.ofBits_finite hy
  rw [write_finite hx, write_finite hy, String.ofList_inj] at h
  obtain ⟨c, rest, hmagnitude, hdigit⟩ := style.magnitude_eq_cons mantissa scale
  obtain ⟨c', rest', hmagnitude', hdigit'⟩ := style.magnitude_eq_cons mantissa' scale'
  have hsign : negative = negative' := by
    rw [hmagnitude, hmagnitude'] at h
    match negative, negative' with
    | true, true | false, false => rfl
    | true, false =>
      obtain ⟨rfl, -⟩ := List.cons.inj h
      cases hdigit'
    | false, true =>
      obtain ⟨rfl, -⟩ := List.cons.inj h
      cases hdigit
  subst hsign
  have hsame : style.magnitude mantissa scale = style.magnitude mantissa' scale' := by
    cases negative
    · exact h
    · exact (List.cons.inj h).2
  refine toBits_injective (UInt64.toNat_inj.mp ?_)
  rw [hbits, hbits', magnitude_injective hc hc' hsame]

end FloatStyle
end Copione
