import Copione.Proofs.ReadNumerals
/-!
# Literals without a float

A ratio from half a step above the largest float on is rounded to an infinity. So a literal with a point is
never malformed: one that is too large denotes an infinity, for the scanner and for conversions. None of
them denotes what is no number.
-/
namespace Copione

namespace Binary

variable {num den n scale scale' : Nat}

/-- Half a step above the largest float. -/
def overflow : Nat := (2 ^ 54 - 1) * 2 ^ 970

private theorem le_roundQuotient_iff (hden : 0 < den) (heven : n % 2 = 0) :
    n ≤ roundQuotient num den ↔ den * (2 * n - 1) ≤ 2 * num := by
  have hsplit := Nat.div_add_mod num den
  have hrest := Nat.mod_lt num hden
  have hnext : den * (num / den + 1) = den * (num / den) + den := Nat.mul_succ _ _
  have hround : num / den ≤ roundQuotient num den ∧ roundQuotient num den ≤ num / den + 1 := by
    unfold roundQuotient
    dsimp only
    split <;> omega
  have hdouble : den * (2 * n - 1) = 2 * (den * n) - den := by
    rw [Nat.mul_sub, Nat.mul_one, Nat.mul_left_comm]
  rw [hdouble]
  rcases Nat.lt_trichotomy (num / den + 1) n with hlt | heq | hgt
  · have hle : den * (num / den + 2) ≤ den * n := Nat.mul_le_mul_left den hlt
    rw [Nat.mul_add] at hle
    omega
  · rw [← heq, hnext]
    unfold roundQuotient
    simp only [Bool.or_eq_true, Bool.and_eq_true, decide_eq_true_eq, beq_iff_eq]
    split <;> omega
  · have hle : den * n ≤ den * (num / den) := Nat.mul_le_mul_left den (Nat.le_of_lt_succ hgt)
    omega

private theorem scaled_lt (hden : 0 < den) (num : Nat) :
    num < den * 2 ^ ((num / den).log2 - 52) * (2 * fractions) := by
  have hlt := Nat.lt_log2_self (n := num / den)
  have hle : 2 ^ ((num / den).log2 + 1) ≤ 2 ^ ((num / den).log2 - 52) * (2 * fractions) := by
    rw [fractions_eq, ← Nat.pow_succ', ← Nat.pow_add]
    exact Nat.pow_le_pow_right (by decide) (by omega)
  rw [Nat.mul_assoc, Nat.mul_comm]
  exact (Nat.div_lt_iff_lt_mul hden).mp (Nat.lt_of_lt_of_le hlt hle)

private theorem le_scaled (hden : 0 < den) (num : Nat) (h : 0 < (num / den).log2 - 52) :
    den * 2 ^ ((num / den).log2 - 52) * fractions ≤ num := by
  have hsome : num / den ≠ 0 := fun hzero => by simp [hzero] at h
  have hge := Nat.log2_self_le hsome
  have hlog : (num / den).log2 = (num / den).log2 - 52 + 52 := by omega
  rw [hlog, Nat.pow_add, ← fractions_eq] at hge
  rw [Nat.mul_assoc, Nat.mul_comm]
  exact (Nat.le_div_iff_mul_le hden).mp hge

private theorem double_scale_le (den : Nat) (h : scale < scale') :
    2 * (den * 2 ^ scale) ≤ den * 2 ^ scale' := by
  rw [Nat.mul_left_comm, ← Nat.pow_succ']
  exact Nat.mul_le_mul_left den (Nat.pow_le_pow_right (by decide) h)

private theorem overflow_le_iff :
    overflow * den ≤ num ↔ den * 2 ^ 2045 * (4 * fractions - 1) ≤ 2 * (num * unit) := by
  have hmantissa : 4 * fractions - 1 = 2 ^ 54 - 1 := by decide
  have hscale : 2 ^ 2045 = 2 * unit * 2 ^ 970 := by decide +kernel
  have hlimit : den * 2 ^ 2045 * (4 * fractions - 1) = 2 * unit * (overflow * den) := by
    rw [hmantissa, overflow, hscale]
    generalize 2 ^ 970 = step
    ac_rfl
  have hvalue : 2 * (num * unit) = 2 * unit * num := by ac_rfl
  rw [hlimit, hvalue]
  exact (Nat.mul_le_mul_left_iff (Nat.mul_pos Nat.two_pos unit_pos)).symm

/-- A ratio is rounded to an infinity from half a step above the largest float on. -/
theorem nearestBits_eq_infinityBits_iff (hden : 0 < den) :
    nearestBits num den = infinityBits ↔ overflow * den ≤ num := by
  have hlt := scaled_lt hden (num * unit)
  have hge := le_scaled hden (num * unit)
  rw [overflow_le_iff, nearestBits]
  generalize (num * unit / den).log2 - 52 = scale at *
  have hpos : 0 < den * 2 ^ scale := Nat.mul_pos hden (Nat.two_pow_pos scale)
  have hround (n : Nat) (heven : n % 2 = 0) := @le_roundQuotient_iff (num * unit) _ n hpos heven
  rw [Nat.shiftLeft_eq, min_eq_right_iff, infinityBits]
  generalize num * unit = scaled at *
  simp only [fractions] at *
  rcases Nat.lt_trichotomy scale 2045 with hsmall | hlast | hlarge
  · have hhigh := hround (2 * 0x10000000000000 + 2) (by decide)
    have hbinade := double_scale_le den hsmall
    generalize den * 2 ^ 2045 = last at *
    omega
  · have hhigh := hround (2 * 0x10000000000000) (by decide)
    rw [← hlast]
    omega
  · have hlow := hround 0x10000000000000 (by decide)
    have hthere := hge (by omega)
    have hbinade := double_scale_le den hlarge
    generalize den * 2 ^ 2045 = last at *
    omega

private theorem ofBits_magnitude {magnitude : Nat} (negative : Bool) (h : magnitude ≤ infinityBits) :
    let b := ofBits (UInt64.ofNat ((if negative then signBit else 0) + magnitude))
    b ≠ .nan ∧ (b.IsFinite ↔ magnitude ≠ infinityBits) := by
  simp only [infinityBits, signBit, fractions] at *
  generalize hn : (if negative then 0x8000000000000000 else 0) + magnitude = n
  have hfields : n < UInt64.size ∧ (n / 0x10000000000000 % 2048 = 2047 ↔ magnitude = 2047 * 0x10000000000000) ∧
      (magnitude = 2047 * 0x10000000000000 → n % 0x10000000000000 = 0) := by
    simp only [UInt64.size]
    cases negative <;> simp only [if_true, if_false, Bool.false_eq_true] at hn <;> omega
  obtain ⟨hsize, hexponent, hfraction⟩ := hfields
  unfold ofBits
  simp only [UInt64.toNat_ofNat_of_lt' hsize, fractions, hexponent, beq_iff_eq]
  split
  · next hlast => simp [hfraction hlast, hlast, IsFinite]
  · next hless => split <;> simp [IsFinite, hless]

/-- A ratio makes a number, and a finite one if it is below the limit. -/
theorem ofRatio_isFinite_iff (negative : Bool) (hden : 0 < den) :
    (ofRatio negative num den).isNaN = false ∧
      ((ofRatio negative num den).isFinite ↔ num < overflow * den) := by
  have hle : nearestBits num den ≤ infinityBits := Nat.min_le_right _ _
  obtain ⟨hnumber, hfinite⟩ := ofBits_magnitude negative hle
  have hparts : ofFloat (ofRatio negative num den) = _ := ofFloat_ofBits _
  rw [← Bool.not_eq_true, isNaN_iff, isFinite_eq, hparts, hfinite, Ne, nearestBits_eq_infinityBits_iff hden,
    Nat.not_le]
  exact ⟨hnumber, Iff.rfl⟩

end Binary

open Numeral Text

structure ReadAs (whole fraction : List Char) (x : Float) : Prop where
  digits : ∀ d ∈ whole ++ fraction, d.isDigit
  isNumber : x.isNaN = false
  isFinite_iff : x.isFinite ↔
    Nat.ofDigitChars 10 (whole ++ fraction) 0 < Binary.overflow * 10 ^ fraction.length

private theorem readAs_toFloat {whole fraction : List Char} (negative : Bool)
    (hdigits : ∀ d ∈ whole ++ fraction, isDigit d) :
    ReadAs whole fraction (Numeral.toFloat negative whole fraction) := by
  have hden : 0 < 10 ^ fraction.length := Nat.pow_pos (by decide)
  obtain ⟨hnumber, hfinite⟩ := @Binary.ofRatio_isFinite_iff (toNat (whole ++ fraction)) _ negative hden
  rw [← Nat.pow_eq, ← Numeral.toFloat] at hnumber hfinite
  rw [toNat_eq, Nat.pow_eq] at hfinite
  exact ⟨hdigits, hnumber, hfinite⟩

namespace Tokenizes

variable {read rest : List Char} {tokens : List Token} {ending : Option CompileError}

private theorem float_readAs (h : Tokenizes read rest tokens ending) {t : Token} (ht : t ∈ tokens)
    (hkind : t.kind = .float) :
    ∃ whole fraction x, t.lexeme.toList = whole ++ '.' :: fraction ∧ t.literal = some (.float x) ∧
      ReadAs whole fraction x := by
  obtain ⟨hlexical, hliteral⟩ := h.legible ht (by simp [hkind])
  rw [hkind] at hlexical hliteral
  obtain ⟨whole, fraction, htext, -, -, hdigits⟩ := Lexical.float_iff.mp hlexical
  have hpoint : '.' ∉ whole := fun hmem => by cases hdigits _ (List.mem_append_left _ hmem)
  exact ⟨whole, fraction, _, htext, hliteral.unique (.float hpoint) htext, readAs_toFloat false hdigits⟩

private theorem malformed {e : CompileError} (h : Tokenizes read rest tokens (some e))
    (hkind : e.kind = .malformedNumericLiteral) :
    ∃ digits, Lexical digits (.token .integer) ∧ 2 ^ 63 ≤ Nat.ofDigitChars 10 digits 0 ∧
      e.message = (ScanFault.malformedNumber (String.ofList digits)).message := by
  generalize hending : some e = ending at h
  induction h with
  | eof => cases hending
  | skip _ _ _ ih | token _ _ _ ih => exact ih hending
  | stuck h =>
    obtain rfl := Option.some.inj hending
    cases h with
    | unterminated | unexpected => cases hkind
    | malformed hlongest hvalue =>
      rw [toNat_eq] at hvalue
      exact ⟨_, hlongest.lexical, hvalue, rfl⟩

end Tokenizes

namespace Token

private theorem tokenizes_of_scan_error {text : String} {e : CompileError} {held : Option (List Token)}
    (h : scan text = .error ⟨e, held⟩) :
    ∃ tokens, held = some tokens ∧ Tokenizes [] text.toList tokens (some e) := by
  have htokens := Lexeme.tokenizes_reading [] text.toList
  rw [scan_eq_reading] at h
  cases hending : (Lexeme.reading [] text.toList).2 with
  | none =>
    rw [hending] at h
    cases h
  | some error =>
    rw [hending] at h htokens
    cases h
    exact ⟨_, rfl, htokens⟩

/-- Digits on both sides of a point are a literal, for the scanner and for conversions. -/
theorem alone_of_digits {text : String} {whole fraction : List Char}
    (htext : text.toList = whole ++ '.' :: fraction) (hwhole : whole ≠ []) (hfraction : fraction ≠ [])
    (hdigits : ∀ d ∈ whole ++ fraction, isDigit d) :
    Alone text .float (.float (Numeral.toFloat false whole fraction)) ∧
      Value.parseFloat? text = some (Numeral.toFloat false whole fraction) := by
  have hpoint : '.' ∉ whole := fun hmem => by cases hdigits _ (List.mem_append_left _ hmem)
  rw [alone_iff (by decide), Value.parseFloat?_eq_some_iff, htext]
  refine ⟨⟨Lexical.float_iff.mpr ⟨whole, fraction, rfl, hwhole, hfraction, hdigits⟩, .float hpoint⟩,
    false, whole, fraction, ?_, hwhole, hdigits, rfl⟩
  rw [point, if_neg hfraction]
  exact Text.padded_self _

/-- A literal with a point is finite as long as its value is less than half a step above the largest float,
and an infinity from there on; the scanner takes it for malformed in neither case. Conversions read texts in
the same way. -/
theorem literal_isFinite_iff (text : String) :
    (∀ tokens, (scan text = .ok tokens ∨ ∃ e, scan text = .error ⟨e, some tokens⟩) →
      ∀ t ∈ tokens, t.kind = .float → ∃ whole fraction x, t.lexeme.toList = whole ++ '.' :: fraction ∧
        t.literal = some (.float x) ∧ ReadAs whole fraction x) ∧
    (∀ e held, scan text = .error ⟨e, held⟩ → e.kind = .malformedNumericLiteral →
      ∃ digits, Lexical digits (.token .integer) ∧ 2 ^ 63 ≤ Nat.ofDigitChars 10 digits 0 ∧
        e.message = (ScanFault.malformedNumber (String.ofList digits)).message) ∧
    (∀ x, Value.parseFloat? text = some x → ∃ negative whole fraction,
      Padded text.toList (minus negative ++ (whole ++ point fraction)) ∧ ReadAs whole fraction x) ∧
    ∀ whole fraction, text.toList = whole ++ '.' :: fraction → whole ≠ [] → fraction ≠ [] →
      (∀ d ∈ whole ++ fraction, d.isDigit) →
      ∃ x, Alone text .float (.float x) ∧ Value.parseFloat? text = some x ∧ ReadAs whole fraction x := by
  refine ⟨fun tokens hresult t ht hkind => ?_, fun e held hresult hkind => ?_, fun x hx => ?_,
    fun whole fraction htext hwhole hfraction hdigits => ?_⟩
  · rcases hresult with hok | ⟨e, hfault⟩
    · exact (scan_ok_iff.mp hok).float_readAs ht hkind
    · obtain ⟨_, hheld, htokens⟩ := tokenizes_of_scan_error hfault
      cases hheld
      exact htokens.float_readAs ht hkind
  · obtain ⟨_, -, htokens⟩ := tokenizes_of_scan_error hresult
    exact htokens.malformed hkind
  · obtain ⟨negative, whole, fraction, hpadded, -, hdigits, rfl⟩ := Value.parseFloat?_eq_some_iff.mp hx
    exact ⟨negative, whole, fraction, hpadded, readAs_toFloat negative hdigits⟩
  · obtain ⟨halone, hparse⟩ := alone_of_digits htext hwhole hfraction hdigits
    exact ⟨_, halone, hparse, readAs_toFloat false hdigits⟩

/-- A one with 309 zeros behind it. -/
theorem literal_isFinite_iff_beyond :
    ∃ whole text x, whole = '1' :: List.replicate 309 '0' ∧ text.toList = whole ++ ['.', '0'] ∧ whole ≠ [] ∧
      ['0'] ≠ ([] : List Char) ∧ (∀ d ∈ whole ++ ['0'], d.isDigit) ∧ Alone text .float (.float x) ∧
      Value.parseFloat? text = some x ∧ ¬x.isFinite ∧ x.isNaN = false := by
  obtain ⟨whole, hwhole⟩ : ∃ whole, whole = '1' :: List.replicate 309 '0' := ⟨_, rfl⟩
  have hsome : whole ≠ [] := hwhole ▸ List.cons_ne_nil _ _
  have hdigits : ∀ d ∈ whole ++ ['0'], d.isDigit := by
    intro d hd
    rw [hwhole, List.cons_append, ← List.replicate_succ'] at hd
    rcases List.mem_cons.mp hd with rfl | hzero
    · decide
    · rw [List.eq_of_mem_replicate hzero]
      decide
  have hlarge : Binary.overflow * 10 ^ ['0'].length ≤ Nat.ofDigitChars 10 (whole ++ ['0']) 0 := by
    rw [hwhole]
    decide +kernel
  have htext : (String.ofList (whole ++ ['.', '0'])).toList = whole ++ ['.', '0'] := String.toList_ofList
  obtain ⟨x, halone, hparse, hread⟩ :=
    (literal_isFinite_iff _).2.2.2 whole ['0'] htext hsome (by decide) hdigits
  refine ⟨whole, _, x, hwhole, htext, hsome, by decide, hdigits, halone, hparse, ?_, hread.isNumber⟩
  rw [hread.isFinite_iff, Nat.not_lt]
  exact hlarge

end Token
end Copione
