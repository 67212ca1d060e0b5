import Copione.Proofs.RejoinedLexemes
import Copione.Proofs.SexpLeaves
import Copione.Proofs.UnpackedFloats
import Copione.Value.Convert
/-!
# Numerals that are read back

Conversions and the scanner read numerals by rules of their own. They accept the same texts, apart from
blanks around a numeral and a sign in front of it, and read the same numbers. The texts of integers and
of finite floats are such numerals, and each is read back as the number that it is the text of.
-/
namespace Copione

namespace Text

variable {text inner : List Char}

def Padded (text inner : List Char) : Prop :=
  ∃ before after, text = before ++ (inner ++ after) ∧ (∀ c ∈ before, isBlank c) ∧ ∀ c ∈ after, isBlank c

theorem padded_self (text : List Char) : Padded text text := ⟨[], [], by simp, by simp, by simp⟩

private theorem padded_trim (text : List Char) : Padded text (trim text) := by
  let later := text.dropWhile isBlank
  have hlater : later = trim text ++ (later.reverse.takeWhile isBlank).reverse := by
    rw [trim, ← List.reverse_append, List.takeWhile_append_dropWhile, List.reverse_reverse]
  refine ⟨text.takeWhile isBlank, (later.reverse.takeWhile isBlank).reverse, ?_, ?_, ?_⟩
  · rw [← hlater, List.takeWhile_append_dropWhile]
  · exact fun c hc => List.mem_takeWhile_imp hc
  · exact fun c hc => List.mem_takeWhile_imp (List.mem_reverse.mp hc)

private theorem dropWhile_blanks {before rest : List Char} (hbefore : ∀ c ∈ before, isBlank c)
    (hsome : inner ≠ []) (hinner : ∀ c ∈ inner, isBlank c = false) :
    (before ++ (inner ++ rest)).dropWhile isBlank = inner ++ rest := by
  obtain ⟨c, more, rfl⟩ := List.exists_cons_of_ne_nil hsome
  rw [List.dropWhile_append_of_pos hbefore, List.cons_append,
    List.dropWhile_cons_of_neg (by simp [hinner c List.mem_cons_self])]

private theorem Padded.trim_eq (h : Padded text inner) (hsome : inner ≠ [])
    (hinner : ∀ c ∈ inner, isBlank c = false) : trim text = inner := by
  obtain ⟨before, after, rfl, hbefore, hafter⟩ := h
  have hback := @dropWhile_blanks inner.reverse after.reverse [] (by simpa using hafter) (by simpa using hsome)
    (by simpa using hinner)
  rw [List.append_nil] at hback
  rw [trim, dropWhile_blanks hbefore hsome hinner, List.reverse_append, hback, List.reverse_reverse]

private theorem isBlank_of_isDigit {c : Char} (h : Numeral.isDigit c) : isBlank c = false := by
  simp only [Numeral.isDigit, Bool.and_eq_true, decide_eq_true_eq] at h
  have hlow : 48 ≤ c.toNat := h.1
  have hhigh : c.toNat ≤ 57 := h.2
  simp only [isBlank, Bool.or_eq_false_iff, Bool.and_eq_false_iff, decide_eq_false_iff_not, beq_eq_false_iff_ne]
  omega

end Text

namespace Numeral

variable {digits text : List Char} {n : Int64} {z : Int} {negative : Bool}

/-- How an integer is spelled: digits, with a minus sign in front of them if it is negative. -/
inductive Spells : List Char → Int → Prop
  | plain {digits : List Char} (hsome : digits ≠ []) (hdigits : ∀ d ∈ digits, d.isDigit) :
    Spells digits (Nat.ofDigitChars 10 digits 0)
  | minus {digits : List Char} (hsome : digits ≠ []) (hdigits : ∀ d ∈ digits, d.isDigit) :
    Spells ('-' :: digits) (-(Nat.ofDigitChars 10 digits 0 : Int))

theorem inRange_iff : Int64.minValue.toInt ≤ z ∧ z ≤ Int64.maxValue.toInt ↔ -2 ^ 63 ≤ z ∧ z < 2 ^ 63 := by
  have hmin : Int64.minValue.toInt = -2 ^ 63 := by decide
  have hmax : Int64.maxValue.toInt = 2 ^ 63 - 1 := by decide
  omega

theorem inInt64?_eq_some_iff : inInt64? z = some n ↔ n.toInt = z := by
  rw [inInt64?]
  simp only [inRange_iff]
  constructor
  · intro h
    split at h
    · next hrange =>
      rw [← Option.some.inj h]
      exact Int64.toInt_ofInt_of_le hrange.1 hrange.2
    · cases h
  · rintro rfl
    rw [if_pos ⟨n.le_toInt, n.toInt_lt⟩, Int64.ofInt_toInt]

def minus (negative : Bool) : List Char := if negative then ['-'] else []

def point (fraction : List Char) : List Char := if fraction = [] then [] else '.' :: fraction

private theorem mem_point {fraction : List Char} {c : Char} (h : c ∈ point fraction) :
    c = '.' ∨ c ∈ fraction := by
  unfold point at h
  split at h
  · cases h
  · exact List.mem_cons.mp h

end Numeral

namespace Value

open Numeral Text

variable {s : String} {text digits whole fraction rest : List Char} {n : Int64} {x : Float} {negative : Bool}

private theorem allDigits_iff : allDigits digits ↔ digits ≠ [] ∧ ∀ d ∈ digits, isDigit d := by
  simp [allDigits]

private theorem splitSign_eq_iff :
    splitSign text = (negative, rest) ↔
      text = minus negative ++ rest ∧ (negative = false → rest.head? ≠ some '-') := by
  unfold splitSign
  split
  · cases negative
    · simp only [minus, Prod.mk.injEq, Bool.true_eq_false, false_and, false_iff]
      rintro ⟨rfl, hhead⟩
      simp at hhead
    · simp [minus]
  · next hne =>
    cases negative
    · simp only [minus, Prod.mk.injEq, true_and, Bool.false_eq_true, if_false, List.nil_append, forall_const]
      refine ⟨?_, And.left⟩
      rintro rfl
      simpa [List.head?_eq_some_iff] using hne
    · simpa [minus] using hne rest

private theorem splitSign_trim (h : Padded text (minus negative ++ (whole ++ rest)))
    (hsome : whole ≠ [])
    (hwhole : ∀ d ∈ whole, isDigit d) (hrest : ∀ c ∈ rest, isBlank c = false) :
    splitSign (trim text) = (negative, whole ++ rest) := by
  have hblank : ∀ c ∈ minus negative ++ (whole ++ rest), isBlank c = false := by
    intro c hc
    simp only [List.mem_append] at hc
    rcases hc with hc | hc | hc
    · cases negative with
      | false => cases hc
      | true => exact List.mem_singleton.mp hc ▸ rfl
    · exact isBlank_of_isDigit (hwhole c hc)
    · exact hrest c hc
  refine splitSign_eq_iff.mpr ⟨h.trim_eq (by simp [hsome]) hblank, fun _ hhead => ?_⟩
  obtain ⟨d, more, rfl⟩ := List.exists_cons_of_ne_nil hsome
  cases Option.some.inj hhead
  cases hwhole '-' List.mem_cons_self

private theorem spells_iff {z : Int} :
    Spells text z ↔ ∃ negative digits, text = minus negative ++ digits ∧ allDigits digits ∧
      (if negative then -(toNat digits : Int) else toNat digits) = z := by
  simp only [toNat_eq, allDigits_iff]
  constructor
  · intro h
    cases h with
    | plain hsome hdigits => exact ⟨false, _, rfl, ⟨hsome, hdigits⟩, rfl⟩
    | minus hsome hdigits => exact ⟨true, _, rfl, ⟨hsome, hdigits⟩, rfl⟩
  · rintro ⟨negative, digits, rfl, ⟨hsome, hdigits⟩, rfl⟩
    cases negative with
    | false => exact .plain hsome hdigits
    | true => exact .minus hsome hdigits

/-- Integers are read from the texts that spell them. -/
theorem parseInteger?_eq_some_iff :
    parseInteger? s = some n ↔ ∃ numeral, Padded s.toList numeral ∧ Spells numeral n.toInt := by
  simp only [spells_iff]
  unfold parseInteger?
  constructor
  · intro h
    cases hsplit : splitSign (trim s.toList) with
    | mk negative digits =>
    simp only [hsplit] at h
    split at h
    · next hdigits =>
      exact ⟨_, padded_trim _, negative, digits, (splitSign_eq_iff.mp hsplit).1, hdigits,
        (inInt64?_eq_some_iff.mp h).symm⟩
    · cases h
  · rintro ⟨numeral, hpadded, negative, digits, rfl, hall, hn⟩
    obtain ⟨hsome, hdigits⟩ := allDigits_iff.mp hall
    rw [← List.append_nil digits] at hpadded
    simp only [splitSign_trim hpadded hsome hdigits (by simp), List.append_nil, hall, if_true]
    exact inInt64?_eq_some_iff.mpr hn.symm

private theorem split_at_point (hdigits : ∀ d ∈ whole ++ fraction, isDigit d) :
    (whole ++ point fraction).takeWhile (· != '.') = whole ∧
      (whole ++ point fraction).dropWhile (· != '.') = point fraction := by
  have hwhole : ∀ d ∈ whole, (d != '.') = true := fun d hd =>
    bne_iff_ne.mpr (ne_of_isDigit (hdigits d (List.mem_append_left _ hd)) rfl)
  rw [List.takeWhile_append_of_pos hwhole, List.dropWhile_append_of_pos hwhole]
  unfold point
  split <;> simp

private theorem isBlank_point (hdigits : ∀ d ∈ whole ++ fraction, isDigit d) :
    ∀ c ∈ point fraction, isBlank c = false := by
  intro c hc
  rcases mem_point hc with rfl | hc
  · rfl
  · exact isBlank_of_isDigit (hdigits c (List.mem_append_right _ hc))

/-- Floats are read from digits, maybe with a point among them. -/
theorem parseFloat?_eq_some_iff :
    parseFloat? s = some x ↔ ∃ negative whole fraction,
      Padded s.toList (minus negative ++ (whole ++ point fraction)) ∧ whole ≠ [] ∧
      (∀ d ∈ whole ++ fraction, isDigit d) ∧ x = Numeral.toFloat negative whole fraction := by
  constructor
  · intro h
    unfold parseFloat? at h
    cases hsplit : splitSign (trim s.toList) with
    | mk negative unsigned =>
    have hjoin := List.takeWhile_append_dropWhile (p := (· != '.')) (l := unsigned)
    have hpadded := padded_trim s.toList
    rw [(splitSign_eq_iff.mp hsplit).1, ← hjoin] at hpadded
    simp only [hsplit] at h
    generalize unsigned.takeWhile (· != '.') = whole at *
    split at h
    · next hnone =>
      split at h
      · next hwhole =>
        obtain ⟨hsome, hdigits⟩ := allDigits_iff.mp hwhole
        rw [hnone] at hpadded
        exact ⟨negative, whole, [], hpadded, hsome, by simpa using hdigits, (Option.some.inj h).symm⟩
      · cases h
    · next c fraction hpoint =>
      split at h
      · next hboth =>
        obtain ⟨hwhole, hfraction⟩ := Bool.and_eq_true_iff.mp hboth
        obtain ⟨hsome, hdigits⟩ := allDigits_iff.mp hwhole
        obtain ⟨hmore, hmoreDigits⟩ := allDigits_iff.mp hfraction
        have hdot : c = '.' := by
          have hhead := List.head?_dropWhile_not (· != '.') unsigned
          simpa [hpoint] using hhead
        rw [hpoint, hdot] at hpadded
        refine ⟨negative, whole, fraction, ?_, hsome, ?_, (Option.some.inj h).symm⟩
        · rwa [point, if_neg hmore]
        · exact fun d hd => (List.mem_append.mp hd).elim (hdigits d) (hmoreDigits d)
      · cases h
  · rintro ⟨negative, whole, fraction, hpadded, hsome, hdigits, rfl⟩
    have hwhole : ∀ d ∈ whole, isDigit d := fun d hd => hdigits d (List.mem_append_left _ hd)
    have hfraction : ∀ d ∈ fraction, isDigit d := fun d hd => hdigits d (List.mem_append_right _ hd)
    have hall : allDigits whole := allDigits_iff.mpr ⟨hsome, hwhole⟩
    unfold parseFloat?
    simp only [splitSign_trim hpadded hsome hwhole (isBlank_point hdigits), split_at_point hdigits]
    by_cases hnone : fraction = []
    · simp [hnone, point, hall]
    · simp [hnone, point, hall, allDigits_iff.mpr ⟨hnone, hfraction⟩]

end Value

namespace Token

def Alone (text : String) (kind : TokenKind) (literal : Literal) : Prop :=
  ∃ t e, scan text = .ok [t, e] ∧ t.kind = kind ∧ t.lexeme = text ∧ t.literal = some literal ∧ e.kind = .eof

theorem alone_iff {text : String} {kind : TokenKind} {literal : Literal} (hkind : kind ≠ .eof) :
    Alone text kind literal ↔
      Lexical text.toList (.token kind) ∧ Denotes kind text.toList (some literal) := by
  constructor
  · rintro ⟨t, e, hscan, rfl, rfl, hliteral, -⟩
    have hlegible := (scan_ok_iff.mp hscan).legible List.mem_cons_self hkind
    exact ⟨hlegible.1, hliteral ▸ hlegible.2⟩
  · rintro ⟨hlexical, hliteral⟩
    have hlongest := @Lexeme.longest_of_blank text.toList [] kind _ hlexical hliteral (.inl rfl)
    have htokens := @Tokenizes.token [] _ _ _ _ _ _ hlongest hliteral .eof
    rw [List.append_nil, String.ofList_toList] at htokens
    exact ⟨_, _, scan_ok_iff.mpr htokens, rfl, rfl, rfl, rfl⟩

end Token

private theorem Lexical.integer_iff {text : List Char} :
    Lexical text (.token .integer) ↔ text ≠ [] ∧ ∀ d ∈ text, Numeral.isDigit d := by
  constructor
  · intro h
    cases h with
    | symbol hkind | keyword hkind => exact absurd hkind (by decide)
    | integer hsome hdigits => exact ⟨hsome, hdigits⟩
  · exact fun h => .integer h.1 h.2

theorem Lexical.float_iff {text : List Char} :
    Lexical text (.token .float) ↔ ∃ whole fraction, text = whole ++ '.' :: fraction ∧ whole ≠ [] ∧
      fraction ≠ [] ∧ ∀ d ∈ whole ++ fraction, Numeral.isDigit d := by
  constructor
  · intro h
    cases h with
    | symbol hkind | keyword hkind => exact absurd hkind (by decide)
    | @float whole fraction hwhole hwholeDigits hfraction hfractionDigits =>
      refine ⟨whole, fraction, rfl, hwhole, hfraction, fun d hd => ?_⟩
      exact (List.mem_append.mp hd).elim (hwholeDigits d) (hfractionDigits d)
  · rintro ⟨whole, fraction, rfl, hwhole, hfraction, hdigits⟩
    exact .float hwhole (fun d hd => hdigits d (List.mem_append_left _ hd)) hfraction
      fun d hd => hdigits d (List.mem_append_right _ hd)

namespace Value

open Numeral Text

variable {s : String} {whole rest : List Char} {n : Int64} {x : Float} {negative : Bool}

private theorem eq_of_trimmed (htrim : trim s.toList = s.toList) (hsign : s.toList.head? ≠ some '-')
    (h : Padded s.toList (minus negative ++ (whole ++ rest))) (hsome : whole ≠ [])
    (hwhole : ∀ d ∈ whole, isDigit d) (hrest : ∀ c ∈ rest, isBlank c = false) :
    negative = false ∧ s.toList = whole ++ rest := by
  have hsplit := splitSign_trim h hsome hwhole hrest
  rw [htrim] at hsplit
  have htext := (splitSign_eq_iff.mp hsplit).1
  cases negative with
  | false => exact ⟨rfl, htext⟩
  | true => exact absurd (congrArg List.head? htext) hsign

private theorem parseInteger?_iff_alone (htrim : trim s.toList = s.toList)
    (hsign : s.toList.head? ≠ some '-') :
    parseInteger? s = some n ↔ Token.Alone s .integer (.int n) := by
  rw [Token.alone_iff (by decide), Lexical.integer_iff, parseInteger?_eq_some_iff]
  constructor
  · rintro ⟨numeral, hpadded, hspells⟩
    obtain ⟨negative, digits, rfl, hall, hvalue⟩ := spells_iff.mp hspells
    obtain ⟨hsome, hdigits⟩ := allDigits_iff.mp hall
    rw [← List.append_nil digits] at hpadded
    obtain ⟨rfl, htext⟩ := eq_of_trimmed htrim hsign hpadded hsome hdigits (by simp)
    rw [List.append_nil] at htext
    rw [htext]
    exact ⟨⟨hsome, hdigits⟩, .integer hvalue.symm⟩
  · rintro ⟨⟨hsome, hdigits⟩, hliteral⟩
    cases hliteral with
    | integer hvalue =>
      rw [toNat_eq] at hvalue
      exact ⟨_, padded_self _, hvalue ▸ .plain hsome hdigits⟩

private theorem parseFloat?_iff_alone (htrim : trim s.toList = s.toList)
    (hsign : s.toList.head? ≠ some '-')
    (hpoint : '.' ∈ s.toList) : parseFloat? s = some x ↔ Token.Alone s .float (.float x) := by
  have hnotMem {digits : List Char} (h : ∀ d ∈ digits, isDigit d) : '.' ∉ digits := fun hmem => by
    cases h _ hmem
  rw [Token.alone_iff (by decide), Lexical.float_iff, parseFloat?_eq_some_iff]
  constructor
  · rintro ⟨negative, whole, fraction, hpadded, hsome, hdigits, rfl⟩
    have hwhole : ∀ d ∈ whole, isDigit d := fun d hd => hdigits d (List.mem_append_left _ hd)
    obtain ⟨rfl, htext⟩ := eq_of_trimmed htrim hsign hpadded hsome hwhole (isBlank_point hdigits)
    have hmore : fraction ≠ [] := by
      rintro rfl
      rw [htext] at hpoint
      exact hnotMem hdigits hpoint
    rw [point, if_neg hmore] at htext
    rw [htext]
    exact ⟨⟨whole, fraction, rfl, hsome, hmore, hdigits⟩, .float (hnotMem hwhole)⟩
  · rintro ⟨⟨whole, fraction, htext, hsome, hmore, hdigits⟩, hliteral⟩
    have hwhole : ∀ d ∈ whole, isDigit d := fun d hd => hdigits d (List.mem_append_left _ hd)
    have hvalue := hliteral.unique (.float (hnotMem hwhole)) htext
    refine ⟨false, whole, fraction, ?_, hsome, hdigits, by simpa using hvalue⟩
    rw [point, if_neg hmore, ← htext]
    exact padded_self _

private theorem parseInteger?_toString (n : Int64) : parseInteger? (toString n) = some n := by
  refine parseInteger?_eq_some_iff.mpr ⟨_, padded_self _, ?_⟩
  have hspells (m : Nat) : Nat.toDigits 10 m ≠ [] ∧ ∀ d ∈ Nat.toDigits 10 m, d.isDigit :=
    ⟨Nat.toDigits_ne_nil, fun d => isDigit_of_mem_toDigits⟩
  rw [toList_int64]
  split
  · have h := Spells.plain (hspells n.toInt.toNat).1 (hspells n.toInt.toNat).2
    rwa [Nat.ofDigitChars_ten_toDigits, Int.toNat_of_nonneg ‹_›] at h
  · have h := Spells.minus (hspells (-n.toInt).toNat).1 (hspells (-n.toInt).toNat).2
    rwa [Nat.ofDigitChars_ten_toDigits, Int.toNat_of_nonneg (by omega), Int.neg_neg] at h

/-- Conversions read the integers that are spelled between blanks and are in range, and so the texts of all
integers. Of a text without blanks around it and without a sign, they read what the scanner reads if it is
one number. -/
theorem numerals_agree (s : String) :
    (∀ z : Int, (parseInteger? s).map Int64.toInt = some z ↔
      (∃ numeral, Padded s.toList numeral ∧ Spells numeral z) ∧ -2 ^ 63 ≤ z ∧ z ≤ 2 ^ 63 - 1) ∧
    (∀ n : Int64, parseInteger? (Value.int n).display = some n) ∧
    (trim s.toList = s.toList → s.toList.head? ≠ some '-' →
      (∀ n : Int64, parseInteger? s = some n ↔ Token.Alone s .integer (.int n)) ∧
      ('.' ∈ s.toList → ∀ x : Float, parseFloat? s = some x ↔ Token.Alone s .float (.float x))) := by
  refine ⟨fun z => ?_, parseInteger?_toString, fun htrim hsign => ⟨fun n => ?_, fun hpoint x => ?_⟩⟩
  · rw [Option.map_eq_some_iff]
    constructor
    · rintro ⟨n, hn, rfl⟩
      exact ⟨parseInteger?_eq_some_iff.mp hn, n.le_toInt, Int.le_sub_one_of_lt n.toInt_lt⟩
    · rintro ⟨hspells, hlow, hhigh⟩
      have hvalue : (Int64.ofInt z).toInt = z := Int64.toInt_ofInt_of_le hlow (by omega)
      exact ⟨Int64.ofInt z, parseInteger?_eq_some_iff.mpr (by rwa [hvalue]), hvalue⟩
  · exact parseInteger?_iff_alone htrim hsign
  · exact parseFloat?_iff_alone htrim hsign hpoint

/-- Zeros on both ends. -/
theorem numerals_agree_with_zeros :
    trim "007.50".toList = "007.50".toList ∧ "007.50".toList.head? ≠ some '-' ∧ '.' ∈ "007.50".toList ∧
      parseFloat? "007.50" = some (Float.ofBits 0x401E000000000000) ∧
      Token.Alone "007.50" .float (.float (Float.ofBits 0x401E000000000000)) := by
  have htrim : trim "007.50".toList = "007.50".toList := by decide
  have hsign : "007.50".toList.head? ≠ some '-' := by decide
  have hpoint : '.' ∈ "007.50".toList := by decide
  have hread : parseFloat? "007.50" = some (Float.ofBits 0x401E000000000000) := by decide +kernel
  exact ⟨htrim, hsign, hpoint, hread, (((numerals_agree "007.50").2.2 htrim hsign).2 hpoint _).mp hread⟩

/-- The text of a finite float is its shortest decimal, with digits on both sides of the point. -/
theorem display_float {mantissa scale : Nat} (h : Binary.ofFloat x = .finite negative mantissa scale) :
    ∃ whole fraction, (Value.float x).display.toList = minus negative ++ (whole ++ '.' :: fraction) ∧
      (Decimal.shortest .up mantissa scale).Denotes whole fraction := by
  obtain ⟨whole, fraction, htext, hdenotes⟩ := (Decimal.shortest .up mantissa scale).positional_denotes
  refine ⟨whole, fraction, ?_, hdenotes⟩
  show (floatStyle.write x).toList = _
  have hmagnitude : floatStyle.magnitude mantissa scale = whole ++ '.' :: fraction := htext
  rw [FloatStyle.write_finite h, String.toList_ofList, hmagnitude]
  cases negative <;> rfl

/-- What denotes the shortest decimal of a float stands for the float. -/
theorem toFloat_of_denotes {mantissa scale : Nat} {whole fraction : List Char}
    (h : Binary.ofFloat x = .finite negative mantissa scale)
    (hdenotes : (Decimal.shortest .up mantissa scale).Denotes whole fraction) :
    Numeral.toFloat negative whole fraction = x := by
  obtain ⟨hc, hbits⟩ := Binary.ofBits_finite h
  rw [Numeral.toFloat, Binary.ofRatio, Nat.pow_eq, hdenotes.nearestBits hc, ← hbits, UInt64.ofNat_toNat,
    Float.ofBits_toBits]

/-- A finite float is read back from its text, and no other float has this text. -/
theorem display_float_reads_back (x : Float) (hx : x.isFinite) :
    (∃ negative whole fraction, (Value.float x).display.toList = minus negative ++ (whole ++ '.' :: fraction) ∧
      whole ≠ [] ∧ fraction ≠ [] ∧ ∀ d ∈ whole ++ fraction, d.isDigit) ∧
    toFloat (.str (Value.float x).display) = .ok x ∧
    ∀ y : Float, y.isFinite → x.toBits ≠ y.toBits → (Value.float x).display ≠ (Value.float y).display := by
  rw [Binary.isFinite_eq] at hx
  obtain ⟨negative, mantissa, scale, hparts⟩ := Binary.exists_of_isFinite hx
  obtain ⟨whole, fraction, htext, hdenotes⟩ := display_float hparts
  refine ⟨⟨negative, whole, fraction, htext, hdenotes.whole_ne, hdenotes.fraction_ne, hdenotes.digits⟩, ?_, ?_⟩
  · have hread : parseFloat? (Value.float x).display = some x := by
      have hx := (toFloat_of_denotes hparts hdenotes).symm
      refine parseFloat?_eq_some_iff.mpr ⟨negative, whole, fraction, ?_, hdenotes.whole_ne, hdenotes.digits, hx⟩
      rw [point, if_neg hdenotes.fraction_ne, ← htext]
      exact padded_self _
    simp only [toFloat, hread]
  · intro y hy hbits hsame
    rw [Binary.isFinite_eq] at hy
    exact hbits (congrArg Float.toBits (floatStyle.write_injective hx hy hsame))

/-- The least float above zero, and the two zeros. -/
theorem display_float_reads_back_tiny :
    (Float.ofBits 1).isFinite ∧
      toFloat (.str (Value.float (Float.ofBits 1)).display) = .ok (Float.ofBits 1) ∧
      (Float.ofBits 0).isFinite ∧ (Float.ofBits 0x8000000000000000).isFinite ∧
      (Value.float (Float.ofBits 0)).display ≠ (Value.float (Float.ofBits 0x8000000000000000)).display := by
  have hone : (Float.ofBits 1).isFinite := by decide
  have hzero : (Float.ofBits 0).isFinite := by decide
  have hminus : (Float.ofBits 0x8000000000000000).isFinite := by decide
  exact ⟨hone, (display_float_reads_back _ hone).2.1, hzero, hminus,
    (display_float_reads_back _ hzero).2.2 _ hminus (by decide)⟩

end Value
end Copione
