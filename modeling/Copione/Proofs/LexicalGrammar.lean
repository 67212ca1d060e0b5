import Copione.Proofs.Tiling
/-!
# The lexical grammar

Which texts are lexemes, without a word on how they are found. The lexeme that a scanner reads is the
longest one that the text begins with, and where it reports a fault the grammar has no token.
-/
namespace Copione

inductive LexemeClass where
  | whitespace
  | comment
  | token (kind : TokenKind)
  deriving DecidableEq

def TokenKind.symbols : List TokenKind :=
  [.leftParen, .rightParen, .leftBrace, .rightBrace, .comma, .dot, .minus, .plus, .semicolon, .slash,
    .star, .atSign, .bang, .bangEqual, .equal, .equalEqual, .greater, .greaterEqual, .less, .lessEqual,
    .ampersand, .ampersandAmpersand, .pipe, .pipePipe, .caret, .caretCaret]

/-- The lexemes. A word is a keyword if it is spelled like one. -/
inductive Lexical : List Char → LexemeClass → Prop
  | whitespace {c : Char} (hc : c ∈ [' ', '\t', '\r', '\n']) : Lexical [c] .whitespace
  | comment {body : List Char} (hbody : '\n' ∉ body) : Lexical ('-' :: '-' :: body) .comment
  | symbol {kind : TokenKind} (h : kind ∈ TokenKind.symbols) : Lexical kind.text.toList (.token kind)
  | integer {digits : List Char} (hsome : digits ≠ []) (hdigits : ∀ d ∈ digits, d.isDigit) :
    Lexical digits (.token .integer)
  | float {whole fraction : List Char} (hwhole : whole ≠ []) (hwholeDigits : ∀ d ∈ whole, d.isDigit)
    (hfraction : fraction ≠ []) (hfractionDigits : ∀ d ∈ fraction, d.isDigit) :
    Lexical (whole ++ '.' :: fraction) (.token .float)
  | keyword {kind : TokenKind} (h : kind ∈ TokenKind.keywords) : Lexical kind.text.toList (.token kind)
  | identifier {c : Char} {more : List Char} (hc : c.isAlpha ∨ c = '_')
    (hmore : ∀ d ∈ more, d.isAlphanum ∨ d = '_')
    (hkeyword : ∀ kind ∈ TokenKind.keywords, kind.text.toList ≠ c :: more) :
    Lexical (c :: more) (.token .identifier)
  | string {body : List Char} (hquote : '"' ∉ body) (hnewline : '\n' ∉ body) :
    Lexical ('"' :: body ++ ['"']) (.token .string)

/-- What a lexeme that is a token denotes. The digits of an integer denote one only if it is in
range. -/
inductive Denotes : TokenKind → List Char → Option Literal → Prop
  | integer {digits : List Char} {n : Int64} (h : n.toInt = Numeral.toNat digits) :
    Denotes .integer digits (some (.int n))
  | float {whole fraction : List Char} (h : '.' ∉ whole) :
    Denotes .float (whole ++ '.' :: fraction) (some (.float (Numeral.toFloat false whole fraction)))
  | string {body : List Char} :
    Denotes .string ('"' :: body ++ ['"']) (some (.str (String.ofList body)))
  | identifier {text : List Char} : Denotes .identifier text (some (.str (String.ofList text)))
  | nothing {kind : TokenKind} {text : List Char}
    (h : kind ∉ [.integer, .float, .string, .identifier]) : Denotes kind text none

structure Longest (text lexeme : List Char) (found : LexemeClass) : Prop where
  lexical : Lexical lexeme found
  begins : lexeme <+: text
  length_le : ∀ {other : List Char} {c : LexemeClass}, Lexical other c → other <+: text →
    other.length ≤ lexeme.length

/-- Why no token can be read where `rest` comes after `lexeme`. -/
inductive Stuck : List Char → List Char → ScanFault → Prop
  | unterminated {body rest : List Char} (hquote : '"' ∉ body) (hnewline : '\n' ∉ body)
    (hrest : rest = [] ∨ rest.head? = some '\n') : Stuck ('"' :: body) rest .unterminatedString
  | malformed {digits rest : List Char} (h : Longest (digits ++ rest) digits (.token .integer))
    (hvalue : 0x8000000000000000 ≤ Numeral.toNat digits) :
    Stuck digits rest (.malformedNumber (String.ofList digits))
  | unexpected {c : Char} {rest : List Char} (hquote : c ≠ '"')
    (hnone : ∀ lexeme found, Lexical lexeme found → ¬ lexeme <+: c :: rest) :
    Stuck [c] rest (.unexpectedCharacter c)

/-- The class of what a scanner reads, if it is a lexeme. Too large an integer is one. -/
def Meaning.class? : Meaning → Option LexemeClass
  | .blank | .newline => some .whitespace
  | .comment => some .comment
  | .token kind _ => some (.token kind)
  | .fault (.malformedNumber _) => some (.token .integer)
  | .fault _ => none

private theorem split_at_dot {whole whole' fraction fraction' : List Char} (h : '.' ∉ whole)
    (h' : '.' ∉ whole') (heq : whole ++ '.' :: fraction = whole' ++ '.' :: fraction') :
    whole = whole' ∧ fraction = fraction' := by
  have htake {w f : List Char} (hw : '.' ∉ w) : (w ++ '.' :: f).takeWhile (· != '.') = w := by
    rw [List.takeWhile_append_of_pos (by simpa using fun a ha (hd : a = '.') => hw (hd ▸ ha))]
    simp
  obtain rfl : whole = whole' := by rw [← htake h, heq, htake h']
  simpa using heq

theorem Denotes.unique {kind : TokenKind} {text text' : List Char} {a b : Option Literal}
    (ha : Denotes kind text a) (hb : Denotes kind text' b) (htext : text = text') : a = b := by
  cases ha with
  | integer ha =>
    cases hb with
    | integer hb =>
      rw [Int64.toInt_inj.mp (ha.trans (htext ▸ hb.symm))]
    | nothing hb => simp at hb
  | @float whole fraction ha =>
    cases hb with
    | @float whole' fraction' hb =>
      obtain ⟨rfl, rfl⟩ := split_at_dot ha hb htext
      rfl
    | nothing hb => simp at hb
  | string =>
    cases hb with
    | string => simp_all
    | nothing hb => simp at hb
  | identifier =>
    cases hb with
    | identifier => rw [htext]
    | nothing hb => simp at hb
  | nothing ha =>
    cases hb with
    | nothing hb => rfl
    | _ => simp at ha

theorem Denotes.integer_lt {digits : List Char} {literal : Option Literal}
    (h : Denotes .integer digits literal) : Numeral.toNat digits < 0x8000000000000000 := by
  cases h with
  | @integer _ n hn =>
    have := n.toInt_lt
    omega
  | nothing hn => simp at hn

namespace Lexeme

private theorem isNamePart_of_isDigit {c : Char} (h : Numeral.isDigit c) : Scanner.isNamePart c := by
  have h : c.isDigit := h
  simp [Scanner.isNamePart, Char.isAlphanum, h]

theorem isNamePart_of_isNameStart {c : Char} (h : Scanner.isNameStart c) : Scanner.isNamePart c := by
  simp only [Scanner.isNameStart, Bool.or_eq_true] at h
  simp only [Scanner.isNamePart, Char.isAlphanum, Bool.or_eq_true]
  exact h.imp_left .inl

theorem not_isDigit_of_isNameStart {c : Char} (h : Scanner.isNameStart c) :
    Numeral.isDigit c = false := by
  have halpha : c.isAlpha = (decide (c.val ≥ 'A'.val ∧ c.val ≤ 'Z'.val) ||
      decide (c.val ≥ 'a'.val) && decide (c.val ≤ 'z'.val)) := rfl
  simp only [Scanner.isNameStart, halpha, Bool.or_eq_true, Bool.and_eq_true, decide_eq_true_eq, ge_iff_le,
    UInt32.le_iff_toNat_le, beq_iff_eq] at h
  simp only [Numeral.isDigit, Char.le_def, UInt32.le_iff_toNat_le, Bool.and_eq_false_iff,
    decide_eq_false_iff_not]
  rcases h with (h | h) | rfl
  · simp at *
    omega
  · simp at *
    omega
  · decide

private theorem first_of_isNamePart {c : Char} (hc : Scanner.isNamePart c) (rest : List Char) :
    first c rest = if Numeral.isDigit c then ofDigit c rest
      else if Scanner.isNameStart c then ofLetter c rest
      else ofChar c (.fault (.unexpectedCharacter c)) := by
  have hne {d : Char} (hd : Scanner.isNamePart d = false) : (c == d) = false := by
    rw [beq_eq_false_iff_ne]
    rintro rfl
    rw [hc] at hd
    cases hd
  have hsingle : TokenKind.single? c = none := by
    unfold TokenKind.single?
    split <;> first | rfl | exact absurd hc (by decide)
  have hdouble : TokenKind.double? c = none := by
    unfold TokenKind.double?
    split <;> first | rfl | exact absurd hc (by decide)
  simp only [first, hsingle, hdouble, hne (d := ' ') rfl, hne (d := '\t') rfl, hne (d := '\r') rfl,
    hne (d := '\n') rfl, hne (d := '-') rfl, hne (d := '"') rfl, Bool.or_self, Bool.false_eq_true,
    if_false]

private theorem first_of_isDigit {c : Char} (hc : Numeral.isDigit c) (rest : List Char) :
    first c rest = ofDigit c rest := by
  rw [first_of_isNamePart (isNamePart_of_isDigit hc), if_pos hc]

theorem first_of_isNameStart {c : Char} (hc : Scanner.isNameStart c) (rest : List Char) :
    first c rest = ofLetter c rest := by
  rw [first_of_isNamePart (isNamePart_of_isNameStart hc), if_neg (by simp [not_isDigit_of_isNameStart hc]),
    if_pos hc]

private theorem first_of_single {c : Char} {kind : TokenKind} (h : TokenKind.single? c = some kind)
    (rest : List Char) : first c rest = ofChar c (.token kind none) := by
  unfold TokenKind.single? at h
  split at h <;> cases h <;> rfl

private theorem first_of_double {c second : Char} {single double : TokenKind}
    (h : TokenKind.double? c = some (second, single, double)) (rest : List Char) :
    first c rest = ofPair c second single double rest := by
  unfold TokenKind.double? at h
  split at h <;> cases h <;> rfl

theorem first_dash (rest : List Char) : first '-' rest = ofDash rest := rfl

theorem first_quote (rest : List Char) : first '"' rest = ofQuote rest := rfl

/-- What a scanner reads is longer than a lexeme, or it is as long and of the same class. -/
def Covers (l : Lexeme) (lexeme : List Char) (found : LexemeClass) : Prop :=
  lexeme.length < l.text.length ∧ l.meaning.class?.isSome ∨
    lexeme.length = l.text.length ∧ l.meaning.class? = some found

private theorem covers_of_le {l : Lexeme} {lexeme : List Char} {found : LexemeClass}
    (h : l.meaning.class? = some found) (hle : lexeme.length ≤ l.text.length) :
    l.Covers lexeme found := by
  rcases Nat.lt_or_eq_of_le hle with hlt | heq
  · exact .inl ⟨hlt, by rw [h]; rfl⟩
  · exact .inr ⟨heq, h⟩

private theorem prefix_takeWhile {p : Char → Bool} {body rest : List Char} (h : body <+: rest)
    (hbody : ∀ c ∈ body, p c) : body <+: rest.takeWhile p := by
  obtain ⟨more, rfl⟩ := h
  rw [List.takeWhile_append_of_pos hbody]
  exact List.prefix_append _ _

private theorem symbol_cases {kind : TokenKind} (h : kind ∈ TokenKind.symbols) :
    (∃ c, kind.text.toList = [c] ∧ TokenKind.single? c = some kind) ∨
      (∃ c second double, kind.text.toList = [c] ∧
        TokenKind.double? c = some (second, kind, double)) ∨
      (∃ c second single, kind.text.toList = [c, second] ∧
        TokenKind.double? c = some (second, single, kind)) ∨
      kind = .minus := by
  cases kind <;> first
    | exact absurd h (by decide)
    | exact .inl ⟨_, rfl, rfl⟩
    | exact .inr (.inl ⟨_, _, _, rfl, rfl⟩)
    | exact .inr (.inr (.inl ⟨_, _, _, rfl, rfl⟩))
    | exact .inr (.inr (.inr rfl))

private theorem covers_symbol {kind : TokenKind} {c : Char} {rest : List Char}
    (h : kind ∈ TokenKind.symbols) (hbegins : kind.text.toList <+: c :: rest) :
    (first c rest).Covers kind.text.toList (.token kind) := by
  rcases symbol_cases h with ⟨d, htext, hd⟩ | ⟨d, second, double, htext, hd⟩ |
    ⟨d, second, single, htext, hd⟩ | rfl
  · rw [htext] at hbegins ⊢
    obtain ⟨rfl, -⟩ := List.cons_prefix_cons.mp hbegins
    rw [first_of_single hd]
    exact .inr ⟨rfl, rfl⟩
  · rw [htext] at hbegins ⊢
    obtain ⟨rfl, -⟩ := List.cons_prefix_cons.mp hbegins
    rw [first_of_double hd, ofPair]
    split
    · exact .inl ⟨by simp, rfl⟩
    · exact .inr ⟨rfl, rfl⟩
  · rw [htext] at hbegins ⊢
    obtain ⟨rfl, hsecond⟩ := List.cons_prefix_cons.mp hbegins
    obtain ⟨more, rfl⟩ := hsecond
    rw [first_of_double hd, ofPair, List.singleton_append, List.head?_cons, if_pos rfl]
    exact .inr ⟨rfl, rfl⟩
  · have htext : TokenKind.minus.text.toList = ['-'] := rfl
    rw [htext] at hbegins ⊢
    obtain ⟨rfl, -⟩ := List.cons_prefix_cons.mp hbegins
    rw [first_dash, ofDash]
    split
    · exact .inl ⟨by simp, rfl⟩
    · exact .inr ⟨rfl, rfl⟩

private theorem ofInteger_class? (digits : List Char) (room : Nat) :
    (ofInteger digits room).meaning.class? = some (.token .integer) := by
  unfold ofInteger
  split <;> rfl

private theorem covers_integer {c : Char} {digits rest : List Char}
    (hdigits : ∀ d ∈ c :: digits, Numeral.isDigit d) (hbegins : digits <+: rest) :
    (first c rest).Covers (c :: digits) (.token .integer) := by
  have hle := (prefix_takeWhile hbegins fun d hd => hdigits d (List.mem_cons_of_mem c hd)).length_le
  rw [first_of_isDigit (hdigits c List.mem_cons_self)]
  by_cases hpoint : (rest.dropWhile Numeral.isDigit).head? = some '.'
  · obtain ⟨more, hmore⟩ := List.head?_eq_some_iff.mp hpoint
    by_cases hfraction : more.takeWhile Numeral.isDigit = []
    · rw [ofDigit_of_point hmore hfraction]
      exact covers_of_le (ofInteger_class? _ _) (by simpa using hle)
    · rw [ofDigit_of_fraction hmore hfraction]
      exact .inl ⟨by simp; omega, rfl⟩
  · rw [ofDigit_of_no_point hpoint]
    exact covers_of_le (ofInteger_class? _ _) (by simpa using hle)

private theorem covers_float {c : Char} {whole fraction more : List Char}
    (hwhole : ∀ d ∈ c :: whole, Numeral.isDigit d) (hfraction : fraction ≠ [])
    (hfractionDigits : ∀ d ∈ fraction, Numeral.isDigit d) :
    (first c (whole ++ '.' :: (fraction ++ more))).Covers (c :: (whole ++ '.' :: fraction))
      (.token .float) := by
  have hrest : ∀ d ∈ whole, Numeral.isDigit d := fun d hd => hwhole d (List.mem_cons_of_mem c hd)
  have hpoint : Numeral.isDigit '.' = false := by decide
  have htake : (whole ++ '.' :: (fraction ++ more)).takeWhile Numeral.isDigit = whole := by
    rw [List.takeWhile_append_of_pos hrest, List.takeWhile_cons_of_neg (by simp [hpoint]), List.append_nil]
  have hdrop : (whole ++ '.' :: (fraction ++ more)).dropWhile Numeral.isDigit =
      '.' :: (fraction ++ more) := by
    rw [List.dropWhile_append_of_pos hrest, List.dropWhile_cons_of_neg (by simp [hpoint])]
  have hdigits : (fraction ++ more).takeWhile Numeral.isDigit = fraction ++ more.takeWhile Numeral.isDigit :=
    List.takeWhile_append_of_pos hfractionDigits
  rw [first_of_isDigit (hwhole c List.mem_cons_self), ofDigit_of_fraction hdrop (by simp [hdigits, hfraction]),
    htake, hdigits]
  exact covers_of_le rfl (by simp)

private theorem covers_word {c : Char} {more rest : List Char} {kind : TokenKind}
    (hc : Scanner.isNameStart c) (hmore : ∀ d ∈ more, Scanner.isNamePart d) (hbegins : more <+: rest)
    (hkind : (TokenKind.keyword? (String.ofList (c :: more))).getD .identifier = kind) :
    (first c rest).Covers (c :: more) (.token kind) := by
  have hwhole := prefix_takeWhile hbegins hmore
  rw [first_of_isNameStart hc, ofLetter]
  rcases Nat.lt_or_eq_of_le hwhole.length_le with hlt | heq
  · left
    split <;> exact ⟨by simpa using hlt, rfl⟩
  · right
    rw [← hwhole.eq_of_length heq]
    split
    · next hkeyword => exact ⟨rfl, by rw [← hkind, hkeyword]; rfl⟩
    · next hkeyword => exact ⟨rfl, by rw [← hkind, hkeyword]; rfl⟩

theorem keyword?_eq_none {text : List Char} (h : ∀ kind ∈ TokenKind.keywords, kind.text.toList ≠ text) :
    TokenKind.keyword? (String.ofList text) = none := by
  refine List.find?_eq_none.mpr fun kind hkind heq => h kind hkind ?_
  rw [eq_of_beq heq, String.toList_ofList]

private theorem keyword_spelled {kind : TokenKind} (h : kind ∈ TokenKind.keywords) :
    ∃ c more, kind.text.toList = c :: more ∧ Scanner.isNameStart c ∧
      (∀ d ∈ more, Scanner.isNamePart d) ∧ TokenKind.keyword? (String.ofList (c :: more)) = some kind := by
  cases kind <;> first
    | exact absurd h (by decide)
    | exact ⟨_, _, rfl, by decide, List.all_eq_true.mp (by decide), by decide⟩

private theorem covers_string {body more : List Char} (hquote : '"' ∉ body) (hnewline : '\n' ∉ body) :
    (first '"' (body ++ '"' :: more)).Covers ('"' :: body ++ ['"']) (.token .string) := by
  have hbody : ∀ c ∈ body, inString c := by
    intro c hc
    simp only [inString, bne_iff_ne, Bool.and_eq_true]
    exact ⟨fun h => hquote (h ▸ hc), fun h => hnewline (h ▸ hc)⟩
  have hend : inString '"' = false := by decide
  have htake : (body ++ '"' :: more).takeWhile inString = body := by
    rw [List.takeWhile_append_of_pos hbody, List.takeWhile_cons_of_neg (by simp [hend]), List.append_nil]
  have hdrop : (body ++ '"' :: more).dropWhile inString = '"' :: more := by
    rw [List.dropWhile_append_of_pos hbody, List.dropWhile_cons_of_neg (by simp [hend])]
  rw [first_quote, ofQuote, htake, hdrop, List.head?_cons, if_pos rfl]
  exact .inr ⟨rfl, rfl⟩

/-- Among the lexemes that a text begins with, none is longer than what a scanner reads. -/
theorem covers_of_lexical {c : Char} {rest lexeme : List Char} {found : LexemeClass}
    (h : Lexical lexeme found) (hbegins : lexeme <+: c :: rest) :
    (first c rest).Covers lexeme found := by
  cases h with
  | @whitespace d hd =>
    obtain ⟨rfl, -⟩ := List.cons_prefix_cons.mp hbegins
    simp only [List.mem_cons, List.not_mem_nil, or_false] at hd
    rcases hd with rfl | rfl | rfl | rfl <;> exact .inr ⟨rfl, rfl⟩
  | @comment body hbody =>
    obtain ⟨rfl, hrest⟩ := List.cons_prefix_cons.mp hbegins
    obtain ⟨more, rfl⟩ := hrest
    have hin : ∀ c ∈ body, (c != '\n') = true := by
      intro c hc
      simp only [bne_iff_ne]
      exact fun h => hbody (h ▸ hc)
    have hle := (prefix_takeWhile (List.prefix_append body more) hin).length_le
    rw [first_dash, ofDash, List.cons_append, List.head?_cons, if_pos rfl]
    exact covers_of_le rfl (by simpa using hle)
  | symbol hkind => exact covers_symbol hkind hbegins
  | @integer digits hsome hdigits =>
    obtain ⟨d, digits, rfl⟩ := List.exists_cons_of_ne_nil hsome
    obtain ⟨rfl, hrest⟩ := List.cons_prefix_cons.mp hbegins
    exact covers_integer hdigits hrest
  | @float whole fraction hwhole hwholeDigits hfraction hfractionDigits =>
    obtain ⟨d, whole, rfl⟩ := List.exists_cons_of_ne_nil hwhole
    rw [List.cons_append] at hbegins ⊢
    obtain ⟨rfl, more, hmore⟩ := List.cons_prefix_cons.mp hbegins
    rw [List.append_assoc, List.cons_append] at hmore
    rw [← hmore]
    exact covers_float hwholeDigits hfraction hfractionDigits
  | keyword hkind =>
    obtain ⟨d, more, htext, hd, hmore, hkeyword⟩ := keyword_spelled hkind
    rw [htext] at hbegins ⊢
    obtain ⟨rfl, hrest⟩ := List.cons_prefix_cons.mp hbegins
    exact covers_word hd hmore hrest (by rw [hkeyword]; rfl)
  | @identifier d more hd hmore hkeyword =>
    obtain ⟨rfl, hrest⟩ := List.cons_prefix_cons.mp hbegins
    refine covers_word (by simpa [Scanner.isNameStart] using hd)
      (fun e he => by simpa [Scanner.isNamePart] using hmore e he) hrest ?_
    rw [keyword?_eq_none hkeyword]
    rfl
  | @string body hquote hnewline =>
    rw [List.cons_append] at hbegins
    obtain ⟨rfl, more, hmore⟩ := List.cons_prefix_cons.mp hbegins
    rw [List.append_assoc, List.singleton_append] at hmore
    rw [← hmore]
    exact covers_string hquote hnewline

def InGrammar (l : Lexeme) : Prop :=
  match l.meaning with
  | .blank | .newline => Lexical l.text .whitespace
  | .comment => Lexical l.text .comment
  | .token kind literal => Lexical l.text (.token kind) ∧ Denotes kind l.text literal
  | .fault _ => True

private theorem symbol_inGrammar {kind : TokenKind} {text : List Char} (h : kind ∈ TokenKind.symbols)
    (htext : kind.text.toList = text) :
    Lexical text (.token kind) ∧ Denotes kind text none := by
  refine ⟨htext ▸ .symbol h, .nothing ?_⟩
  revert h
  cases kind <;> decide

private theorem ofPair_inGrammar {c second : Char} {single double : TokenKind}
    (h : TokenKind.double? c = some (second, single, double)) (rest : List Char) :
    (ofPair c second single double rest).InGrammar := by
  unfold ofPair
  split
  · refine @symbol_inGrammar double _ ?_ ?_ <;>
      unfold TokenKind.double? at h <;> split at h <;> cases h <;> decide
  · refine @symbol_inGrammar single _ ?_ ?_ <;>
      unfold TokenKind.double? at h <;> split at h <;> cases h <;> decide

private theorem ofQuote_inGrammar (rest : List Char) : (ofQuote rest).InGrammar := by
  unfold ofQuote
  dsimp only
  split
  · refine ⟨.string ?_ ?_, .string⟩
    · exact notMem_takeWhile (by decide) rest
    · exact notMem_takeWhile (by decide) rest
  · trivial

private theorem toInt_of_toInt64? {digits : List Char} {n : Int64}
    (h : Numeral.toInt64? false digits = some n) : n.toInt = Numeral.toNat digits := by
  simp only [Numeral.toInt64?, Numeral.inInt64?, Bool.false_eq_true, if_false] at h
  split at h
  · next hrange =>
    obtain rfl := Option.some.inj h
    rw [← Int64.ofIntLE_eq_ofInt hrange.1 hrange.2, Int64.toInt_ofIntLE]
  · cases h

private theorem ofInteger_inGrammar {digits : List Char} (hsome : digits ≠ [])
    (hdigits : ∀ d ∈ digits, Numeral.isDigit d) (room : Nat) : (ofInteger digits room).InGrammar := by
  unfold ofInteger
  split
  · next n hn => exact ⟨.integer hsome hdigits, .integer (toInt_of_toInt64? hn)⟩
  · trivial

private theorem ofDigit_inGrammar {c : Char} (hc : Numeral.isDigit c) (rest : List Char) :
    (ofDigit c rest).InGrammar := by
  have hwhole : ∀ d ∈ c :: rest.takeWhile Numeral.isDigit, Numeral.isDigit d := by
    intro d hd
    rcases List.mem_cons.mp hd with rfl | hd
    · exact hc
    · exact of_mem_takeWhile hd
  by_cases hpoint : (rest.dropWhile Numeral.isDigit).head? = some '.'
  · obtain ⟨more, hmore⟩ := List.head?_eq_some_iff.mp hpoint
    by_cases hfraction : more.takeWhile Numeral.isDigit = []
    · rw [ofDigit_of_point hmore hfraction]
      exact ofInteger_inGrammar (List.cons_ne_nil _ _) hwhole _
    · rw [ofDigit_of_fraction hmore hfraction]
      have hdot : '.' ∉ c :: rest.takeWhile Numeral.isDigit :=
        fun hdot => absurd (hwhole _ hdot) (by decide)
      exact ⟨.float (List.cons_ne_nil _ _) hwhole hfraction fun d => of_mem_takeWhile,
        @Denotes.float (c :: rest.takeWhile Numeral.isDigit) _ hdot⟩
  · rw [ofDigit_of_no_point hpoint]
    exact ofInteger_inGrammar (List.cons_ne_nil _ _) hwhole _

private theorem ofLetter_inGrammar {c : Char} (hc : Scanner.isNameStart c) (rest : List Char) :
    (ofLetter c rest).InGrammar := by
  unfold ofLetter
  dsimp only
  split
  · next kind hkind =>
    have hmem := List.mem_of_find?_eq_some hkind
    have htext : kind.text.toList = c :: rest.takeWhile Scanner.isNamePart := by
      have hbeq := List.find?_some (p := fun k : TokenKind => k.text == _) hkind
      rw [eq_of_beq hbeq, String.toList_ofList]
    refine ⟨htext ▸ .keyword hmem, .nothing ?_⟩
    revert hmem
    cases kind <;> decide
  · next hnone =>
    refine ⟨.identifier (by simpa [Scanner.isNameStart] using hc) (fun d hd => ?_) fun kind hkind heq => ?_,
      .identifier⟩
    · simpa [Scanner.isNamePart] using of_mem_takeWhile hd
    · refine List.find?_eq_none.mp hnone kind hkind (beq_iff_eq.mpr ?_)
      rw [← heq, String.ofList_toList]

theorem first_inGrammar (c : Char) (rest : List Char) : (first c rest).InGrammar := by
  unfold first
  split
  · next hblank =>
    refine .whitespace ?_
    simp only [Bool.or_eq_true, beq_iff_eq] at hblank
    rcases hblank with (rfl | rfl) | rfl <;> simp
  split
  · next hnewline => exact .whitespace (by simp [eq_of_beq hnewline])
  split
  · next kind hsingle =>
    refine @symbol_inGrammar kind _ ?_ ?_ <;>
      unfold TokenKind.single? at hsingle <;> split at hsingle <;> cases hsingle <;> decide
  split
  · next hdouble => exact ofPair_inGrammar hdouble rest
  split
  · unfold ofDash
    split
    · exact .comment (notMem_takeWhile (by decide) _)
    · exact symbol_inGrammar (by decide) rfl
  split
  · exact ofQuote_inGrammar rest
  split
  · next hdigit => exact ofDigit_inGrammar hdigit rest
  split
  · next hname => exact ofLetter_inGrammar hname rest
  · trivial

end Lexeme
end Copione
