import Copione.Token.Scan
/-!
# Lexemes

The division of a text into lexemes: blanks, comments, tokens, and stretches that are none of
them. It says what a scan reads without saying how the characters come.
-/
namespace Copione

/-- What a stretch of text is to a scanner. -/
inductive Meaning where
  | blank
  | newline
  | comment
  | token (kind : TokenKind) (literal : Option Literal)
  | fault (f : ScanFault)

structure Lexeme where
  text : List Char
  meaning : Meaning
  /-- How many characters, from its first one on, a scanner holds or looks at together. The
  characters of a comment are let go one by one. -/
  room : Nat

namespace Lexeme

def ofChar (c : Char) (meaning : Meaning) : Lexeme := ⟨[c], meaning, 1⟩

def ofPair (c second : Char) (single double : TokenKind) (rest : List Char) : Lexeme :=
  if rest.head? = some second then ⟨[c, second], .token double none, 2⟩
  else ⟨[c], .token single none, 2⟩

def ofDash (rest : List Char) : Lexeme :=
  if rest.head? = some '-' then ⟨'-' :: '-' :: rest.tail.takeWhile (· != '\n'), .comment, 3⟩
  else ⟨['-'], .token .minus none, 2⟩

def inString (c : Char) : Bool := c != '"' && c != '\n'

def ofQuote (rest : List Char) : Lexeme :=
  let body := rest.takeWhile inString
  if (rest.dropWhile inString).head? = some '"' then
    ⟨'"' :: body ++ ['"'], .token .string (some (.str (String.ofList body))), body.length + 2⟩
  else ⟨'"' :: body, .fault .unterminatedString, body.length + 2⟩

def ofInteger (digits : List Char) (room : Nat) : Lexeme :=
  match Numeral.toInt64? false digits with
  | some n => ⟨digits, .token .integer (some (.int n)), room⟩
  | none => ⟨digits, .fault (.malformedNumber (String.ofList digits)), room⟩

/-- A point belongs to a number only if a digit comes after it. -/
def ofDigit (c : Char) (rest : List Char) : Lexeme :=
  let whole := c :: rest.takeWhile Numeral.isDigit
  let after := rest.dropWhile Numeral.isDigit
  let fraction := after.tail.takeWhile Numeral.isDigit
  if after.head? = some '.' then
    if fraction = [] then ofInteger whole (whole.length + 2)
    else
      ⟨whole ++ '.' :: fraction, .token .float (some (.float (Numeral.toFloat false whole fraction))),
        whole.length + fraction.length + 2⟩
  else ofInteger whole (whole.length + 1)

def ofLetter (c : Char) (rest : List Char) : Lexeme :=
  let text := c :: rest.takeWhile Scanner.isNamePart
  match TokenKind.keyword? (String.ofList text) with
  | some kind => ⟨text, .token kind none, text.length + 1⟩
  | none => ⟨text, .token .identifier (some (.str (String.ofList text))), text.length + 1⟩

/-- The lexeme that `c` begins when `rest` comes after it. -/
def first (c : Char) (rest : List Char) : Lexeme :=
  if c == ' ' || c == '\t' || c == '\r' then ofChar c .blank
  else if c == '\n' then ofChar c .newline
  else if let some kind := TokenKind.single? c then ofChar c (.token kind none)
  else if let some (second, single, double) := TokenKind.double? c then
    ofPair c second single double rest
  else if c == '-' then ofDash rest
  else if c == '"' then ofQuote rest
  else if Numeral.isDigit c then ofDigit c rest
  else if Scanner.isNameStart c then ofLetter c rest
  else ofChar c (.fault (.unexpectedCharacter c))

/-- Where a lexeme begins: its offset in UTF-8 bytes, and its line. -/
structure Place where
  offset : Nat
  line : Nat

def lines (l : Lexeme) : Nat :=
  match l.meaning with
  | .newline => 1
  | _ => 0

def Place.after (p : Place) (l : Lexeme) : Place := ⟨p.offset + utf8Length l.text, p.line + l.lines⟩

def token? (p : Place) (l : Lexeme) : Option Token :=
  match l.meaning with
  | .token kind literal =>
    let lexeme := String.ofList l.text
    some ⟨kind, lexeme, literal, ⟨p.offset, lexeme.utf8ByteSize, p.line⟩⟩
  | _ => none

def error? (p : Place) (l : Lexeme) : Option CompileError :=
  match l.meaning with
  | .fault f => some (f.report p.offset (max (String.ofList l.text).utf8ByteSize 1) p.line)
  | _ => none

/-- The lexemes of a text, up to the first one that is a fault. -/
def all : List Char → List Lexeme
  | [] => []
  | c :: rest =>
    let l := first c rest
    match l.meaning with
    | .fault _ => [l]
    | _ => l :: all (rest.drop (l.text.length - 1))
termination_by text => text.length
decreasing_by
  simp only [List.length_drop, List.length_cons]
  omega

/-- The tokens among lexemes that stand one after another from `p` on. -/
def tokens (p : Place) : List Lexeme → List Token
  | [] => []
  | l :: ls => (l.token? p).toList ++ tokens (p.after l) ls

/-- The first fault among lexemes that stand one after another from `p` on, or the place after
the last of them. -/
def finish (p : Place) : List Lexeme → Except CompileError Place
  | [] => .ok p
  | l :: ls =>
    match l.error? p with
    | some e => .error e
    | none => finish (p.after l) ls

/-- The lexeme is `c` and some of the characters after it, and a scanner holds at most two more
characters than it has. -/
structure Begins (c : Char) (rest : List Char) (l : Lexeme) : Prop where
  text_eq : ∃ more, l.text = c :: more ∧ more <+: rest
  room_pos : 0 < l.room
  room_le : l.room ≤ l.text.length + 2
  comment_length : l.meaning = .comment → 2 ≤ l.text.length

theorem Begins.cons_take {c : Char} {rest : List Char} {l : Lexeme} (h : Begins c rest l) :
    c :: rest.take (l.text.length - 1) = l.text := by
  obtain ⟨more, htext, hprefix⟩ := h.text_eq
  rw [htext, List.length_cons, Nat.add_sub_cancel, ← List.prefix_iff_eq_take.mp hprefix]

theorem ofChar_begins (c : Char) (rest : List Char) {meaning : Meaning} (h : meaning ≠ .comment) :
    Begins c rest (ofChar c meaning) :=
  ⟨⟨[], rfl, List.nil_prefix⟩, Nat.zero_lt_one, by simp [ofChar], fun hcomment => absurd hcomment h⟩

private theorem singleton_prefix {c : Char} {rest : List Char} (h : rest.head? = some c) :
    [c] <+: rest := by
  obtain ⟨more, rfl⟩ := List.head?_eq_some_iff.mp h
  exact ⟨more, rfl⟩

theorem ofPair_begins (c second : Char) (single double : TokenKind) (rest : List Char) :
    Begins c rest (ofPair c second single double rest) := by
  unfold ofPair
  split
  · next h => exact ⟨⟨[second], rfl, singleton_prefix h⟩, by simp, by simp, by simp⟩
  · exact ⟨⟨[], rfl, List.nil_prefix⟩, by simp, by simp, by simp⟩

theorem ofDash_begins (rest : List Char) : Begins '-' rest (ofDash rest) := by
  unfold ofDash
  split
  · next h =>
    obtain ⟨more, rfl⟩ := List.head?_eq_some_iff.mp h
    refine ⟨⟨_, rfl, ?_⟩, by simp, by simp, by simp⟩
    exact (List.prefix_cons_inj _).mpr (List.takeWhile_prefix _)
  · exact ⟨⟨[], rfl, List.nil_prefix⟩, by simp, by simp, by simp⟩

theorem ofQuote_begins (rest : List Char) : Begins '"' rest (ofQuote rest) := by
  unfold ofQuote
  simp only []
  split
  · next h =>
    obtain ⟨more, hmore⟩ := List.head?_eq_some_iff.mp h
    refine ⟨⟨rest.takeWhile inString ++ ['"'], rfl, ⟨more, ?_⟩⟩, by simp, by simp, by simp⟩
    rw [List.append_assoc, List.singleton_append, ← hmore, List.takeWhile_append_dropWhile]
  · exact ⟨⟨_, rfl, List.takeWhile_prefix _⟩, by simp, by simp, by simp⟩

@[simp] theorem ofInteger_text (digits : List Char) (room : Nat) :
    (ofInteger digits room).text = digits := by
  unfold ofInteger
  split <;> rfl

@[simp] theorem ofInteger_room (digits : List Char) (room : Nat) :
    (ofInteger digits room).room = room := by
  unfold ofInteger
  split <;> rfl

theorem ofInteger_begins {c : Char} {more rest : List Char} {room : Nat}
    (hmore : more <+: rest) (hpos : 0 < room) (hle : room ≤ more.length + 3) :
    Begins c rest (ofInteger (c :: more) room) := by
  unfold ofInteger
  split
  · exact ⟨⟨more, rfl, hmore⟩, hpos, by simpa using hle, by simp⟩
  · exact ⟨⟨more, rfl, hmore⟩, hpos, by simpa using hle, by simp⟩

theorem ofDigit_of_no_point {c : Char} {rest : List Char}
    (h : (rest.dropWhile Numeral.isDigit).head? ≠ some '.') :
    ofDigit c rest = ofInteger (c :: rest.takeWhile Numeral.isDigit)
      ((rest.takeWhile Numeral.isDigit).length + 2) := by
  simp [ofDigit, h]

theorem ofDigit_of_point {c : Char} {rest more : List Char}
    (h : rest.dropWhile Numeral.isDigit = '.' :: more) (hmore : more.takeWhile Numeral.isDigit = []) :
    ofDigit c rest = ofInteger (c :: rest.takeWhile Numeral.isDigit)
      ((rest.takeWhile Numeral.isDigit).length + 3) := by
  simp [ofDigit, h, hmore]

theorem ofDigit_of_fraction {c : Char} {rest more : List Char}
    (h : rest.dropWhile Numeral.isDigit = '.' :: more) (hmore : more.takeWhile Numeral.isDigit ≠ []) :
    ofDigit c rest =
      ⟨c :: (rest.takeWhile Numeral.isDigit ++ '.' :: more.takeWhile Numeral.isDigit),
        .token .float (some (.float (Numeral.toFloat false (c :: rest.takeWhile Numeral.isDigit)
          (more.takeWhile Numeral.isDigit)))),
        (rest.takeWhile Numeral.isDigit).length + (more.takeWhile Numeral.isDigit).length + 3⟩ := by
  simp [ofDigit, h, hmore]
  omega

theorem ofDigit_begins (c : Char) (rest : List Char) : Begins c rest (ofDigit c rest) := by
  have hdigits := List.takeWhile_prefix (l := rest) Numeral.isDigit
  unfold ofDigit
  simp only []
  split
  · next h =>
    split
    · exact ofInteger_begins hdigits (by simp) (by simp)
    · obtain ⟨more, hmore⟩ := List.head?_eq_some_iff.mp h
      refine ⟨⟨rest.takeWhile Numeral.isDigit ++ '.' :: more.takeWhile Numeral.isDigit,
        by rw [hmore]; rfl, ⟨more.dropWhile Numeral.isDigit, ?_⟩⟩, by simp, by simp; omega, by simp⟩
      rw [List.append_assoc, List.cons_append, List.takeWhile_append_dropWhile, ← hmore,
        List.takeWhile_append_dropWhile]
  · exact ofInteger_begins hdigits (by simp) (by simp)

theorem ofLetter_begins (c : Char) (rest : List Char) : Begins c rest (ofLetter c rest) := by
  unfold ofLetter
  simp only []
  split
  · exact ⟨⟨_, rfl, List.takeWhile_prefix _⟩, by simp, by simp, by simp⟩
  · exact ⟨⟨_, rfl, List.takeWhile_prefix _⟩, by simp, by simp, by simp⟩

theorem first_begins (c : Char) (rest : List Char) : Begins c rest (first c rest) := by
  unfold first
  split
  · exact ofChar_begins c rest (by simp)
  split
  · exact ofChar_begins c rest (by simp)
  split
  · exact ofChar_begins c rest (by simp)
  split
  · exact ofPair_begins ..
  split
  · next hc => exact eq_of_beq hc ▸ ofDash_begins rest
  split
  · next hc => exact eq_of_beq hc ▸ ofQuote_begins rest
  split
  · exact ofDigit_begins c rest
  split
  · exact ofLetter_begins c rest
  · exact ofChar_begins c rest (by simp)

private theorem first_meaning {c : Char} {rest : List Char} {kind : TokenKind}
    {literal : Option Literal} (h : (first c rest).meaning = .token kind literal) :
    kind ≠ .eof ∧ kind ≠ .identifier ∨ first c rest = ofLetter c rest := by
  revert h
  unfold first
  split
  · rintro ⟨⟩
  split
  · rintro ⟨⟩
  split
  · next hsingle =>
    intro h
    obtain ⟨rfl, -⟩ := Meaning.token.inj h
    unfold TokenKind.single? at hsingle
    split at hsingle <;> cases hsingle <;> simp
  split
  · next hdouble =>
    intro h
    unfold TokenKind.double? at hdouble
    unfold ofPair at h
    split at hdouble <;> cases hdouble <;> split at h <;> cases h <;> simp
  split
  · unfold ofDash
    split
    · rintro ⟨⟩
    · rintro ⟨⟩
      simp
  split
  · unfold ofQuote
    dsimp only
    split
    · rintro ⟨⟩
      simp
    · rintro ⟨⟩
  split
  · have hinteger {digits : List Char} {room : Nat}
        (h : (ofInteger digits room).meaning = .token kind literal) :
        kind ≠ .eof ∧ kind ≠ .identifier := by
      unfold ofInteger at h
      split at h
      · cases h
        simp
      · cases h
    unfold ofDigit
    dsimp only
    split
    · split
      · exact fun h => .inl (hinteger h)
      · rintro ⟨⟩
        simp
    · exact fun h => .inl (hinteger h)
  split
  · exact fun _ => .inr rfl
  · rintro ⟨⟩

theorem first_kind_ne_eof {c : Char} {rest : List Char} {kind : TokenKind} {literal : Option Literal}
    (h : (first c rest).meaning = .token kind literal) : kind ≠ .eof := by
  obtain ⟨hne, -⟩ | hletter := first_meaning h
  · exact hne
  · rintro rfl
    rw [hletter] at h
    unfold ofLetter at h
    dsimp only at h
    split at h
    · next hkeyword =>
      obtain ⟨rfl, -⟩ := Meaning.token.inj h
      exact absurd (List.mem_of_find?_eq_some hkeyword) (by decide)
    · cases h

theorem first_identifier {c : Char} {rest : List Char} {literal : Option Literal}
    (h : (first c rest).meaning = .token .identifier literal) :
    TokenKind.keyword? (String.ofList (first c rest).text) = none := by
  obtain ⟨-, hne⟩ | hletter := first_meaning h
  · exact absurd rfl hne
  · rw [hletter] at h ⊢
    unfold ofLetter at h ⊢
    dsimp only at h ⊢
    split at h
    · next hkeyword =>
      obtain ⟨rfl, -⟩ := Meaning.token.inj h
      exact absurd (List.mem_of_find?_eq_some hkeyword) (by decide)
    · next hkeyword =>
      rw [hkeyword]

end Lexeme
end Copione
