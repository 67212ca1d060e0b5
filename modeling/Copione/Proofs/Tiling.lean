import Copione.Proofs.Scans
/-!
# Tokens tile the text

Where the tokens of a text stand in it. Between two of them there are blanks and comments only,
and each carries the line that the newlines before it give. The same holds up to the lexeme that
makes a scan fail.
-/
namespace Copione

/-- Blanks and comments that `after` follows. A comment goes on up to a newline or the end. -/
inductive Gap (after : List Char) : List Char → Prop
  | nil : Gap after []
  | blank {c : Char} {gap : List Char} (hc : c ∈ [' ', '\t', '\r', '\n']) (h : Gap after gap) :
    Gap after (c :: gap)
  | comment {body gap : List Char} (hbody : '\n' ∉ body)
    (hend : gap ++ after = [] ∨ (gap ++ after).head? = some '\n') (h : Gap after gap) :
    Gap after ('-' :: '-' :: body ++ gap)

/-- The lexeme for which a scan reports a fault, when `after` follows it. -/
inductive Offends (after : List Char) : ScanFault → List Char → Prop
  | character {c : Char} (hblank : c ∉ [' ', '\t', '\r', '\n']) (hsingle : TokenKind.single? c = none)
    (hdouble : TokenKind.double? c = none) (hdash : c ≠ '-') (hquote : c ≠ '"')
    (hdigit : Numeral.isDigit c = false) (hname : Scanner.isNameStart c = false) :
    Offends after (.unexpectedCharacter c) [c]
  | string {body : List Char} (hquote : '"' ∉ body) (hnewline : '\n' ∉ body)
    (hend : after = [] ∨ after.head? = some '\n') : Offends after .unterminatedString ('"' :: body)
  | number {digits : List Char} (hsome : digits ≠ []) (hdigits : ∀ d ∈ digits, Numeral.isDigit d)
    (hend : after.head?.all fun c => !Numeral.isDigit c)
    (hrange : 0x8000000000000000 ≤ Numeral.toNat digits) :
    Offends after (.malformedNumber (String.ofList digits)) digits

private theorem Gap.append {after first second : List Char} (hfirst : Gap (second ++ after) first)
    (hsecond : Gap after second) : Gap after (first ++ second) := by
  induction hfirst with
  | nil => exact hsecond
  | blank hc _ ih => exact .blank hc ih
  | @comment body gap hbody hend _ ih =>
    have h := Gap.comment hbody (by simpa only [List.append_assoc] using hend) ih
    simpa only [List.cons_append, List.append_assoc] using h

namespace Lexeme

/-- What the meaning of a lexeme says about its text and about what follows it. -/
def Fits (after : List Char) (l : Lexeme) : Prop :=
  match l.meaning with
  | .blank => ∃ c, l.text = [c] ∧ c ∈ [' ', '\t', '\r']
  | .newline => l.text = ['\n']
  | .comment => ∃ body, l.text = '-' :: '-' :: body ∧ '\n' ∉ body ∧
      (after = [] ∨ after.head? = some '\n')
  | .token _ _ => '\n' ∉ l.text
  | .fault f => Offends after f l.text ∧ '\n' ∉ l.text

private theorem dropWhile_newline (text : List Char) :
    text.dropWhile (· != '\n') = [] ∨ (text.dropWhile (· != '\n')).head? = some '\n' := by
  induction text with
  | nil => exact .inl rfl
  | cons c text ih =>
    rw [List.dropWhile_cons]
    split
    · exact ih
    · next hc => exact .inr (by simpa using hc)

theorem of_mem_takeWhile {p : Char → Bool} {text : List Char} {c : Char}
    (h : c ∈ text.takeWhile p) : p c := List.all_eq_true.mp List.all_takeWhile c h

theorem notMem_takeWhile {p : Char → Bool} {c : Char} (h : p c = false) (text : List Char) :
    c ∉ text.takeWhile p := by
  intro hmem
  simp [of_mem_takeWhile hmem] at h

private theorem head?_dropWhile_digits (text : List Char) :
    (text.dropWhile Numeral.isDigit).head?.all fun c => !Numeral.isDigit c := by
  induction text with
  | nil => rfl
  | cons c text ih => by_cases hc : Numeral.isDigit c <;> simp [hc, ih]

private theorem newline_of_isDigit {c : Char} (h : Numeral.isDigit c) : c ≠ '\n' := by
  rintro rfl
  exact absurd h (by decide)

private theorem le_toNat_of_toInt64? {digits : List Char}
    (h : Numeral.toInt64? false digits = none) : 0x8000000000000000 ≤ Numeral.toNat digits := by
  have hmin : Int64.minValue.toInt = -0x8000000000000000 := by decide
  have hmax : Int64.maxValue.toInt = 0x7FFFFFFFFFFFFFFF := by decide
  simp only [Numeral.toInt64?, Numeral.inInt64?, hmin, hmax, Bool.false_eq_true, if_false] at h
  split at h
  · cases h
  · omega

private theorem ofInteger_fits {after digits : List Char} (room : Nat) (hsome : digits ≠ [])
    (hdigits : ∀ d ∈ digits, Numeral.isDigit d)
    (hend : after.head?.all fun c => !Numeral.isDigit c) : (ofInteger digits room).Fits after := by
  have hnewline : '\n' ∉ digits := fun h => newline_of_isDigit (hdigits _ h) rfl
  unfold ofInteger
  cases hvalue : Numeral.toInt64? false digits with
  | some n => exact hnewline
  | none => exact ⟨.number hsome hdigits hend (le_toNat_of_toInt64? hvalue), hnewline⟩

private theorem ofDigit_fits {c : Char} (rest : List Char) (hc : Numeral.isDigit c) :
    (ofDigit c rest).Fits (rest.drop ((ofDigit c rest).text.length - 1)) := by
  have hwhole : ∀ d ∈ c :: rest.takeWhile Numeral.isDigit, Numeral.isDigit d := by
    intro d hd
    rcases List.mem_cons.mp hd with rfl | hd
    · exact hc
    · exact of_mem_takeWhile hd
  have hafter (room : Nat) : (ofInteger (c :: rest.takeWhile Numeral.isDigit) room).Fits
      (rest.drop ((ofInteger (c :: rest.takeWhile Numeral.isDigit) room).text.length - 1)) := by
    apply ofInteger_fits room (List.cons_ne_nil _ _) hwhole
    rw [ofInteger_text, List.length_cons, Nat.add_sub_cancel, Scanner.drop_length_takeWhile]
    exact head?_dropWhile_digits rest
  by_cases hpoint : (rest.dropWhile Numeral.isDigit).head? = some '.'
  · obtain ⟨more, hmore⟩ := List.head?_eq_some_iff.mp hpoint
    by_cases hfraction : more.takeWhile Numeral.isDigit = []
    · rw [ofDigit_of_point hmore hfraction]
      exact hafter _
    · rw [ofDigit_of_fraction hmore hfraction]
      show '\n' ∉ _
      have hnewline := notMem_takeWhile (p := Numeral.isDigit) (c := '\n') (by decide)
      simp only [List.mem_cons, List.mem_append, not_or]
      exact ⟨Ne.symm (newline_of_isDigit hc), hnewline rest, by decide, hnewline more⟩
  · rw [ofDigit_of_no_point hpoint]
    exact hafter _

private theorem ofQuote_fits (rest : List Char) :
    (ofQuote rest).Fits (rest.drop ((ofQuote rest).text.length - 1)) := by
  have hnewline : '\n' ∉ rest.takeWhile inString := notMem_takeWhile (by decide) rest
  have hquote : '"' ∉ rest.takeWhile inString := notMem_takeWhile (by decide) rest
  unfold ofQuote
  dsimp only
  split
  · show '\n' ∉ _
    simpa using hnewline
  · next hopen =>
    refine ⟨.string hquote hnewline ?_, by simpa using hnewline⟩
    rw [List.length_cons, Nat.add_sub_cancel, Scanner.drop_length_takeWhile]
    cases hafter : rest.dropWhile inString with
    | nil => exact .inl rfl
    | cons c after =>
      have hc := List.head?_dropWhile_not inString rest
      rw [hafter] at hc hopen
      simp [inString] at hc hopen
      simp [hc hopen]

private theorem ofDash_fits (rest : List Char) :
    (ofDash rest).Fits (rest.drop ((ofDash rest).text.length - 1)) := by
  unfold ofDash
  split
  · next hdash =>
    obtain ⟨more, rfl⟩ := List.head?_eq_some_iff.mp hdash
    refine ⟨_, rfl, notMem_takeWhile (by decide) _, ?_⟩
    simp only [List.tail_cons, List.length_cons, Nat.add_sub_cancel, List.drop_succ_cons,
      Scanner.drop_length_takeWhile]
    exact dropWhile_newline more
  · show '\n' ∉ _
    decide

private theorem ofPair_fits {c second : Char} {single double : TokenKind} {after : List Char}
    (h : TokenKind.double? c = some (second, single, double)) (rest : List Char) :
    (ofPair c second single double rest).Fits after := by
  have hc : c ≠ '\n' := by rintro rfl; cases h
  have hsecond : second ≠ '\n' := by
    rintro rfl
    unfold TokenKind.double? at h
    split at h <;> cases h
  unfold ofPair
  split
  · show '\n' ∉ _
    simp [Ne.symm hc, Ne.symm hsecond]
  · show '\n' ∉ _
    simp [Ne.symm hc]

private theorem ofLetter_fits {c : Char} {after : List Char} (h : Scanner.isNameStart c)
    (rest : List Char) : (ofLetter c rest).Fits after := by
  have hc : c ≠ '\n' := by rintro rfl; exact absurd h (by decide)
  have hrest : '\n' ∉ rest.takeWhile Scanner.isNamePart := notMem_takeWhile (by decide) rest
  unfold ofLetter
  dsimp only
  split
  · show '\n' ∉ _
    simp [Ne.symm hc, hrest]
  · show '\n' ∉ _
    simp [Ne.symm hc, hrest]

/-- The first lexeme of a text looks as its meaning says, before the rest of the text. -/
theorem first_fits (c : Char) (rest : List Char) :
    (first c rest).Fits (rest.drop ((first c rest).text.length - 1)) := by
  unfold first
  split
  · next hblank => exact ⟨c, rfl, by simpa [or_assoc] using hblank⟩
  next hblank =>
  split
  · next hnewline =>
    show [c] = ['\n']
    rw [eq_of_beq hnewline]
  next hnewline =>
  have hc : '\n' ∉ [c] := fun h => hnewline (beq_iff_eq.mpr (List.mem_singleton.mp h).symm)
  split
  · exact hc
  next hsingle =>
  split
  · next hdouble => exact ofPair_fits hdouble rest
  next hdouble =>
  split
  · exact ofDash_fits rest
  next hdash =>
  split
  · exact ofQuote_fits rest
  next hquote =>
  split
  · next hdigit => exact ofDigit_fits rest hdigit
  next hdigit =>
  split
  · next hname => exact ofLetter_fits hname rest
  next hname =>
  have hsingle : TokenKind.single? c = none := Option.eq_none_iff_forall_ne_some.mpr hsingle
  have hdouble : TokenKind.double? c = none :=
    Option.eq_none_iff_forall_ne_some.mpr fun _ => hdouble _ _ _
  refine ⟨.character ?_ hsingle hdouble (by simpa using hdash) (by simpa using hquote)
    (by simpa using hdigit) (by simpa using hname), hc⟩
  simp only [Bool.or_eq_true, beq_iff_eq, not_or] at hblank hnewline
  simp [hblank, hnewline]

theorem Fits.count_newline {after : List Char} {l : Lexeme} (h : l.Fits after) :
    l.text.count '\n' = l.lines := by
  unfold Fits at h
  unfold lines
  cases hmeaning : l.meaning with
  | blank =>
    rw [hmeaning] at h
    obtain ⟨c, htext, hc⟩ := h
    simp only [List.mem_cons, List.not_mem_nil, or_false] at hc
    rcases hc with rfl | rfl | rfl <;> rw [htext] <;> rfl
  | newline =>
    rw [hmeaning] at h
    rw [show l.text = ['\n'] from h]
    rfl
  | comment =>
    rw [hmeaning] at h
    obtain ⟨body, htext, hbody, -⟩ := h
    rw [htext]
    simp [List.count_eq_zero_of_not_mem hbody]
  | token kind literal =>
    rw [hmeaning] at h
    exact List.count_eq_zero_of_not_mem h
  | fault f =>
    rw [hmeaning] at h
    exact List.count_eq_zero_of_not_mem h.2

end Lexeme

theorem utf8Length_toList (text : String) : utf8Length text.toList = text.utf8ByteSize := by
  have h (chars : List Char) : utf8Length chars = (String.ofList chars).utf8ByteSize := by
    induction chars with
    | nil => rfl
    | cons c chars ih =>
      rw [← List.singleton_append, String.ofList_append, String.utf8ByteSize_append, ← ih]
      simp [utf8Length]
  rw [h, String.ofList_toList]

def Span.behind (before slice : List Char) : Span :=
  ⟨utf8Length before, utf8Length slice, 1 + before.count '\n'⟩

def Span.Covers (s : Span) (text slice : List Char) : Prop :=
  ∃ before after, text = before ++ slice ++ after ∧ s = .behind before slice

/-- From byte `stop` up to byte `start` the text has blanks and comments only. -/
def GapBetween (text : List Char) (stop start : Nat) : Prop :=
  ∃ before gap after, text = before ++ gap ++ after ∧ utf8Length before = stop ∧
    utf8Length (before ++ gap) = start ∧ Gap after gap

/-- The tokens, and then what has the span `last`, stand in the text one after another, with only
blanks and comments before each of them. -/
structure Tiles (text : List Char) (tokens : List Token) (last : Span) : Prop where
  covers : ∀ t ∈ tokens, t.lexeme ≠ "" ∧ t.span.Covers text t.lexeme.toList
  ordered : (tokens.map Token.span ++ [last]).Pairwise fun a b =>
    a.offset < b.offset ∧ a.stop ≤ b.offset
  gaps : ∀ before s after, tokens.map Token.span ++ [last] = before ++ s :: after →
    GapBetween text (before.getLast?.elim 0 Span.stop) s.offset

/-- After `read` the text goes on with `rest`, in which the tokens stand one after another, and
then, behind `stop`, there is `lexeme`. -/
inductive Laid : List Char → List Char → List Token → List Char → List Char → List Char → Prop
  | last {read gap lexeme after : List Char} (hgap : Gap (lexeme ++ after) gap) :
    Laid read (gap ++ (lexeme ++ after)) [] (read ++ gap) lexeme after
  | token {read gap rest stop lexeme after : List Char} {t : Token} {ts : List Token}
    (hgap : Gap (t.lexeme.toList ++ rest) gap) (hsome : t.lexeme ≠ "")
    (hspan : t.span = .behind (read ++ gap) t.lexeme.toList)
    (h : Laid (read ++ gap ++ t.lexeme.toList) rest ts stop lexeme after) :
    Laid read (gap ++ (t.lexeme.toList ++ rest)) (t :: ts) stop lexeme after

namespace Laid

variable {read rest stop lexeme after : List Char} {ts : List Token}

theorem text_eq (h : Laid read rest ts stop lexeme after) :
    read ++ rest = stop ++ lexeme ++ after := by
  induction h with
  | last => simp only [List.append_assoc]
  | token _ _ _ _ ih => simpa only [List.append_assoc] using ih

private theorem le_offset (h : Laid read rest ts stop lexeme after) :
    ∀ s ∈ ts.map Token.span ++ [Span.behind stop lexeme], utf8Length read ≤ s.offset := by
  induction h with
  | @last read gap =>
    have := Cursor.utf8Length_append read gap
    simp only [List.map_nil, List.nil_append, List.mem_singleton, forall_eq, Span.behind]
    omega
  | @token read gap rest _ _ _ t ts _ _ hspan _ ih =>
    simp only [Cursor.utf8Length_append] at ih
    simp only [List.map_cons, List.cons_append, List.mem_cons, forall_eq_or_imp, hspan, Span.behind,
      Cursor.utf8Length_append]
    exact ⟨Nat.le_add_right _ _, fun s hs => Nat.le_of_add_right_le (Nat.le_of_add_right_le (ih s hs))⟩

private theorem covers (h : Laid read rest ts stop lexeme after) {t : Token} (ht : t ∈ ts) :
    t.lexeme ≠ "" ∧ t.span.Covers (read ++ rest) t.lexeme.toList := by
  induction h with
  | last => cases ht
  | @token read gap rest _ _ _ t' ts hgap hsome hspan _ ih =>
    rcases List.mem_cons.mp ht with rfl | ht
    · exact ⟨hsome, read ++ gap, rest, by simp only [List.append_assoc], hspan⟩
    · simpa only [List.append_assoc] using ih ht

theorem utf8Length_pos {text : String} (h : text ≠ "") : 0 < utf8Length text.toList := by
  rw [utf8Length_toList]
  exact Nat.pos_of_ne_zero (mt String.utf8ByteSize_eq_zero_iff.mp h)

private theorem ordered (h : Laid read rest ts stop lexeme after) :
    (ts.map Token.span ++ [Span.behind stop lexeme]).Pairwise fun a b =>
      a.offset < b.offset ∧ a.stop ≤ b.offset := by
  induction h with
  | last => simp
  | @token read gap rest _ _ _ t ts hgap hsome hspan hrest ih =>
    have hpos := utf8Length_pos hsome
    simp only [List.map_cons, List.cons_append, List.pairwise_cons]
    refine ⟨fun s hs => ?_, ih⟩
    have hle := hrest.le_offset s hs
    simp only [Cursor.utf8Length_append] at hle
    simp only [hspan, Span.behind, Span.stop, Cursor.utf8Length_append]
    omega

private theorem gaps (h : Laid read rest ts stop lexeme after) {before later : List Span} {s : Span}
    (hs : ts.map Token.span ++ [Span.behind stop lexeme] = before ++ s :: later) :
    GapBetween (read ++ rest) (before.getLast?.elim (utf8Length read) Span.stop) s.offset := by
  induction h generalizing before with
  | @last read gap lexeme after hgap =>
    cases before with
    | nil =>
      obtain ⟨rfl, -⟩ : Span.behind (read ++ gap) lexeme = s ∧ later = [] := by simpa using hs
      exact ⟨read, gap, lexeme ++ after, by simp only [List.append_assoc], rfl, rfl, hgap⟩
    | cons b before => simp at hs
  | @token read gap rest _ _ _ t ts hgap hsome hspan _ ih =>
    cases before with
    | nil =>
      obtain ⟨rfl, -⟩ := List.cons.inj hs
      refine ⟨read, gap, t.lexeme.toList ++ rest, by simp only [List.append_assoc], rfl, ?_, hgap⟩
      rw [hspan, Span.behind]
    | cons b before =>
      obtain ⟨rfl, hnext⟩ := List.cons.inj hs
      have hstop : t.span.stop = utf8Length (read ++ gap ++ t.lexeme.toList) := by
        rw [Cursor.utf8Length_append, hspan]
        rfl
      have hlater := ih hnext
      rw [← hstop] at hlater
      simp only [List.append_assoc] at hlater ⊢
      cases hlast : before.getLast? <;> simpa [List.getLast?_cons, hlast] using hlater

theorem tiles (h : Laid [] rest ts stop lexeme after) : Tiles rest ts (.behind stop lexeme) where
  covers _ ht := h.covers ht
  ordered := h.ordered
  gaps _ _ _ hs := h.gaps hs

end Laid

namespace Lexeme

def Place.behind (read : List Char) : Place := ⟨utf8Length read, 1 + read.count '\n'⟩

theorem Place.after_behind {after : List Char} {l : Lexeme} (h : l.Fits after) (read : List Char) :
    (Place.behind read).after l = .behind (read ++ l.text) := by
  rw [Place.after, behind, behind, Cursor.utf8Length_append, List.count_append, h.count_newline,
    Nat.add_assoc]

def Closes (stop lexeme after : List Char) : Except CompileError Place → Prop
  | .ok p => p = .behind stop ∧ lexeme = [] ∧ after = []
  | .error e => ∃ fault, Offends after fault lexeme ∧
      e = .scan fault.kind fault.message (1 + stop.count '\n') (.behind stop lexeme)

theorem first_text_ne_nil (c : Char) (rest : List Char) : (first c rest).text ≠ [] := by
  obtain ⟨more, htext, -⟩ := (first_begins c rest).text_eq
  simp [htext]

theorem first_append_drop (c : Char) (rest : List Char) :
    (first c rest).text ++ rest.drop ((first c rest).text.length - 1) = c :: rest := by
  have h := (first_begins c rest).cons_take
  calc (first c rest).text ++ rest.drop ((first c rest).text.length - 1)
      = c :: (rest.take ((first c rest).text.length - 1) ++
          rest.drop ((first c rest).text.length - 1)) := by rw [← List.cons_append, h]
    _ = c :: rest := by rw [List.take_append_drop]

theorem Fits.gap {after : List Char} {l : Lexeme} {p : Place} (h : l.Fits after)
    (htoken : l.token? p = none) (herror : l.error? p = none) : Gap after l.text := by
  unfold Fits at h
  cases hmeaning : l.meaning with
  | blank =>
    rw [hmeaning] at h
    obtain ⟨c, htext, hc⟩ := h
    rw [htext]
    exact .blank (List.mem_append_left ['\n'] hc) .nil
  | newline =>
    rw [hmeaning] at h
    rw [show l.text = ['\n'] from h]
    exact .blank (by simp) .nil
  | comment =>
    rw [hmeaning] at h
    obtain ⟨body, htext, hbody, hend⟩ := h
    have hgap : Gap after ('-' :: '-' :: body ++ []) := .comment hbody hend .nil
    rwa [htext, ← List.append_nil ('-' :: '-' :: body)]
  | token kind literal => simp [token?, hmeaning] at htoken
  | fault f => simp [error?, hmeaning] at herror

theorem error?_behind {l : Lexeme} {f : ScanFault} (hmeaning : l.meaning = .fault f)
    (hsome : l.text ≠ []) (read : List Char) :
    l.error? (.behind read) =
      some (.scan f.kind f.message (1 + read.count '\n') (.behind read l.text)) := by
  have hpos : 1 ≤ utf8Length l.text := by
    obtain ⟨c, more, hcons⟩ := List.exists_cons_of_ne_nil hsome
    have := c.utf8Size_pos
    simp only [hcons, utf8Length, List.foldr_cons]
    omega
  rw [error?, hmeaning]
  dsimp only
  rw [← utf8Length_toList, String.toList_ofList, Nat.max_eq_left hpos]
  rfl

theorem token?_behind {l : Lexeme} {kind : TokenKind} {literal : Option Literal}
    (hmeaning : l.meaning = .token kind literal) (read : List Char) :
    l.token? (.behind read) =
      some ⟨kind, String.ofList l.text, literal, .behind read l.text⟩ := by
  rw [token?, hmeaning]
  dsimp only
  rw [← utf8Length_toList, String.toList_ofList]
  rfl

private theorem Fits.closes {after : List Char} {l : Lexeme} {stop : List Char} {e : CompileError}
    (h : l.Fits after) (hsome : l.text ≠ []) (herror : l.error? (.behind stop) = some e) :
    Closes stop l.text after (.error e) := by
  unfold Fits at h
  cases hmeaning : l.meaning with
  | fault f =>
    rw [hmeaning] at h
    rw [error?_behind hmeaning hsome] at herror
    exact ⟨f, h.1, (Option.some.inj herror).symm⟩
  | blank | newline | comment | token => simp [error?, hmeaning] at herror

private theorem token?_eq_some {l : Lexeme} {read : List Char} {t : Token}
    (h : l.token? (.behind read) = some t) :
    t.lexeme.toList = l.text ∧ t.span = .behind read l.text := by
  cases hmeaning : l.meaning with
  | token kind literal =>
    rw [token?_behind hmeaning] at h
    obtain rfl := Option.some.inj h
    exact ⟨String.toList_ofList, rfl⟩
  | blank | newline | comment | fault => simp [token?, hmeaning] at h

/-- The tokens of a text are laid in it, up to its end or to the first fault. -/
theorem laid_all (read gap rest : List Char) (hgap : Gap rest gap) :
    ∃ stop lexeme after,
      Laid read (gap ++ rest) (tokens (.behind (read ++ gap)) (all rest)) stop lexeme after ∧
      Closes stop lexeme after (finish (.behind (read ++ gap)) (all rest)) := by
  generalize hall : all rest = ls
  induction ls generalizing read gap rest with
  | nil =>
    cases rest with
    | nil =>
      have hlast : Laid read (gap ++ ([] ++ [])) [] (read ++ gap) [] [] := .last hgap
      exact ⟨read ++ gap, [], [], hlast, rfl, rfl, rfl⟩
    | cons c rest =>
      rw [all] at hall
      split at hall <;> cases hall
  | cons l ls ih =>
    cases rest with
    | nil =>
      rw [all_nil] at hall
      cases hall
    | cons c rest =>
    have hfits := first_fits c rest
    have hsplit := first_append_drop c rest
    have hsome := first_text_ne_nil c rest
    cases herror : (first c rest).error? (.behind (read ++ gap)) with
    | some e =>
      rw [all_cons_of_error herror] at hall
      obtain ⟨rfl, rfl⟩ := List.cons.inj hall
      rw [tokens, token?_of_error herror, finish, herror]
      refine ⟨read ++ gap, (first c rest).text, _, ?_, hfits.closes hsome herror⟩
      rw [← hsplit] at hgap ⊢
      exact .last hgap
    | none =>
      rw [all_cons herror] at hall
      obtain ⟨rfl, hnext⟩ := List.cons.inj hall
      rw [tokens, finish, herror, Place.after_behind hfits]
      rw [← hsplit] at hgap ⊢
      cases htoken : (first c rest).token? (.behind (read ++ gap)) with
      | none =>
        have h := ih read (gap ++ (first c rest).text) _ (hgap.append (hfits.gap htoken herror)) hnext
        simpa only [Option.toList_none, List.nil_append, List.append_assoc] using h
      | some t =>
        obtain ⟨hlexeme, hspan⟩ := token?_eq_some htoken
        rw [← hlexeme] at hgap hsome hspan hnext ⊢
        obtain ⟨stop, lexeme, after, hlaid, hcloses⟩ := ih _ [] _ .nil hnext
        refine ⟨stop, lexeme, after, .token hgap ?_ hspan ?_, ?_⟩
        · rintro hempty
          exact hsome (by rw [hempty]; rfl)
        · simpa using hlaid
        · simpa using hcloses

/-- The tokens of a text tile it up to where it closes. -/
theorem tiles_all (text : List Char) :
    ∃ stop lexeme after, text = stop ++ lexeme ++ after ∧
      Tiles text (tokens .start (all text)) (.behind stop lexeme) ∧
      Closes stop lexeme after (finish .start (all text)) := by
  obtain ⟨stop, lexeme, after, hlaid, hcloses⟩ := laid_all [] [] text .nil
  have hplace : Place.behind [] = .start := rfl
  simp only [List.nil_append, hplace] at hlaid hcloses
  exact ⟨stop, lexeme, after, hlaid.text_eq, hlaid.tiles, hcloses⟩

end Lexeme

namespace Token

/-- The tokens of a text tile it, and the last of them marks its end. -/
theorem tiles_of_scan {text : String} {tokens : List Token} (h : scan text = .ok tokens) :
    ∃ ts e, tokens = ts ++ [e] ∧ (∀ t ∈ ts, t.kind ≠ .eof) ∧ e.kind = .eof ∧ e.lexeme = "" ∧
      Tiles text.toList ts e.span ∧ e.span = ⟨text.utf8ByteSize, 0, 1 + text.toList.count '\n'⟩ := by
  obtain ⟨stop, lexeme, after, htext, htiles, hcloses⟩ := Lexeme.tiles_all text.toList
  rw [scan_eq_transcript, Lexeme.transcript] at h
  cases hfinish : Lexeme.finish .start (Lexeme.all text.toList) with
  | ok p =>
    rw [hfinish] at h hcloses
    obtain rfl := Except.ok.inj h
    obtain ⟨rfl, rfl, rfl⟩ := hcloses
    simp only [List.append_nil] at htext
    subst htext
    refine ⟨_, _, rfl, fun _ => Lexeme.tokens_kind_ne_eof, rfl, rfl, htiles, ?_⟩
    rw [← utf8Length_toList]
    rfl
  | error e =>
    rw [hfinish] at h
    cases h

/-- The tokens of a text tile it, and the last of them marks its end. If the scan fails, then the
tokens read so far tile the text up to the lexeme that the error is about. -/
theorem scan_tiles (text : String) :
    match scan text with
    | .ok tokens => ∃ ts e, tokens = ts ++ [e] ∧ (∀ t ∈ ts, t.kind ≠ .eof) ∧
        e.kind = .eof ∧ e.lexeme = "" ∧ Tiles text.toList ts e.span ∧
        e.span = ⟨text.utf8ByteSize, 0, 1 + text.toList.count '\n'⟩
    | .error failure => ∃ ts before lexeme after fault, failure.held = some ts ∧
        (∀ t ∈ ts, t.kind ≠ .eof) ∧ Tiles text.toList ts failure.error.span ∧
        text.toList = before ++ lexeme ++ after ∧ Offends after fault lexeme ∧
        failure.error =
          .scan fault.kind fault.message (1 + before.count '\n') (.behind before lexeme) := by
  cases hscan : scan text with
  | ok tokens => exact tiles_of_scan hscan
  | error failure =>
    obtain ⟨stop, lexeme, after, htext, htiles, hcloses⟩ := Lexeme.tiles_all text.toList
    rw [scan_eq_transcript, Lexeme.transcript] at hscan
    cases hfinish : Lexeme.finish .start (Lexeme.all text.toList) with
    | ok p =>
      rw [hfinish] at hscan
      cases hscan
    | error e =>
      rw [hfinish] at hscan hcloses
      obtain rfl := Except.error.inj hscan
      obtain ⟨fault, hoffends, rfl⟩ := hcloses
      exact ⟨_, stop, lexeme, after, fault, rfl, fun _ => Lexeme.tokens_kind_ne_eof, htiles, htext, hoffends,
        rfl⟩

end Token
end Copione
