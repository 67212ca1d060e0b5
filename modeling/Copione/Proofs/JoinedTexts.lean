import Copione.Proofs.Tiling
/-!
# Texts joined by a newline

No lexeme goes on past a newline, and none is read differently because one follows. So the scan of
two texts with a newline between them is the scan of the first and then that of the second, further
on in the text.
-/
namespace Copione

structure Shift where
  bytes : Nat
  lines : Nat

namespace Shift

def zero : Shift := ⟨0, 0⟩

/-- Past a text and the newline behind it. -/
def past (text : String) : Shift := ⟨text.utf8ByteSize + 1, text.toList.count '\n' + 1⟩

end Shift

def Span.shift (d : Shift) (s : Span) : Span := ⟨s.offset + d.bytes, s.len, s.line + d.lines⟩

def Token.shift (d : Shift) (t : Token) : Token := { t with span := t.span.shift d }

@[simp] theorem Token.shift_span (d : Shift) (t : Token) : (t.shift d).span = t.span.shift d := rfl

namespace Lexeme

/-- Only strings and comments go on with the character. -/
structure Stops (b : Char) : Prop where
  isNamePart : Scanner.isNamePart b = false
  isDigit : Numeral.isDigit b = false
  notMem : b ∉ ['.', '-', '=', '&', '|', '^']

private theorem stops_newline : Stops '\n' := ⟨by decide, by decide, by decide⟩

section

variable {b : Char} (rest more : List Char)

private theorem takeWhile_stop {p : Char → Bool} (h : p b = false) :
    (rest ++ b :: more).takeWhile p = rest.takeWhile p := by
  induction rest with
  | nil => simp [h]
  | cons c rest ih => by_cases hc : p c <;> simp [hc, ih]

private theorem dropWhile_stop {p : Char → Bool} (h : p b = false) :
    (rest ++ b :: more).dropWhile p = rest.dropWhile p ++ b :: more := by
  induction rest with
  | nil => simp [h]
  | cons c rest ih => by_cases hc : p c <;> simp [hc, ih]

private theorem head?_stop {c : Char} (h : c ≠ b) :
    (rest ++ b :: more).head? = some c ↔ rest.head? = some c := by
  cases rest with
  | nil => simp [Ne.symm h]
  | cons d rest => rfl

private theorem Stops.ne (hb : Stops b) {c : Char} (hc : c ∈ ['.', '-', '=', '&', '|', '^']) : c ≠ b :=
  fun h => hb.notMem (h ▸ hc)

private theorem ofPair_stop (hb : Stops b) {c second : Char} {single double : TokenKind}
    (h : TokenKind.double? c = some (second, single, double)) :
    ofPair c second single double (rest ++ b :: more) = ofPair c second single double rest := by
  have hsecond : second ≠ b := by
    unfold TokenKind.double? at h
    split at h <;> cases h <;> exact hb.ne (by decide)
  simp only [ofPair, head?_stop rest more hsecond]

private theorem ofDash_stop (hb : Stops b) (h : b = '\n' ∨
      ((ofDash rest).meaning = .comment → (ofDash rest).text.length ≤ rest.length)) :
    ofDash (rest ++ b :: more) = ofDash rest := by
  unfold ofDash at h ⊢
  simp only [head?_stop rest more (hb.ne (c := '-') (by decide))]
  split
  · next hdash =>
    obtain ⟨tail, rfl⟩ := List.head?_eq_some_iff.mp hdash
    have hbody : (tail ++ b :: more).takeWhile (· != '\n') = tail.takeWhile (· != '\n') := by
      rcases h with rfl | h
      · exact takeWhile_stop tail more (by decide)
      · have hlength := h rfl
        simp at hlength
        rw [List.takeWhile_append, if_neg (by omega)]
    simp only [List.cons_append, List.tail_cons, hbody]
  · rfl

private theorem ofQuote_stop (h : b = '\n' ∨ ∀ f, (ofQuote rest).meaning ≠ .fault f) :
    ofQuote (rest ++ b :: more) = ofQuote rest := by
  rcases h with rfl | h
  · have hstop : inString '\n' = false := by decide
    simp only [ofQuote, takeWhile_stop rest more hstop, dropWhile_stop rest more hstop,
      head?_stop _ more (show '"' ≠ '\n' by decide)]
  · obtain ⟨tail, htail⟩ : ∃ tail, rest.dropWhile inString = '"' :: tail := by
      unfold ofQuote at h
      dsimp only at h
      split at h
      · next hclosed => exact List.head?_eq_some_iff.mp hclosed
      · exact absurd rfl (h _)
    have hstop : inString '"' = false := by decide
    have hsplit : rest ++ b :: more = rest.takeWhile inString ++ '"' :: (tail ++ b :: more) := by
      rw [← List.cons_append, ← htail, ← List.append_assoc, List.takeWhile_append_dropWhile]
    have hbody : (rest ++ b :: more).takeWhile inString = rest.takeWhile inString := by
      rw [hsplit, List.takeWhile_append_of_pos fun _ => of_mem_takeWhile,
        List.takeWhile_cons_of_neg (by simp [hstop]), List.append_nil]
    have hrest : (rest ++ b :: more).dropWhile inString = '"' :: (tail ++ b :: more) := by
      rw [hsplit, List.dropWhile_append_of_pos fun _ => of_mem_takeWhile,
        List.dropWhile_cons_of_neg (by simp [hstop])]
    simp only [ofQuote, hbody, hrest, htail, List.head?_cons]

private theorem ofDigit_stop (hb : Stops b) (c : Char) : ofDigit c
    (rest ++ b :: more) = ofDigit c rest := by
  simp only [ofDigit, takeWhile_stop rest more hb.isDigit, dropWhile_stop rest more hb.isDigit,
    head?_stop _ more (hb.ne (c := '.') (by decide))]
  split
  · next h =>
    obtain ⟨tail, htail⟩ := List.head?_eq_some_iff.mp h
    simp only [htail, List.cons_append, List.tail_cons, takeWhile_stop tail more hb.isDigit]
  · rfl

private theorem ofLetter_stop (hb : Stops b) (c : Char) :
    ofLetter c (rest ++ b :: more) = ofLetter c rest := by
  simp only [ofLetter, takeWhile_stop rest more hb.isNamePart]

/-- A lexeme that is no fault and no comment up to the end of the text is the same whether the character
follows the text or not. A newline ends every lexeme. -/
theorem first_stop (hb : Stops b) (c : Char) (h : b = '\n' ∨ (∀ f, (first c rest).meaning ≠ .fault f) ∧
      ((first c rest).meaning = .comment → (first c rest).text.length ≤ rest.length)) :
    first c (rest ++ b :: more) = first c rest := by
  by_cases hdash : c = '-'
  · subst hdash
    exact ofDash_stop rest more hb (h.imp_right And.right)
  by_cases hquote : c = '"'
  · subst hquote
    exact ofQuote_stop rest more (h.imp_right And.left)
  have hdash : (c == '-') = false := beq_eq_false_iff_ne.mpr hdash
  have hquote : (c == '"') = false := beq_eq_false_iff_ne.mpr hquote
  unfold first
  simp only [hdash, hquote, Bool.false_eq_true, if_false, ofDigit_stop rest more hb,
    ofLetter_stop rest more hb]
  cases hdouble : TokenKind.double? c with
  | none => rfl
  | some pair => simp only [ofPair_stop rest more hb hdouble]

end

theorem finish_append {p q : Place} {ls : List Lexeme} (h : finish p ls = .ok q)
    (ls' : List Lexeme) :
    finish p (ls ++ ls') = finish q ls' ∧ tokens p (ls ++ ls') = tokens p ls ++ tokens q ls' := by
  induction ls generalizing p with
  | nil =>
    obtain rfl := Except.ok.inj h
    simp [tokens]
  | cons l ls ih =>
    rw [finish] at h
    cases herror : l.error? p with
    | some e => simp [herror] at h
    | none =>
      rw [herror] at h
      simp only [List.cons_append, finish, herror, tokens, ih h, List.append_assoc, and_self]

def EndsInComment (text : List Char) : Prop := ∃ l, (all text).getLast? = some l ∧ l.meaning = .comment

theorem finish_all_cons {p q : Place} {c : Char} {rest : List Char}
    (h : finish p (all (c :: rest)) = .ok q) :
    (∀ f, (first c rest).meaning ≠ .fault f) ∧ (first c rest).text.length - 1 ≤ rest.length ∧
      all (c :: rest) = first c rest :: all (rest.drop ((first c rest).text.length - 1)) ∧
      finish (p.after (first c rest)) (all (rest.drop ((first c rest).text.length - 1))) = .ok q := by
  cases herror : (first c rest).error? p with
  | some e => simp [all_cons_of_error herror, finish, herror] at h
  | none =>
    have hall := all_cons herror
    rw [hall, finish, herror] at h
    refine ⟨fun f hf => ?_, ?_, hall, h⟩
    · simp [error?, hf] at herror
    · obtain ⟨tail, htext, hprefix⟩ := (first_begins c rest).text_eq
      simpa [htext] using hprefix.length_le

theorem all_cons_of_ne {c : Char} {rest : List Char} (h : ∀ f, (first c rest).meaning ≠ .fault f) :
    all (c :: rest) = first c rest :: all (rest.drop ((first c rest).text.length - 1)) := by
  refine all_cons (p := ⟨0, 0⟩) ?_
  unfold error?
  split
  · next f hf => exact absurd hf (h f)
  · rfl

private theorem EndsInComment.cons {l : Lexeme} {rest text : List Char}
    (hall : all text = l :: all rest)
    (h : EndsInComment rest) : EndsInComment text := by
  obtain ⟨last, hlast, hcomment⟩ := h
  exact ⟨last, by simp [hall, List.getLast?_cons, hlast], hcomment⟩

/-- The lexemes of a text that has no fault stay as they are when such a character follows, unless
the text ends in a comment that goes on. -/
theorem all_stop {b : Char} (hb : Stops b) {p q : Place} {text : List Char}
    (h : finish p (all text) = .ok q) (hopen : b = '\n' ∨ ¬EndsInComment text) (more : List Char) :
    all (text ++ b :: more) = all text ++ all (b :: more) := by
  induction hlength : text.length using Nat.strongRecOn generalizing text p with
  | ind n ih =>
    cases text with
    | nil => simp [all_nil]
    | cons c rest =>
      obtain ⟨hmeaning, hle, hall, hfinish⟩ := finish_all_cons h
      have hsame : first c (rest ++ b :: more) = first c rest := by
        refine first_stop rest more hb c (hopen.imp_right fun hopen => ⟨hmeaning, fun hcomment => ?_⟩)
        -- a comment up to the end would be the last lexeme
        refine Nat.le_of_not_lt fun hlong => hopen ⟨first c rest, ?_, hcomment⟩
        rw [hall, List.drop_eq_nil_of_le (by omega), all_nil]
        rfl
      have hrest := ih (rest.drop ((first c rest).text.length - 1)).length (by simp at hlength ⊢; omega)
        hfinish (hopen.imp_right fun hopen hends => hopen (hends.cons hall)) rfl
      rw [List.cons_append, all_cons_of_ne (by rwa [hsame]), hsame, List.drop_append_of_le_length hle,
        hrest, hall, List.cons_append]

private theorem all_newline {p q : Place} {text : List Char} (h : finish p (all text) = .ok q)
    (more : List Char) :
    all (text ++ '\n' :: more) = all text ++ ofChar '\n' .newline :: all more := by
  rw [all_stop stops_newline h (.inl rfl), all_cons (p := p) rfl]
  rfl

def Place.shift (d : Shift) (p : Place) : Place := ⟨p.offset + d.bytes, p.line + d.lines⟩

private theorem Place.shift_after (d : Shift) (p : Place) (l : Lexeme) :
    (p.shift d).after l = (p.after l).shift d := by
  simp only [after, shift, Place.mk.injEq]
  omega

private theorem error?_shift {d : Shift} {p : Place} {l : Lexeme} :
    l.error? (p.shift d) = none ↔ l.error? p = none := by
  unfold error?
  cases l.meaning <;> simp

private theorem token?_shift (d : Shift) (p : Place) (l : Lexeme) :
    l.token? (p.shift d) = (l.token? p).map (Token.shift d) := by
  unfold token?
  cases l.meaning <;> simp [Place.shift, Token.shift, Span.shift]

theorem finish_shift (d : Shift) {p q : Place} {ls : List Lexeme} (h : finish p ls = .ok q) :
    finish (p.shift d) ls = .ok (q.shift d) ∧
      tokens (p.shift d) ls = (tokens p ls).map (Token.shift d) := by
  induction ls generalizing p with
  | nil =>
    obtain rfl := Except.ok.inj h
    exact ⟨rfl, rfl⟩
  | cons l ls ih =>
    rw [finish] at h
    cases herror : l.error? p with
    | some e => simp [herror] at h
    | none =>
      rw [herror] at h
      simp only [finish, error?_shift.mpr herror, tokens, Place.shift_after, ih h, token?_shift,
        List.map_append, true_and]
      cases l.token? p <;> rfl

end Lexeme

namespace Token

open Lexeme (Place)

theorem scan_eq_ok {text : String} {tokens : List Token} (h : scan text = .ok tokens) :
    tokens = Lexeme.tokens .start (Lexeme.all text.toList) ++
        [⟨.eof, "", none, ⟨text.utf8ByteSize, 0, 1 + text.toList.count '\n'⟩⟩] ∧
      Lexeme.finish .start (Lexeme.all text.toList) = .ok (.behind text.toList) := by
  obtain ⟨stop, lexeme, after, hlaid, hcloses⟩ := Lexeme.laid_all [] [] text.toList .nil
  have htext := hlaid.text_eq
  have hplace : Place.behind [] = .start := rfl
  rw [List.nil_append] at htext
  simp only [List.nil_append, hplace] at hcloses
  rw [scan_eq_transcript, Lexeme.transcript] at h
  cases hfinish : Lexeme.finish .start (Lexeme.all text.toList) with
  | error e =>
    rw [hfinish] at h
    cases h
  | ok p =>
    rw [hfinish] at h hcloses
    obtain ⟨rfl, rfl, rfl⟩ := hcloses
    simp only [List.append_nil] at htext
    subst htext
    obtain rfl := Except.ok.inj h
    rw [← utf8Length_toList]
    exact ⟨rfl, rfl⟩

/-- The tokens of two texts with a newline between them are those of the first text, without its
end, and those of the second, moved past the first text. -/
theorem scan_newline {first second : String} {tokens later : List Token} {e : Token}
    (hfirst : scan first = .ok (tokens ++ [e])) (hsecond : scan second = .ok later) :
    scan (first ++ "\n" ++ second) = .ok (tokens ++ later.map (Token.shift (.past first))) := by
  obtain ⟨htokens, hfinish⟩ := scan_eq_ok hfirst
  obtain ⟨hlater, hfinish'⟩ := scan_eq_ok hsecond
  obtain ⟨rfl, -⟩ := List.append_inj' htokens rfl
  have hplace : (Place.behind first.toList).after (Lexeme.ofChar '\n' .newline) =
      Place.start.shift (.past first) := by
    have hone : utf8Length ['\n'] = 1 := rfl
    simp only [Place.after, Place.behind, Lexeme.ofChar, Lexeme.lines, Place.shift, Place.start,
      Shift.past, utf8Length_toList, hone, Place.mk.injEq]
    omega
  obtain ⟨hmoved, hmovedTokens⟩ := Lexeme.finish_shift (.past first) hfinish'
  have htext : (first ++ "\n" ++ second).toList = first.toList ++ '\n' :: second.toList := by
    simp [String.toList_append]
  rw [scan_eq_transcript, Lexeme.transcript, htext, Lexeme.all_newline hfinish]
  obtain ⟨hjoined, hjoinedTokens⟩ :=
    Lexeme.finish_append hfinish (Lexeme.ofChar '\n' .newline :: Lexeme.all second.toList)
  have hnewline : (Lexeme.ofChar '\n' .newline).error? (.behind first.toList) = none := rfl
  simp only [hjoined, hjoinedTokens, Lexeme.finish, hnewline, Lexeme.tokens, hplace, hmoved,
    hmovedTokens, hlater, List.map_append, List.append_assoc]
  rw [← utf8Length_toList second]
  rfl

end Token
end Copione
