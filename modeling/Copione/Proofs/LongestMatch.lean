import Copione.Proofs.LexicalGrammar
/-!
# Scanning is longest match

A scan takes the longest lexeme off the text again and again, up to the end of the text or to the
first place where there is none that it can take.
-/
namespace Copione

/-- Taking the longest lexeme off the text, again and again, behind the text `read`. There are the
tokens, and the error that ends them; without one, the last token marks the end of the text. -/
inductive Tokenizes : List Char → List Char → List Token → Option CompileError → Prop
  | eof {read : List Char} : Tokenizes read [] [⟨.eof, "", none, .behind read []⟩] none
  | skip {read lexeme rest : List Char} {found : LexemeClass} {tokens : List Token}
    {ending : Option CompileError} (hlongest : Longest (lexeme ++ rest) lexeme found)
    (hfound : found = .whitespace ∨ found = .comment)
    (h : Tokenizes (read ++ lexeme) rest tokens ending) :
    Tokenizes read (lexeme ++ rest) tokens ending
  | token {read lexeme rest : List Char} {kind : TokenKind} {literal : Option Literal}
    {tokens : List Token} {ending : Option CompileError}
    (hlongest : Longest (lexeme ++ rest) lexeme (.token kind)) (hliteral : Denotes kind lexeme literal)
    (h : Tokenizes (read ++ lexeme) rest tokens ending) :
    Tokenizes read (lexeme ++ rest)
      (⟨kind, String.ofList lexeme, literal, .behind read lexeme⟩ :: tokens) ending
  | stuck {read lexeme rest : List Char} {fault : ScanFault} (h : Stuck lexeme rest fault) :
    Tokenizes read (lexeme ++ rest) []
      (some (.scan fault.kind fault.message (1 + read.count '\n') (.behind read lexeme)))

namespace Lexeme

variable {c : Char} {rest lexeme after : List Char} {found : LexemeClass} {f : ScanFault}

private theorem first_text_begins (c : Char) (rest : List Char) : (first c rest).text <+: c :: rest :=
  ⟨_, first_append_drop c rest⟩

theorem lexical_of_class? (h : (first c rest).meaning.class? = some found) :
    Lexical (first c rest).text found := by
  have hgrammar := first_inGrammar c rest
  have hfits := first_fits c rest
  unfold InGrammar at hgrammar
  unfold Fits at hfits
  cases hmeaning : (first c rest).meaning with
  | blank | newline | comment =>
    rw [hmeaning] at h hgrammar
    obtain rfl := Option.some.inj h
    exact hgrammar
  | token kind literal =>
    rw [hmeaning] at h hgrammar
    obtain rfl := Option.some.inj h
    exact hgrammar.1
  | fault f =>
    rw [hmeaning] at h hfits
    generalize (first c rest).text = text at hfits ⊢
    cases hfits.1 with
    | character | string => cases h
    | number hsome hdigits =>
      obtain rfl := Option.some.inj h
      exact .integer hsome hdigits

theorem longest_first (h : (first c rest).meaning.class? = some found) :
    Longest (c :: rest) (first c rest).text found where
  lexical := lexical_of_class? h
  begins := first_text_begins c rest
  length_le hother hbegins := by
    rcases covers_of_lexical hother hbegins with ⟨hlt, -⟩ | ⟨heq, -⟩
    · exact Nat.le_of_lt hlt
    · exact Nat.le_of_eq heq

/-- The longest lexeme is the one that a scanner reads. -/
theorem eq_first_of_longest (h : Longest (c :: rest) lexeme found) :
    lexeme = (first c rest).text ∧ (first c rest).meaning.class? = some found := by
  have hstart := List.prefix_of_prefix_length_le h.begins (first_text_begins c rest)
  rcases covers_of_lexical h.lexical h.begins with ⟨hlt, hsome⟩ | ⟨heq, hclass⟩
  · obtain ⟨other, hother⟩ := Option.isSome_iff_exists.mp hsome
    have hle := h.length_le (lexical_of_class? hother) (first_text_begins c rest)
    omega
  · exact ⟨(hstart (Nat.le_of_eq heq)).eq_of_length heq, hclass⟩

/-- A scanner reports a fault only where the grammar has no token. -/
theorem stuck_of_fault (h : (first c rest).meaning = .fault f) :
    Stuck (first c rest).text (rest.drop ((first c rest).text.length - 1)) f := by
  have hfits := first_fits c rest
  have hsplit := first_append_drop c rest
  unfold Fits at hfits
  rw [h] at hfits
  obtain ⟨hoffends, -⟩ := hfits
  generalize htext : (first c rest).text = lexeme at hoffends hsplit ⊢
  generalize rest.drop (lexeme.length - 1) = after at hoffends hsplit ⊢
  cases hoffends with
  | @character d _ _ _ _ hquote =>
    refine .unexpected hquote fun other found hother hbegins => ?_
    rw [show d :: after = c :: rest from hsplit] at hbegins
    have hcovers := covers_of_lexical hother hbegins
    simp [Covers, h, Meaning.class?] at hcovers
  | string hquote hnewline hend => exact .unterminated hquote hnewline hend
  | number _ _ _ hrange =>
    have hlongest : Longest (c :: rest) _ (.token .integer) := longest_first (by rw [h]; rfl)
    rw [htext, ← hsplit] at hlongest
    exact .malformed hlongest hrange

private theorem unterminated_first {body : List Char} (hquote : '"' ∉ body) (hnewline : '\n' ∉ body)
    (hafter : after = [] ∨ after.head? = some '\n') :
    (first '"' (body ++ after)).text = '"' :: body ∧
      (first '"' (body ++ after)).meaning = .fault .unterminatedString := by
  have hbody : ∀ d ∈ body, inString d := by
    intro d hd
    simp only [inString, bne_iff_ne, Bool.and_eq_true]
    exact ⟨fun h => hquote (h ▸ hd), fun h => hnewline (h ▸ hd)⟩
  have hstop : after.takeWhile inString = [] ∧ (after.dropWhile inString).head? ≠ some '"' := by
    rcases hafter with rfl | hafter
    · simp
    · obtain ⟨more, rfl⟩ := List.head?_eq_some_iff.mp hafter
      simp [inString]
  rw [first_quote, ofQuote, List.takeWhile_append_of_pos hbody, List.dropWhile_append_of_pos hbody,
    hstop.1, List.append_nil, if_neg hstop.2]
  exact ⟨rfl, rfl⟩

/-- Where the grammar has no token a scanner reports a fault. -/
theorem first_of_stuck (h : Stuck lexeme after f) (hsplit : lexeme ++ after = c :: rest) :
    (first c rest).text = lexeme ∧ (first c rest).meaning = .fault f := by
  have hgrammar := first_inGrammar c rest
  have hfits := first_fits c rest
  unfold InGrammar at hgrammar
  unfold Fits at hfits
  cases h with
  | unterminated hquote hnewline hafter =>
    obtain ⟨rfl, rfl⟩ := List.cons.inj hsplit
    exact unterminated_first hquote hnewline hafter
  | malformed hlongest hvalue =>
    rw [hsplit] at hlongest
    obtain ⟨htext, hclass⟩ := eq_first_of_longest hlongest
    refine ⟨htext.symm, ?_⟩
    rw [← htext] at hgrammar hfits
    cases hmeaning : (first c rest).meaning with
    | blank | newline | comment => simp [hmeaning, Meaning.class?] at hclass
    | token kind literal =>
      rw [hmeaning] at hclass hgrammar
      obtain rfl : kind = .integer := by simpa [Meaning.class?] using hclass
      exact absurd hvalue (Nat.not_le_of_lt hgrammar.2.integer_lt)
    | fault f =>
      rw [hmeaning] at hclass hfits
      cases hfits.1 with
      | character | string => cases hclass
      | number => rfl
  | @unexpected d _ hquote hnone =>
    obtain ⟨rfl, rfl⟩ := List.cons.inj (List.singleton_append ▸ hsplit)
    cases hmeaning : (first d after).meaning with
    | fault f =>
      rw [hmeaning] at hfits
      have hbegins := first_text_begins d after
      cases hclass : Meaning.class? (.fault f) with
      | some found => exact absurd hbegins (hnone _ _ (lexical_of_class? (hmeaning ▸ hclass)))
      | none =>
      generalize (first d after).text = text at hfits hbegins
      cases hfits.1 with
      | character =>
        obtain ⟨rfl, -⟩ := List.cons_prefix_cons.mp hbegins
        exact ⟨rfl, rfl⟩
      | string =>
        obtain ⟨rfl, -⟩ := List.cons_prefix_cons.mp hbegins
        exact absurd rfl hquote
      | number => cases hclass
    | _ =>
      exact absurd (first_text_begins d after) (hnone _ _ (lexical_of_class? (by rw [hmeaning]; rfl)))

def reading (read rest : List Char) : List Token × Option CompileError :=
  let held := tokens (.behind read) (all rest)
  match finish (.behind read) (all rest) with
  | .ok p => (held ++ [⟨.eof, "", none, ⟨p.offset, 0, p.line⟩⟩], none)
  | .error e => (held, some e)

private theorem reading_nil (read : List Char) :
    reading read [] = ([⟨.eof, "", none, .behind read []⟩], none) := by
  rw [reading, all_nil]
  rfl

private theorem reading_fault (h : (first c rest).meaning = .fault f) (read : List Char) :
    reading read (c :: rest) = ([], some (.scan f.kind f.message (1 + read.count '\n')
      (.behind read (first c rest).text))) := by
  have herror := error?_behind h (first_text_ne_nil c rest) read
  simp only [reading, all_cons_of_error herror, finish, herror, tokens, token?_of_error herror]
  rfl

private theorem reading_cons (h : ∀ f, (first c rest).meaning ≠ .fault f) (read : List Char) :
    reading read (c :: rest) =
      let later := reading (read ++ (first c rest).text) (rest.drop ((first c rest).text.length - 1))
      (((first c rest).token? (.behind read)).toList ++ later.1, later.2) := by
  have herror : (first c rest).error? (.behind read) = none := by
    unfold error?
    split
    · next f hf => exact absurd hf (h f)
    · rfl
  simp only [reading, all_cons herror, finish, herror, tokens, Place.after_behind (first_fits c rest)]
  cases finish (.behind (read ++ (first c rest).text))
    (all (rest.drop ((first c rest).text.length - 1))) with
  | ok p => simp only [List.append_assoc]
  | error e => rfl

private theorem tokenizes_cons {read : List Char} {later : List Token} {ending : Option CompileError}
    (hfault : ∀ f, (first c rest).meaning ≠ .fault f)
    (h : Tokenizes (read ++ (first c rest).text) (rest.drop ((first c rest).text.length - 1)) later
      ending) :
    Tokenizes read (c :: rest) (((first c rest).token? (.behind read)).toList ++ later) ending := by
  have hgrammar := first_inGrammar c rest
  have hlongest {found : LexemeClass} (h : (first c rest).meaning.class? = some found) :=
    longest_first h
  rw [← first_append_drop c rest] at hlongest ⊢
  unfold InGrammar at hgrammar
  cases hmeaning : (first c rest).meaning with
  | fault f => exact absurd hmeaning (hfault f)
  | token kind literal =>
    rw [hmeaning] at hgrammar hlongest
    rw [token?_behind hmeaning]
    exact .token (hlongest rfl) hgrammar.2 h
  | blank | newline =>
    rw [hmeaning] at hlongest
    rw [token?, hmeaning]
    exact .skip (hlongest rfl) (.inl rfl) h
  | comment =>
    rw [hmeaning] at hlongest
    rw [token?, hmeaning]
    exact .skip (hlongest rfl) (.inr rfl) h

theorem tokenizes_reading (read rest : List Char) :
    Tokenizes read rest (reading read rest).1 (reading read rest).2 := by
  fun_induction all rest generalizing read with
  | case1 =>
    rw [reading_nil]
    exact .eof
  | case2 c rest l f hmeaning =>
    rw [reading_fault hmeaning, ← first_append_drop c rest]
    exact .stuck (stuck_of_fault hmeaning)
  | case3 c rest l hfault ih =>
    rw [reading_cons hfault]
    exact tokenizes_cons hfault (ih _)

theorem lexical_ne_nil (h : Lexical lexeme found) : lexeme ≠ [] := by
  cases h with
  | symbol h | keyword h =>
    revert h
    rename_i kind
    cases kind <;> decide
  | integer hsome => exact hsome
  | float => exact List.append_ne_nil_of_right_ne_nil _ (List.cons_ne_nil _ _)
  | whitespace | comment | identifier | string => exact List.cons_ne_nil _ _

private theorem first_of_longest (h : Longest (lexeme ++ after) lexeme found) :
    ∃ c rest, lexeme ++ after = c :: rest ∧ (first c rest).text = lexeme ∧
      rest.drop ((first c rest).text.length - 1) = after ∧
      (first c rest).meaning.class? = some found := by
  obtain ⟨c, more, rfl⟩ := List.exists_cons_of_ne_nil (lexical_ne_nil h.lexical)
  rw [List.cons_append] at h
  obtain ⟨htext, hclass⟩ := eq_first_of_longest h
  have hsplit := first_append_drop c (more ++ after)
  refine ⟨c, more ++ after, rfl, htext.symm, ?_, hclass⟩
  rw [← htext] at hsplit ⊢
  exact List.append_cancel_left hsplit

private theorem class?_of_fault (h : Meaning.class? (.fault f) = some found) :
    found = .token .integer := by
  cases f <;> cases h
  rfl

theorem meaning_of_denotes {kind : TokenKind} {literal : Option Literal}
    (htext : (first c rest).text = lexeme) (hclass : (first c rest).meaning.class? = some (.token kind))
    (hliteral : Denotes kind lexeme literal) : (first c rest).meaning = .token kind literal := by
  have hgrammar := first_inGrammar c rest
  have hfits := first_fits c rest
  unfold InGrammar at hgrammar
  unfold Fits at hfits
  rw [htext] at hgrammar hfits
  cases hmeaning : (first c rest).meaning with
  | blank | newline | comment => simp [hmeaning, Meaning.class?] at hclass
  | token kind' literal' =>
    rw [hmeaning] at hclass hgrammar
    obtain rfl : kind' = kind := by simpa [Meaning.class?] using hclass
    rw [hgrammar.2.unique hliteral rfl]
  | fault f =>
    rw [hmeaning] at hclass hfits
    obtain rfl : kind = .integer := by simpa using class?_of_fault hclass
    cases hfits.1 with
    | character | string => cases hclass
    | number _ _ _ hrange => exact absurd hrange (Nat.not_le_of_lt hliteral.integer_lt)

/-- There is only one way to take the longest lexeme again and again. -/
theorem eq_reading_of_tokenizes {read rest : List Char} {tokens : List Token}
    {ending : Option CompileError} (h : Tokenizes read rest tokens ending) :
    (tokens, ending) = reading read rest := by
  induction h with
  | eof => rw [reading_nil]
  | @stuck read lexeme rest fault h =>
    have hsome : lexeme ≠ [] := by
      cases h with
      | malformed h => exact lexical_ne_nil h.lexical
      | unterminated | unexpected => exact List.cons_ne_nil _ _
    obtain ⟨c, more, rfl⟩ := List.exists_cons_of_ne_nil hsome
    obtain ⟨htext, hmeaning⟩ := first_of_stuck h List.cons_append
    rw [List.cons_append, reading_fault hmeaning, htext]
  | @skip read lexeme rest found tokens ending hlongest hfound _ ih =>
    obtain ⟨c, more, hsplit, htext, hafter, hclass⟩ := first_of_longest hlongest
    have hmeaning : (∀ f, (first c more).meaning ≠ .fault f) ∧
        (first c more).token? (.behind read) = none := by
      cases hmeaning : (first c more).meaning with
      | blank | newline | comment => simp [token?, hmeaning]
      | token kind literal =>
        rw [hmeaning] at hclass
        obtain rfl := Option.some.inj hclass
        simp at hfound
      | fault f =>
        rw [hmeaning] at hclass
        obtain rfl := class?_of_fault hclass
        simp at hfound
    rw [hsplit, reading_cons hmeaning.1, hmeaning.2, hafter, htext, ← ih]
    rfl
  | @token read lexeme rest kind literal tokens ending hlongest hliteral _ ih =>
    obtain ⟨c, more, hsplit, htext, hafter, hclass⟩ := first_of_longest hlongest
    have hmeaning := meaning_of_denotes htext hclass hliteral
    rw [hsplit, reading_cons (by simp [hmeaning]), token?_behind hmeaning, hafter, htext, ← ih]
    rfl

end Lexeme

namespace Token

open Lexeme (reading)

theorem scan_eq_reading (text : String) :
    scan text = match (reading [] text.toList).2 with
      | none => .ok (reading [] text.toList).1
      | some error => .error ⟨error, some (reading [] text.toList).1⟩ := by
  have hplace : Lexeme.Place.behind [] = .start := rfl
  rw [scan_eq_transcript, Lexeme.transcript, reading, hplace]
  cases Lexeme.finish .start (Lexeme.all text.toList) <;> rfl

theorem scan_ok_iff {text : String} {tokens : List Token} :
    scan text = .ok tokens ↔ Tokenizes [] text.toList tokens none := by
  rw [scan_eq_reading]
  constructor
  · intro h
    have htokenizes := Lexeme.tokenizes_reading [] text.toList
    cases hending : (Lexeme.reading [] text.toList).2 with
    | none =>
      rw [hending] at h htokenizes
      exact Except.ok.inj h ▸ htokenizes
    | some e =>
      rw [hending] at h
      cases h
  · intro h
    rw [← Lexeme.eq_reading_of_tokenizes h]

/-- A scan takes the longest lexeme off the text again and again. It fails where that is no longer
possible, and only there. -/
theorem scan_iff_longest_match (text : String) (result : Except ScanFailure (List Token)) :
    scan text = result ↔ ∃ tokens ending, Tokenizes [] text.toList tokens ending ∧
      result = match ending with
        | none => .ok tokens
        | some error => .error ⟨error, some tokens⟩ := by
  constructor
  · rintro rfl
    exact ⟨_, _, Lexeme.tokenizes_reading [] text.toList, scan_eq_reading text⟩
  · rintro ⟨tokens, ending, htokens, rfl⟩
    obtain ⟨rfl, rfl⟩ := Prod.mk.inj (Lexeme.eq_reading_of_tokenizes htokens)
    exact scan_eq_reading text

end Token
end Copione
