import Copione.Proofs.JoinedTexts
import Copione.Proofs.LongestMatch
/-!
# Rejoined lexemes

A lexeme that a blank follows ends there, whatever comes behind the blank. So the lexemes of a text
can be set apart in another way, and the new text has the same tokens, at other places.
-/
namespace Copione

/-- Blanks, and comments with the newlines that end them. -/
inductive Spacing : List Char → Prop
  | nil : Spacing []
  | blank {c : Char} {rest : List Char} (hc : c ∈ [' ', '\t', '\r', '\n']) (h : Spacing rest) :
    Spacing (c :: rest)
  | comment {body rest : List Char} (hbody : '\n' ∉ body) (h : Spacing rest) :
    Spacing ('-' :: '-' :: body ++ '\n' :: rest)

structure Separator (text : List Char) : Prop where
  spacing : Spacing text
  begins : ∃ c ∈ [' ', '\t', '\r', '\n'], text.head? = some c

/-- The text is the lexemes with separators between them, not always the same one. -/
inductive Joined : List (List Char) → List Char → Prop
  | none : Joined [] []
  | one {lexeme : List Char} : Joined [lexeme] lexeme
  | more {lexeme next separator text : List Char} {lexemes : List (List Char)}
    (hseparator : Separator separator) (h : Joined (next :: lexemes) text) :
    Joined (lexeme :: next :: lexemes) (lexeme ++ (separator ++ text))

namespace Token

def content (t : Token) : TokenKind × String × Option Literal := (t.kind, t.lexeme, t.literal)

/-- The token is a lexeme of the grammar, and denotes what it should. -/
def Legible (t : Token) : Prop :=
  Lexical t.lexeme.toList (.token t.kind) ∧ Denotes t.kind t.lexeme.toList t.literal

/-- The text has the tokens `ts`, at whatever places, and then its end. -/
def Rescans (ts : List Token) (text : String) : Prop :=
  ∃ us e, scan text = .ok (us ++ [e]) ∧ us.map content = ts.map content ∧ e.content = (.eof, "", none)

end Token

namespace Lexeme

variable {lexeme rest : List Char} {kind : TokenKind} {literal : Option Literal}

private theorem stops_of_blank {c : Char} (hc : c ∈ [' ', '\t', '\r', '\n']) : Stops c := by
  simp only [List.mem_cons, List.not_mem_nil, or_false] at hc
  rcases hc with rfl | rfl | rfl | rfl <;> exact ⟨by decide, by decide, by decide⟩

theorem longest_of_blank (hlexical : Lexical lexeme (.token kind)) (hliteral : Denotes kind lexeme literal)
    (hrest : rest = [] ∨ ∃ c ∈ [' ', '\t', '\r', '\n'], rest.head? = some c) :
    Longest (lexeme ++ rest) lexeme (.token kind) := by
  have hself : Longest lexeme lexeme (.token kind) :=
    ⟨hlexical, List.prefix_rfl, fun _ hbegins => hbegins.length_le⟩
  rcases hrest with rfl | ⟨b, hb, hhead⟩
  · rwa [List.append_nil]
  · obtain ⟨more, rfl⟩ := List.head?_eq_some_iff.mp hhead
    obtain ⟨c, tail, rfl⟩ := List.exists_cons_of_ne_nil (lexical_ne_nil hlexical)
    obtain ⟨htext, hclass⟩ := eq_first_of_longest hself
    have hmeaning := meaning_of_denotes htext.symm hclass hliteral
    have hsame : first c (tail ++ b :: more) = first c tail :=
      first_stop tail more (stops_of_blank hb) c (.inr ⟨by simp [hmeaning], by simp [hmeaning]⟩)
    have hlongest : Longest (c :: (tail ++ b :: more)) _ (.token kind) :=
      longest_first (by rw [hsame]; exact hclass)
    rwa [hsame, ← htext] at hlongest

private theorem longest_blank {c : Char} (hc : c ∈ [' ', '\t', '\r', '\n']) (rest : List Char) :
    Longest ([c] ++ rest) [c] .whitespace := by
  have hfirst : (first c rest).text = [c] ∧ (first c rest).meaning.class? = some .whitespace := by
    simp only [List.mem_cons, List.not_mem_nil, or_false] at hc
    rcases hc with rfl | rfl | rfl | rfl <;> exact ⟨rfl, rfl⟩
  have hlongest := longest_first hfirst.2
  rwa [hfirst.1] at hlongest

private theorem longest_comment {body : List Char} (hbody : '\n' ∉ body) (rest : List Char) :
    Longest ('-' :: '-' :: body ++ '\n' :: rest) ('-' :: '-' :: body) .comment := by
  have hin : ∀ c ∈ body, (c != '\n') = true := fun c hc => by
    simp only [bne_iff_ne]
    exact fun h => hbody (h ▸ hc)
  have htext : (first '-' ('-' :: body ++ '\n' :: rest)).text = '-' :: '-' :: body := by
    rw [first_dash, ofDash, List.cons_append, List.head?_cons, if_pos rfl, List.tail_cons,
      List.takeWhile_append_of_pos hin, List.takeWhile_cons_of_neg (by simp), List.append_nil]
  have hclass : (first '-' ('-' :: body ++ '\n' :: rest)).meaning.class? = some .comment := rfl
  have hlongest := longest_first hclass
  rwa [htext] at hlongest

end Lexeme

namespace Tokenizes

variable {read rest : List Char} {tokens : List Token} {ending : Option CompileError}

theorem legible (h : Tokenizes read rest tokens ending) {t : Token} (ht : t ∈ tokens)
    (hkind : t.kind ≠ .eof) : t.Legible := by
  induction h with
  | eof =>
    obtain rfl := List.mem_singleton.mp ht
    exact absurd rfl hkind
  | skip _ _ _ ih => exact ih ht
  | token hlongest hliteral _ ih =>
    rcases List.mem_cons.mp ht with rfl | ht
    · simpa [Token.Legible] using ⟨hlongest.lexical, hliteral⟩
    · exact ih ht
  | stuck => cases ht

private theorem spaced {spacing : List Char} (hspacing : Spacing spacing)
    (h : Tokenizes (read ++ spacing) rest tokens ending) : Tokenizes read (spacing ++ rest) tokens ending := by
  induction hspacing generalizing read with
  | nil => simpa using h
  | @blank c spacing hc _ ih =>
    have hlater : Tokenizes (read ++ [c]) (spacing ++ rest) tokens ending := ih (by simpa using h)
    have hall := Tokenizes.skip (Lexeme.longest_blank hc (spacing ++ rest)) (.inl rfl) hlater
    simpa using hall
  | @comment body spacing hbody _ ih =>
    have hlater : Tokenizes (read ++ '-' :: '-' :: body) (['\n'] ++ (spacing ++ rest)) tokens ending :=
      .skip (Lexeme.longest_blank (by simp) _) (.inl rfl) (ih (by simpa using h))
    have hall := Tokenizes.skip (Lexeme.longest_comment hbody _) (.inr rfl) hlater
    simpa using hall

private theorem cons_legible {t : Token} (ht : t.Legible)
    (hrest : rest = [] ∨ ∃ c ∈ [' ', '\t', '\r', '\n'], rest.head? = some c)
    (h : Tokenizes (read ++ t.lexeme.toList) rest tokens ending) :
    ∃ u, u.content = t.content ∧ Tokenizes read (t.lexeme.toList ++ rest) (u :: tokens) ending :=
  ⟨_, by simp [Token.content], .token (Lexeme.longest_of_blank ht.1 ht.2 hrest) ht.2 h⟩

private theorem joined {ts : List Token} (hlegible : ∀ t ∈ ts, t.Legible) {text : List Char}
    (h : Joined (ts.map fun t => t.lexeme.toList) text) (read : List Char) :
    ∃ us e, Tokenizes read text (us ++ [e]) none ∧ us.map Token.content = ts.map Token.content ∧
      e.content = (.eof, "", none) := by
  generalize hlexemes : ts.map (fun t => t.lexeme.toList) = lexemes at h
  induction h generalizing ts read with
  | none =>
    obtain rfl := List.map_eq_nil_iff.mp hlexemes
    exact ⟨[], _, .eof, rfl, rfl⟩
  | one =>
    obtain ⟨t, ts, rfl, rfl, hnone⟩ := List.map_eq_cons_iff.mp hlexemes
    obtain rfl := List.map_eq_nil_iff.mp hnone
    obtain ⟨u, hu, htokens⟩ := cons_legible (hlegible t List.mem_cons_self) (.inl rfl) .eof
    rw [List.append_nil] at htokens
    exact ⟨[u], _, htokens, by simp [hu], rfl⟩
  | @more lexeme next separator text lexemes hseparator _ ih =>
    obtain ⟨t, ts, rfl, rfl, hnext⟩ := List.map_eq_cons_iff.mp hlexemes
    obtain ⟨us, e, hlater, hcontent, he⟩ :=
      ih (fun t ht => hlegible t (List.mem_cons_of_mem _ ht)) (read ++ t.lexeme.toList ++ separator) hnext
    have hbegins : ∃ c ∈ [' ', '\t', '\r', '\n'], (separator ++ text).head? = some c := by
      obtain ⟨c, hc, hhead⟩ := hseparator.begins
      exact ⟨c, hc, by simp [hhead]⟩
    obtain ⟨u, hu, htokens⟩ := cons_legible (hlegible t List.mem_cons_self) (.inr hbegins)
      (hlater.spaced hseparator.spacing)
    exact ⟨u :: us, e, htokens, by simp [hu, hcontent], he⟩

end Tokenizes

private theorem joined_intercalate {separator : List Char} (h : Separator separator)
    (lexemes : List (List Char)) :
    Joined lexemes (separator.intercalate lexemes) := by
  induction lexemes with
  | nil => exact .none
  | cons lexeme lexemes ih =>
    cases lexemes with
    | nil =>
      rw [List.intercalate_singleton]
      exact .one
    | cons next lexemes =>
      rw [List.intercalate_cons_cons, List.append_assoc]
      exact .more h ih

private theorem separator_blank {c : Char} (hc : c ∈ [' ', '\t', '\r', '\n']) : Separator [c] :=
  ⟨.blank hc .nil, c, hc, rfl⟩

namespace Token

/-- The lexemes of a text, joined by spaces, by newlines, or by other separators, are read again as they
were. -/
theorem lexemes_rescan {text : String} {tokens : List Token} (h : scan text = .ok tokens) :
    ∃ ts e, tokens = ts ++ [e] ∧ e.kind = .eof ∧
      Rescans ts (" ".intercalate (ts.map Token.lexeme)) ∧
      Rescans ts ("\n".intercalate (ts.map Token.lexeme)) ∧
      ∀ joined : String, Joined (ts.map fun t => t.lexeme.toList) joined.toList → Rescans ts joined := by
  obtain ⟨ts, e, rfl, he, hkinds⟩ := eof_of_scan h
  have hlegible : ∀ t ∈ ts, t.Legible := fun t ht =>
    (scan_ok_iff.mp h).legible (List.mem_append_left _ ht) (hkinds t ht)
  have hjoined : ∀ joined : String, Joined (ts.map fun t => t.lexeme.toList) joined.toList →
      Rescans ts joined := by
    intro joined hjoined
    obtain ⟨us, e, htokens, hcontent, he⟩ := Tokenizes.joined hlegible hjoined []
    exact ⟨us, e, scan_ok_iff.mpr htokens, hcontent, he⟩
  have hblank {c : Char} (hc : c ∈ [' ', '\t', '\r', '\n']) :
      Rescans ts ((String.singleton c).intercalate (ts.map Token.lexeme)) := by
    refine hjoined _ ?_
    rw [String.toList_intercalate, List.map_map, String.toList_singleton]
    exact joined_intercalate (separator_blank hc) _
  exact ⟨ts, e, rfl, he, hblank (c := ' ') (by simp), hblank (c := '\n') (by simp), hjoined⟩

/-- A number right before a dot, an operator right before a comment. -/
theorem lexemes_rescan_tight :
    let ts : List Token := [⟨.identifier, "a", some (.str "a"), ⟨0, 1, 1⟩⟩, ⟨.minus, "-", none, ⟨1, 1, 1⟩⟩,
      ⟨.integer, "1", some (.int 1), ⟨2, 1, 1⟩⟩, ⟨.dot, ".", none, ⟨3, 1, 1⟩⟩]
    scan "a-1." = .ok (ts ++ [⟨.eof, "", none, ⟨4, 0, 1⟩⟩]) ∧ Rescans ts "a\t--1\n- 1 ." := by
  intro ts
  have hscan : scan "a-1." = .ok (ts ++ [⟨.eof, "", none, ⟨4, 0, 1⟩⟩]) :=
    Run.eq_ok_of_toOption (by decide +kernel)
  refine ⟨hscan, ?_⟩
  obtain ⟨ts', e, hts, -, -, -, hrescans⟩ := lexemes_rescan hscan
  obtain ⟨rfl, -⟩ := List.append_inj' hts rfl
  have hspacing : Spacing ('-' :: '-' :: ['1'] ++ '\n' :: []) := .comment (by simp) .nil
  have hcomment : Separator ['\t', '-', '-', '1', '\n'] := ⟨.blank (by simp) hspacing, '\t', by simp, rfl⟩
  exact hrescans _ (.more hcomment (.more (separator_blank (c := ' ') (by simp))
    (.more (separator_blank (c := ' ') (by simp)) .one)))

end Token
end Copione
