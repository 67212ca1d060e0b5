import Mathlib.Tactic.FinCases
import Copione.Prompt
import Copione.Proofs.Balance
import Copione.Proofs.LongestMatch
import Copione.Proofs.Sessions
/-!
# Lines at the prompt

A line is run as the program that it is, and an expression as the call that prints its value, unless the
line ends in a comment: that comment is taken for the end of the statement, or takes in the end of the call.
-/
namespace Copione

private theorem Meaning.class?_eq_comment {meaning : Meaning} :
    meaning.class? = some .comment ↔ meaning = .comment := by
  cases meaning with
  | fault f => cases f <;> simp [Meaning.class?]
  | _ => simp [Meaning.class?]

namespace Lexeme

open Scanner (isNamePart isNameStart)

variable {p q : Place} {text : List Char} {l : Lexeme} {kind : TokenKind} {literal : Option Literal}

instance : Decidable (EndsInComment text) :=
  decidable_of_iff (∃ l ∈ (all text).getLast?, l.meaning.class? = some .comment)
    (exists_congr fun _ => and_congr_right fun _ => Meaning.class?_eq_comment)

private theorem exists_last (h : finish p (all text) = .ok q) (hsome : text ≠ []) :
    ∃ c rest, (all text).getLast? = some (first c rest) ∧
      (first c rest).text.getLast? = text.getLast? := by
  induction hlength : text.length using Nat.strongRecOn generalizing text p with
  | ind n ih =>
    cases text with
    | nil => exact absurd rfl hsome
    | cons c rest =>
      obtain ⟨-, hle, hall, hfinish⟩ := finish_all_cons h
      have hsplit := first_append_drop c rest
      by_cases hnil : rest.drop ((first c rest).text.length - 1) = []
      · rw [hnil, List.append_nil] at hsplit
        exact ⟨c, rest, by rw [hall, hnil, all_nil]; rfl, by rw [hsplit]⟩
      · obtain ⟨d, more, hlast, htext⟩ := ih _ (by simp at hlength ⊢; omega) hfinish hnil rfl
        refine ⟨d, more, by rw [hall, List.getLast?_cons, hlast]; rfl, ?_⟩
        rw [htext, ← hsplit, List.getLast?_append_of_ne_nil _ hnil]

private theorem exists_last_token {ls : List Lexeme} (h : ls.getLast? = some l)
    (hmeaning : l.meaning = .token kind literal) (p : Place) :
    ∃ t, (tokens p ls).getLast? = some t ∧ t.kind = kind := by
  induction ls generalizing p with
  | nil => cases h
  | cons first ls ih =>
    cases ls with
    | nil =>
      obtain rfl : first = l := by simpa using h
      refine ⟨_, by simp only [tokens, token?, hmeaning]; rfl, rfl⟩
    | cons second ls =>
      obtain ⟨t, ht, hkind⟩ := ih (by simpa using h) (p.after first)
      refine ⟨t, ?_, hkind⟩
      rw [tokens, List.getLast?_append, ht]
      rfl

end Lexeme

/-- Only the tokens that end statements end like one. -/
theorem Lexical.getLast_statement {lexeme : List Char} {kind : TokenKind}
    (h : Lexical lexeme (.token kind)) :
    (lexeme.getLast? = some ';' ∨ lexeme.getLast? = some '\x7d') ↔
      kind = .semicolon ∨ kind = .rightBrace := by
  have hfree (hkind : kind ≠ .semicolon ∧ kind ≠ .rightBrace)
      (hfree : ∀ c ∈ lexeme, c ≠ ';' ∧ c ≠ '\x7d') : (lexeme.getLast? = some ';' ∨
        lexeme.getLast? = some '\x7d') ↔ kind = .semicolon ∨ kind = .rightBrace := by
    refine iff_of_false ?_ (not_or.mpr hkind)
    rintro (hlast | hlast)
    · exact (hfree _ (List.mem_of_getLast? hlast)).1 rfl
    · exact (hfree _ (List.mem_of_getLast? hlast)).2 rfl
  have hdigit {c : Char} (hc : c.isDigit) : c ≠ ';' ∧ c ≠ '\x7d' := by
    constructor <;> rintro rfl <;> exact absurd hc (by decide)
  have hname {c : Char} (hc : c.isAlphanum ∨ c = '_') : c ≠ ';' ∧ c ≠ '\x7d' := by
    constructor <;> rintro rfl <;> exact absurd hc (by decide)
  cases h with
  | symbol hkind =>
    revert hkind
    cases kind <;> decide
  | integer hsome hdigits => exact hfree (by decide) fun c hc => hdigit (hdigits c hc)
  | float hwhole hwholeDigits hfraction hfractionDigits =>
    refine hfree (by decide) fun c hc => ?_
    rcases List.mem_append.mp hc with hc | hc
    · exact hdigit (hwholeDigits c hc)
    · rcases List.mem_cons.mp hc with rfl | hc
      · decide
      · exact hdigit (hfractionDigits c hc)
  | keyword hkind =>
    revert hkind
    cases kind <;> decide
  | identifier hc hmore hkeyword =>
    refine hfree (by decide) fun d hd => ?_
    rcases List.mem_cons.mp hd with rfl | hd
    · exact hname (hc.imp_left fun hc => by simp [Char.isAlphanum, hc])
    · exact hname (hmore d hd)
  | string hquote hnewline =>
    rw [List.getLast?_concat]
    decide

def TokenKind.endsStmt (kind : TokenKind) : Prop := kind = .semicolon ∨ kind = .rightBrace

private theorem Token.endsStmt_of_word {t : Token}
    (h : t.word = .mark .semicolon ∨ t.word = .mark .rightBrace) :
    t.kind.endsStmt := by
  rcases h with h | h
  · exact .inl (by rw [← t.word_kind, h]; rfl)
  · exact .inr (by rw [← t.word_kind, h]; rfl)

private theorem Expr.Spelled.ne_nil {ts : List Token} {e : Expr} (h : e.Spelled ts) : ts ≠ [] := by
  rintro rfl
  obtain ⟨w, ws, hwords, -⟩ := e.words_eq_cons
  rw [← h.words] at hwords
  cases hwords

private theorem Stmt.Spelled.endsStmt : ∀ {ts : List Token} {s : Stmt}, s.Spelled ts →
    ∃ last, ts.getLast? = some last ∧ last.kind.endsStmt
  | _, _, .expr _ hend | _, _, .var _ _ hend | _, _, .varInit _ _ _ _ hend | _, _, .ret _ hend
  | _, _, .retValue _ _ hend => by
    refine ⟨_, ?_, Token.endsStmt_of_word (.inl hend)⟩
    simp [List.getLast?_cons]
  | _, _, .block _ _ hclose | _, _, .function _ _ _ _ _ _ _ hclose => by
    refine ⟨_, ?_, Token.endsStmt_of_word (.inr hclose)⟩
    simp [List.getLast?_cons]
  | _, _, .onlyThen _ _ _ _ h _ | _, _, .loop _ _ _ _ h _ => by
    obtain ⟨last, hlast, hends⟩ := h.endsStmt
    exact ⟨last, by simp [List.getLast?_cons, hlast], hends⟩
  | _, _, .thenElse _ _ _ _ _ _ h _ => by
    obtain ⟨last, hlast, hends⟩ := h.endsStmt
    exact ⟨last, by simp [List.getLast?_cons, hlast], hends⟩

private theorem Stmt.SpelledAll.endsStmt : ∀ {ts : List Token} {ss : List Stmt}, Stmt.SpelledAll ts ss →
    ts ≠ [] → ∃ last, ts.getLast? = some last ∧ last.kind.endsStmt
  | _, _, .nil, h => absurd rfl h
  | _, _, @Stmt.SpelledAll.cons _ us _ _ h hs, _ => by
    by_cases hnil : us = []
    · rw [hnil, List.append_nil]
      exact h.endsStmt
    · obtain ⟨last, hlast, hends⟩ := hs.endsStmt hnil
      exact ⟨last, by rw [List.getLast?_append, hlast]; rfl, hends⟩

private theorem Stmt.spelled_expr_of_singleton {ts : List Token} {e : Expr} {s : Span}
    (h : Stmt.SpelledAll ts [.expr e s]) : ∃ us last, e.Spelled us ∧ ts = us ++ [last] := by
  cases h with
  | cons h hs =>
    cases hs
    cases h with
    | expr h hend => exact ⟨_, _, h, by rw [List.append_nil]⟩

namespace Prompt

def text (line : String) : String := String.ofList (Text.trim line.toList)

def called (text : String) : String := "ScriveLina(" ++ text ++ ");"

/-- How far the text stands behind the beginning of the call. -/
def argument : Shift := ⟨11, 0⟩

def calleeToken : Token := ⟨.identifier, "ScriveLina", some (.str "ScriveLina"), ⟨0, 10, 1⟩⟩

def openToken : Token := ⟨.leftParen, "(", none, ⟨10, 1, 1⟩⟩

def closeToken (text : String) : Token :=
  ⟨.rightParen, ")", none, ⟨text.utf8ByteSize + 11, 1, 1 + text.toList.count '\n'⟩⟩

def endToken (text : String) : Token :=
  ⟨.semicolon, ";", none, ⟨text.utf8ByteSize + 12, 1, 1 + text.toList.count '\n'⟩⟩

def callTokens : List Token := [calleeToken, openToken]

def closeTokens (text : String) : List Token := [closeToken text, endToken text]

end Prompt

open Prompt (called argument callTokens closeTokens)

namespace Lexeme

variable {p q : Place} {text : List Char}

private theorem all_of_comment {c : Char} {rest more : List Char}
    (hmeaning : (first c rest).meaning = .comment)
    (hwhole : rest.drop ((first c rest).text.length - 1) = []) (hmore : '\n' ∉ more) :
    ∃ l, all (c :: (rest ++ more)) = [l] ∧ l.meaning = .comment := by
  have hfits := first_fits c rest
  rw [Fits, hmeaning] at hfits
  obtain ⟨body, htext, hbody, -⟩ := hfits
  have hsplit := first_append_drop c rest
  rw [hwhole, List.append_nil, htext] at hsplit
  obtain ⟨rfl, rfl⟩ := List.cons.inj hsplit
  have hline : ∀ d ∈ body ++ more, (d != '\n') = true := by
    intro d hd
    rw [bne_iff_ne]
    rintro rfl
    exact (List.mem_append.mp hd).elim hbody hmore
  have htaken : (body ++ more).takeWhile (· != '\n') = body ++ more := by
    rw [← List.append_nil (body ++ more), List.takeWhile_append_of_pos hline, List.takeWhile_nil]
  have hfirst : first '-' ('-' :: (body ++ more)) = ⟨'-' :: '-' :: (body ++ more), .comment, 3⟩ := by
    rw [first_dash, ofDash, if_pos (by rfl), List.tail_cons, htaken]
  refine ⟨first '-' ('-' :: (body ++ more)), ?_, by rw [hfirst]⟩
  rw [List.cons_append, all_cons_of_ne (by simp [hfirst]), hfirst]
  simp [all_nil]

private theorem finish_cons {l : Lexeme} (h : ∀ f, l.meaning ≠ .fault f) (p : Place)
    (ls : List Lexeme) :
    finish p (l :: ls) = finish (p.after l) ls := by
  have herror : l.error? p = none := by
    unfold error?
    split
    · next f hf => exact absurd hf (h f)
    · rfl
  rw [finish, herror]

private theorem tokens_comment {b : Char} (hb : Stops b) (h : finish p (all text) = .ok q)
    (hcomment : EndsInComment text) {more : List Char} (hmore : '\n' ∉ b :: more) :
    tokens p (all (text ++ b :: more)) = tokens p (all text) ∧
      ∃ r, finish p (all (text ++ b :: more)) = .ok r := by
  induction hlength : text.length using Nat.strongRecOn generalizing text p with
  | ind n ih =>
    obtain ⟨l, hlast, hmeaning⟩ := hcomment
    cases text with
    | nil => simp [all_nil] at hlast
    | cons c rest =>
      obtain ⟨hfault, hle, hall, hfinish⟩ := finish_all_cons h
      rw [hall] at hlast
      by_cases hnil : rest.drop ((first c rest).text.length - 1) = []
      · rw [hnil, all_nil] at hlast hall
        obtain rfl : first c rest = l := by simpa using hlast
        obtain ⟨l, hjoined, hmeaning'⟩ := all_of_comment hmeaning hnil hmore
        rw [List.cons_append, hjoined, hall]
        simp [tokens, token?, finish, error?, hmeaning, hmeaning']
      · have hsame : first c (rest ++ b :: more) = first c rest := by
          refine first_stop rest more hb c (.inr ⟨hfault, fun _ => Nat.le_of_not_lt fun hlong => ?_⟩)
          exact hnil (List.drop_eq_nil_of_le (by omega))
        obtain ⟨d, tail, hrest⟩ := List.exists_cons_of_ne_nil hnil
        have hends : EndsInComment (rest.drop ((first c rest).text.length - 1)) := by
          obtain ⟨-, -, hall', -⟩ := finish_all_cons (hrest ▸ hfinish)
          rw [← hrest] at hall'
          exact ⟨l, by simpa [hall', List.getLast?_cons] using hlast, hmeaning⟩
        obtain ⟨htokens, r, hr⟩ := ih _ (by simp at hlength ⊢; omega) hfinish hends rfl
        rw [List.cons_append, all_cons_of_ne (by rwa [hsame]), hsame, List.drop_append_of_le_length hle,
          hall, tokens, tokens, htokens, finish_cons hfault]
        exact ⟨rfl, r, hr⟩

def callOpening : List Lexeme :=
  [⟨"ScriveLina".toList, .token .identifier (some (.str "ScriveLina")), 11⟩,
    ofChar '(' (.token .leftParen none)]

private theorem all_callOpening (rest : List Char) :
    all ("ScriveLina(".toList ++ rest) = callOpening ++ all rest := by
  have hname : first 'S' ("criveLina(".toList ++ rest) =
      ⟨"ScriveLina".toList, .token .identifier (some (.str "ScriveLina")), 11⟩ := by
    rw [first_of_isNameStart (by decide)]
    rfl
  have hparen : all ('(' :: rest) = ofChar '(' (.token .leftParen none) :: all rest :=
    all_cons (p := ⟨0, 0⟩) rfl
  have hfault (f : ScanFault) : (first 'S' ("criveLina(".toList ++ rest)).meaning ≠ .fault f := by
    rw [hname]
    rintro ⟨⟩
  have hall := all_cons_of_ne hfault
  rw [hname] at hall
  exact hall.trans (congrArg _ hparen)

private theorem stops_rightParen : Stops ')' := ⟨by decide, by decide, by decide⟩

end Lexeme

namespace Token

open Lexeme (EndsInComment Place finish all)

variable {text : String} {ts : List Token} {last : Token}

private theorem scan_call {q : Place}
    (h : finish (Place.start.shift argument) (all (text.toList ++ [')', ';'])) = .ok q) :
    scan (called text) = .ok (callTokens ++
      Lexeme.tokens (Place.start.shift argument) (all (text.toList ++ [')', ';'])) ++
        [⟨.eof, "", none, ⟨q.offset, 0, q.line⟩⟩]) := by
  have htext : (called text).toList = "ScriveLina(".toList ++ (text.toList ++ [')', ';']) := by
    rw [called, String.toList_append, String.toList_append, List.append_assoc]
    rfl
  have hopening : finish .start Lexeme.callOpening = .ok (Place.start.shift argument) := rfl
  have htokens : Lexeme.tokens .start Lexeme.callOpening = callTokens := by rfl
  obtain ⟨hjoined, hjoinedTokens⟩ := Lexeme.finish_append hopening (all (text.toList ++ [')', ';']))
  rw [scan_eq_transcript, Lexeme.transcript, htext, Lexeme.all_callOpening]
  simp only [hjoined, hjoinedTokens, htokens, h]

/-- The tokens of a call of a text are those of the text between the tokens of the call. -/
theorem scan_called (h : scan text = .ok (ts ++ [last])) (hopen : ¬EndsInComment text.toList) :
    scan (called text) = .ok (callTokens ++ ts.map (shift argument) ++ closeTokens text ++
      [⟨.eof, "", none, ⟨text.utf8ByteSize + 13, 0, 1 + text.toList.count '\n'⟩⟩]) := by
  obtain ⟨htokens, hfinish⟩ := scan_eq_ok h
  obtain ⟨rfl, -⟩ := List.append_inj' htokens rfl
  obtain ⟨hmoved, hmovedTokens⟩ := Lexeme.finish_shift argument hfinish
  have hall : all (text.toList ++ [')', ';']) = all text.toList ++ all [')', ';'] :=
    Lexeme.all_stop Lexeme.stops_rightParen hfinish (.inr hopen) [';']
  obtain ⟨hjoined, hjoinedTokens⟩ := Lexeme.finish_append hmoved (all [')', ';'])
  rw [← hall] at hjoined hjoinedTokens
  have hend : all [')', ';'] =
      [.ofChar ')' (.token .rightParen none), .ofChar ';' (.token .semicolon none)] := by
    rw [Lexeme.all_cons (p := .start) rfl]
    change _ :: all [';'] = _
    rw [Lexeme.all_cons (p := .start) rfl]
    change _ :: _ :: all [] = _
    rw [Lexeme.all_nil]
    rfl
  have hplace : (Place.behind text.toList).shift argument =
      ⟨text.utf8ByteSize + 11, 1 + text.toList.count '\n'⟩ := by
    rw [← utf8Length_toList]
    rfl
  rw [hplace, hend] at hjoined hjoinedTokens
  rw [scan_call (hjoined.trans rfl), hjoinedTokens, hmovedTokens, List.append_assoc, List.append_assoc,
    List.append_assoc]
  rfl

private theorem scan_called_of_comment (h : scan text = .ok (ts ++ [last]))
    (hcomment : EndsInComment text.toList) :
    ∃ e : Token, e.kind = .eof ∧
      scan (called text) = .ok (callTokens ++ ts.map (shift argument) ++ [e]) := by
  obtain ⟨htokens, hfinish⟩ := scan_eq_ok h
  obtain ⟨rfl, -⟩ := List.append_inj' htokens rfl
  obtain ⟨hmoved, hmovedTokens⟩ := Lexeme.finish_shift argument hfinish
  obtain ⟨hjoinedTokens, r, hjoined⟩ := Lexeme.tokens_comment Lexeme.stops_rightParen hmoved hcomment
    (show '\n' ∉ [')', ';'] by decide)
  refine ⟨⟨.eof, "", none, ⟨r.offset, 0, r.line⟩⟩, rfl, ?_⟩
  rw [scan_call hjoined, hjoinedTokens, hmovedTokens]

end Token

namespace Lexeme

variable {p q : Place} {text : List Char} {ls : List Lexeme} {l : Lexeme}

private theorem meaning_of_finish (h : finish p ls = .ok q) (hl : l ∈ ls) (f : ScanFault) :
    l.meaning ≠ .fault f := by
  induction ls generalizing p with
  | nil => cases hl
  | cons first ls ih =>
    rw [finish] at h
    cases herror : first.error? p with
    | some e => simp [herror] at h
    | none =>
      rw [herror] at h
      rcases List.mem_cons.mp hl with rfl | hl
      · intro hf
        simp [error?, hf] at herror
      · exact ih h hl

/-- The last token of a text that ends neither in a comment nor in a blank ends a statement if the last
character says so. -/
theorem exists_last_of_text (h : finish p (all text) = .ok q) (hcomment : ¬EndsInComment text)
    {c : Char} (hlast : text.getLast? = some c) (hblank : Text.isBlank c = false) :
    ∃ t, (tokens p (all text)).getLast? = some t ∧
      ((c = ';' ∨ c = '\x7d') ↔ t.kind.endsStmt) := by
  have hsome : text ≠ [] := by
    rintro rfl
    cases hlast
  obtain ⟨d, rest, hlexeme, htext⟩ := exists_last h hsome
  rw [hlast] at htext
  have hfits := first_fits d rest
  unfold Fits at hfits
  cases hmeaning : (first d rest).meaning with
  | comment => exact absurd ⟨_, hlexeme, hmeaning⟩ hcomment
  | fault f => exact absurd hmeaning (meaning_of_finish h (List.mem_of_getLast? hlexeme) f)
  | blank =>
    rw [hmeaning] at hfits
    obtain ⟨b, hb, hmem⟩ := hfits
    rw [hb] at htext
    obtain rfl : b = c := by simpa using htext
    fin_cases hmem <;> exact absurd hblank (by decide)
  | newline =>
    rw [hmeaning] at hfits
    rw [show (first d rest).text = ['\n'] from hfits] at htext
    obtain rfl : '\n' = c := by simpa using htext
    exact absurd hblank (by decide)
  | token kind literal =>
    obtain ⟨t, ht, hkind⟩ := exists_last_token hlexeme hmeaning p
    have hlexical : Lexical (first d rest).text (.token kind) :=
      lexical_of_class? (by rw [hmeaning]; rfl)
    refine ⟨t, ht, ?_⟩
    have hends := hlexical.getLast_statement
    rw [htext] at hends
    rw [TokenKind.endsStmt, hkind, ← hends]
    simp

private theorem exists_first_token {c : Char} {rest : List Char} {kind : TokenKind}
    {literal : Option Literal}
    (h : (first c rest).meaning = .token kind literal) (p : Place) :
    ∃ t ∈ tokens p (all (c :: rest)), t.kind = kind := by
  rw [all_cons_of_ne (by simp [h]), tokens, token?]
  simp only [h, Option.toList_some, List.singleton_append]
  exact ⟨_, List.mem_cons_self, rfl⟩

private theorem first_keyword {c : Char} {more rest : List Char} {kind : TokenKind}
    (hc : Scanner.isNameStart c) (hmore : more.all Scanner.isNamePart)
    (hrest : rest.takeWhile Scanner.isNamePart = [])
    (hkeyword : TokenKind.keyword? (String.ofList (c :: more)) = some kind) :
    (first c (more ++ rest)).meaning = .token kind none := by
  rw [first_of_isNameStart hc, ofLetter,
    List.takeWhile_append_of_pos (List.all_eq_true.mp hmore), hrest, List.append_nil, hkeyword]

end Lexeme

namespace Prompt

private theorem isBlank_getLast_trim {line : List Char} {c : Char}
    (h : (Text.trim line).getLast? = some c) :
    Text.isBlank c = false := by
  rw [Text.trim, List.getLast?_reverse] at h
  have hhead := List.head?_dropWhile_not Text.isBlank (line.dropWhile Text.isBlank).reverse
  rw [h] at hhead
  simpa using hhead

private theorem programOf?_eq {line : String} (h : Text.trim line.toList ≠ []) :
    programOf? line =
      some (if isBareExpression (Text.trim line.toList) then called (text line) else text line) := by
  rw [programOf?]
  simp only [List.isEmpty_iff, h, if_false]
  split <;> rfl

private theorem not_isBare_of_statement {text : List Char} {c : Char} (h : text.getLast? = some c)
    (hc : c = ';' ∨ c = '\x7d') : isBareExpression text = false := by
  rcases hc with rfl | rfl <;> simp [isBareExpression, h]

/-- The words that begin statements are keywords, and no token of an expression. -/
theorem statementWords_keyword {word : String} (h : word ∈ statementWords) :
    ∃ c more kind, word.toList = c :: more ∧ Scanner.isNameStart c ∧ more.all Scanner.isNamePart ∧
      TokenKind.keyword? word = some kind ∧ kind.inExpr = false := by
  fin_cases h
  all_goals exact ⟨_, _, _, rfl, by decide, by decide, rfl, rfl⟩

private theorem isWordChar_of_isNamePart {c : Char} (h : Scanner.isNamePart c) : isWordChar c := by
  rw [Scanner.isNamePart] at h
  simp [isWordChar, h]

open Lexeme (Place finish all tokens) in
private theorem isBare_of_inExpr {text : List Char} {p : Place}
    (hexpr : ∀ t ∈ tokens p (all text), t.kind.inExpr)
    (hlast : text.getLast? ≠ some ';' ∧ text.getLast? ≠ some '\x7d') :
    isBareExpression text = true := by
  have hsplit := List.takeWhile_append_dropWhile (p := isWordChar) (l := text)
  have hrest : (text.dropWhile isWordChar).takeWhile Scanner.isNamePart = [] := by
    have hhead := List.head?_dropWhile_not isWordChar text
    cases hdrop : text.dropWhile isWordChar with
    | nil => rfl
    | cons d rest =>
      rw [hdrop] at hhead
      refine List.takeWhile_cons_of_neg fun hd => ?_
      simp [isWordChar_of_isNamePart hd] at hhead
  have hword : String.ofList (text.takeWhile isWordChar) ∉ statementWords := by
    intro hmem
    obtain ⟨c, more, kind, hchars, hc, hmore, hkeyword, hkind⟩ := statementWords_keyword hmem
    rw [String.toList_ofList] at hchars
    rw [hchars] at hkeyword hsplit
    rw [← hsplit] at hexpr
    obtain ⟨t, ht, rfl⟩ := Lexeme.exists_first_token (Lexeme.first_keyword hc hmore hrest hkeyword) p
    rw [hexpr t ht] at hkind
    cases hkind
  have hbrace : (text.takeWhile isWordChar).head? ≠ some '\x7b' := by
    intro hhead
    obtain ⟨more, hmore⟩ := List.head?_eq_some_iff.mp hhead
    rw [hmore] at hsplit
    rw [← hsplit] at hexpr
    have hmeaning : (Lexeme.first '\x7b' (more ++ text.dropWhile isWordChar)).meaning =
        .token .leftBrace none := rfl
    obtain ⟨t, ht, hkind⟩ := Lexeme.exists_first_token hmeaning p
    have hinExpr := hexpr t ht
    rw [hkind] at hinExpr
    cases hinExpr
  simp [isBareExpression, hlast, hword, hbrace]

end Prompt

namespace Program

variable {ts : List Token} {last : Token} {program : List Stmt} {e : Expr} {s : Span}

private theorem ne_nil_of_parse_error {tokens : List Token} {errors : List CompileError}
    (h : parse tokens = .error errors) : errors ≠ [] := by
  rw [parse] at h
  split at h
  · split at h
    · cases h
    · next hsome =>
      obtain rfl := Except.error.inj h
      simpa using hsome
  · obtain rfl := Except.error.inj h
    simp

private theorem parse_of_unbalanced (hts : ∀ t ∈ ts, t.kind ≠ .eof) (hlast : last.kind = .eof)
    (hbalance : Bracket.parens.balance (ts.map Token.word) ≠ 0) :
    ∃ errors, parse (ts ++ [last]) = .error errors ∧ errors ≠ [] := by
  cases h : parse (ts ++ [last]) with
  | error errors => exact ⟨errors, rfl, ne_nil_of_parse_error h⟩
  | ok program =>
    obtain ⟨hspelled, hwell⟩ := parse_spelled hts hlast h
    rw [hspelled.words, (wordsOfAll_parens_balanced hwell).balance_eq] at hbalance
    exact absurd rfl hbalance

private theorem parse_of_inExpr (hlast : last.kind = .eof) (hsome : ts ≠ [])
    (hexpr : ∀ t ∈ ts, t.kind.inExpr) :
    ∃ errors, parse (ts ++ [last]) = .error errors ∧ errors ≠ [] := by
  cases h : parse (ts ++ [last]) with
  | error errors => exact ⟨errors, rfl, ne_nil_of_parse_error h⟩
  | ok program =>
    have hts : ∀ t ∈ ts, t.kind ≠ .eof := by
      intro t ht heof
      have := hexpr t ht
      rw [heof] at this
      cases this
    obtain ⟨t, ht, hends⟩ := (parse_spelled hts hlast h).1.endsStmt hsome
    have := hexpr t (List.mem_of_getLast? ht)
    rcases hends with hkind | hkind <;> rw [hkind] at this <;> cases this

private theorem spelled_of_expression {semicolon : Token} (hts : ∀ t ∈ ts, t.kind ≠ .eof)
    (hsemicolon : semicolon.kind = .semicolon) (hlast : last.kind = .eof)
    (h : parse (ts ++ [semicolon, last]) = .ok [.expr e s]) : e.Spelled ts ∧ e.WellFormed := by
  have hall : ∀ t ∈ ts ++ [semicolon], t.kind ≠ .eof := by
    intro t ht
    rcases List.mem_append.mp ht with ht | ht
    · exact hts t ht
    · rw [List.mem_singleton.mp ht, hsemicolon]
      decide
  rw [List.append_cons] at h
  obtain ⟨hspelled, hwell⟩ := parse_spelled hall hlast h
  obtain ⟨us, semicolon, hus, hends⟩ := Stmt.spelled_expr_of_singleton hspelled
  obtain ⟨rfl, -⟩ := List.append_inj' hends rfl
  cases hwell _ (List.mem_singleton_self _) with
  | expr hwell => exact ⟨hus, hwell⟩

end Program

namespace Prompt

def printing (text : String) (value : Expr) : Stmt :=
  .expr (.call (.name "ScriveLina" ⟨0, 10, 1⟩) [value] ⟨0, text.utf8ByteSize + 12, 1⟩)
    ⟨0, text.utf8ByteSize + 13, 1⟩

/-- The call that prints the value of the expression that a text is. -/
def echo (text : String) (e : Expr) : Stmt := printing text (e.shift argument)

/-- What is run of the line is no program. -/
def Refused (m : Machine) (line : String) : Prop :=
  ∃ errors, errors ≠ [] ∧ turn m line = (⟨"", some (.parse errors)⟩, m)

variable {m m' : Machine} {line : String} {ts : List Token} {last : Token} {e : Expr}

/-- Tokens of an expression between those of a call are read as the call. -/
theorem parse_echo {text : String} (hspelled : e.Spelled ts) (hwell : e.WellFormed)
    (hts : ∀ t ∈ ts, t.kind ≠ .eof) (hlast : last.kind = .eof) :
    Program.parse (callTokens ++ ts.map (Token.shift argument) ++ closeTokens text ++ [last]) =
      .ok [echo text e] := by
  have hname : calleeToken.word = .name "ScriveLina" := rfl
  have hopen : openToken.word = .mark .leftParen := rfl
  have hclose : (closeToken text).word = .mark .rightParen := rfl
  have hend : (endToken text).word = .mark .semicolon := rfl
  have hcall : Stmt.Spelled (callTokens ++ ts.map (Token.shift argument) ++ closeTokens text)
      (echo text e) := by
    have hmoved : (e.shift argument).Spelled (ts.map (Token.shift argument)) := hspelled.shift
    have hstatement := Stmt.Spelled.expr (.call (.name hname) hopen (.one hmoved) hclose) hend
    simpa [callTokens, closeTokens, calleeToken, closeToken, endToken, echo, printing, Span.through,
      Span.stop, Expr.span] using hstatement
  have hall : Stmt.SpelledAll _ [echo text e] := .cons hcall .nil
  have hkinds : ∀ t ∈ callTokens ++ ts.map (Token.shift argument) ++ closeTokens text,
      t.kind ≠ .eof := by
    have hmoved : ∀ t ∈ ts, (t.shift argument).kind ≠ .eof := hts
    simpa [callTokens, closeTokens, calleeToken, openToken, closeToken, endToken, or_imp, forall_and]
      using hmoved
  have hsame : (printing text e).WellFormed false :=
    .expr (.call (.name _ _) (by decide) (by simpa using hwell) _) _
  rw [List.append_nil] at hall
  exact Program.parse_of_spelled hkinds hlast hall [printing text e] (by simpa using hsame)
    (by simp [echo, printing, Stmt.eraseAll, Stmt.erase, Expr.erase, Expr.eraseAll])

private theorem exec_printing {text : String} {value : Expr} {v : Value} {fuel : Nat}
    (hname : m.scopes.get m.current "ScriveLina" = .ok (.function (.builtin .scriveLina)))
    (hvalue : Eval.eval (fuel + 1) value m = .ok v m')
    (hroom : m'.output.hasRoom (v.display ++ "\n")) :
    Eval.exec (fuel + 3) (printing text value) m =
      .ok () { m' with output := m'.output.take (v.display ++ "\n") } := by
  have hcallee : Eval.eval (fuel + 1) (.name "ScriveLina" ⟨0, 10, 1⟩) m =
      .ok (.function (.builtin .scriveLina)) m := by
    simp only [Eval.eval, Eval.locate, Eval.lookup, Run.bind_of_ok Run.get_apply, hname]
    rfl
  have harguments : Eval.evalAll (Eval.eval (fuel + 1)) [value] m = .ok [v] m' := by
    simp only [Eval.evalAll, Run.bind_of_ok hvalue]
    rfl
  have hwrite : Eval.write (v.display ++ "\n") m' =
      .ok () { m' with output := m'.output.take (v.display ++ "\n") } := by
    simp only [Eval.write, Run.bind_of_ok Run.get_apply, hroom, if_true, Run.modify_apply]
  have hcall : Eval.eval (fuel + 2) (.call (.name "ScriveLina" ⟨0, 10, 1⟩) [value]
      ⟨0, text.utf8ByteSize + 12, 1⟩) m =
        .ok .null { m' with output := m'.output.take (v.display ++ "\n") } := by
    rw [Eval.eval, Run.bind_of_ok hcallee, Run.bind_of_ok harguments]
    change Eval.locate 1 (Eval.write (v.display ++ "\n") >>= fun _ => pure Value.null) m' = _
    rw [Eval.locate, Run.bind_of_ok hwrite]
    rfl
  rw [printing, Eval.exec]
  exact Run.map_of_ok hcall

/-- A call that prints a value writes it last, in a line of its own. -/
theorem run_printing {text : String} {value : Expr} {v : Value}
    (hname : m.scopes.get m.current "ScriveLina" = .ok (.function (.builtin .scriveLina)))
    (hvalue : Eval.eval (Eval.lifetime - 2) value m = .ok v m')
    (hroom : m'.output.hasRoom (v.display ++ "\n")) :
    m.run [printing text value] = (⟨m'.output.since m.output ++ (v.display ++ "\n"), none⟩,
      { m' with output := m'.output.take (v.display ++ "\n") }) := by
  have hinterpret : Eval.interpret Eval.lifetime [printing text value] m =
      .ok () { m' with output := m'.output.take (v.display ++ "\n") } :=
    (Run.bind_of_ok (exec_printing hname hvalue hroom)).trans rfl
  have hgrows : m.output.writes <:+ m'.output.writes := by
    have hvalues : (Coupling.writing m.output).Coupled m.current m.current false false _ _ _ :=
      ((Coupling.writing_lawful m.output).eval_exec (Eval.lifetime - 2)).1 rfl
        (Expr.alike_self (fun _ => rfl) value)
    have hjoined : (Coupling.writing m.output).Joined m.current m.current m m :=
      ⟨rfl, rfl, ⟨rfl, trivial⟩, rfl, ⟨rfl, List.suffix_refl _⟩, rfl, rfl⟩
    have hafter := (hvalues.after hjoined).output.2
    simpa [Machine.after, hvalue] using hafter
  have hlast : (m'.output.take (v.display ++ "\n")).since m'.output = v.display ++ "\n" :=
    (Output.since_of_append (List.singleton_append ..)).trans (by simp)
  rw [Machine.run_ok hinterpret, Output.since_trans hgrows (List.suffix_cons _ _)]
  simp only [hlast]

private theorem toList_text (line : String) : (text line).toList = Text.trim line.toList :=
  String.toList_ofList

private theorem turn_eq (m : Machine) (h : Text.trim line.toList ≠ []) :
    turn m line = m.feed (Token.scan
      (if isBareExpression (text line).toList then called (text line) else text line)) := by
  rw [turn, programOf?_eq h, toList_text]

private theorem refused_of_parse {text' : String} {tokens : List Token} (h : Text.trim line.toList ≠ [])
    (htext : (if isBareExpression (text line).toList then called (text line) else text line) = text')
    (hscan : Token.scan text' = .ok tokens)
    (hparse : ∃ errors, Program.parse tokens = .error errors ∧ errors ≠ []) (m : Machine) :
    Refused m line := by
  obtain ⟨errors, hparse, hsome⟩ := hparse
  refine ⟨errors, hsome, ?_⟩
  rw [turn_eq m h, htext, hscan]
  simp only [Machine.feed, hparse]

private theorem refused_of_comment (h : Text.trim line.toList ≠ [])
    (hscan : Token.scan (text line) = .ok (ts ++ [last])) (hts : ∀ t ∈ ts, t.kind ≠ .eof)
    (hcomment : Lexeme.EndsInComment (text line).toList)
    (hbare : isBareExpression (text line).toList)
    (hbalance : Bracket.parens.balance (ts.map Token.word) = 0) (m : Machine) : Refused m line := by
  obtain ⟨e, he, hcalled⟩ := Token.scan_called_of_comment hscan hcomment
  refine refused_of_parse h (if_pos hbare) hcalled (Program.parse_of_unbalanced ?_ he ?_) m
  · have hmoved : ∀ t ∈ ts, (t.shift argument).kind ≠ .eof := hts
    simpa [callTokens, calleeToken, openToken, or_imp, forall_and] using hmoved
  · rw [List.map_append, Token.map_word_shift, Bracket.balance_append, hbalance]
    decide

private theorem exists_last (h : Text.trim line.toList ≠ [])
    (hscan : Token.scan (text line) = .ok (ts ++ [last]))
    (hopen : ¬Lexeme.EndsInComment (text line).toList) :
    ∃ c t, (text line).toList.getLast? = some c ∧ ts.getLast? = some t ∧
      ((c = ';' ∨ c = '\x7d') ↔ t.kind.endsStmt) := by
  obtain ⟨htokens, hfinish⟩ := Token.scan_eq_ok hscan
  obtain ⟨rfl, -⟩ := List.append_inj' htokens rfl
  cases hc : (Text.trim line.toList).getLast? with
  | none => exact absurd (List.getLast?_eq_none_iff.mp hc) h
  | some c =>
    have hblank := isBlank_getLast_trim hc
    rw [← toList_text] at hc
    obtain ⟨t, ht⟩ := Lexeme.exists_last_of_text hfinish hopen hc hblank
    exact ⟨c, t, hc, ht⟩

/-- Unless it ends in a comment, an expression looks like one. -/
theorem isBare_of_expression (h : Text.trim line.toList ≠ [])
    (hscan : Token.scan (text line) = .ok (ts ++ [last]))
    (hopen : ¬Lexeme.EndsInComment (text line).toList) (hexpr : ∀ t ∈ ts, t.kind.inExpr) :
    isBareExpression (text line).toList = true := by
  obtain ⟨c, t, hc, ht, hiff⟩ := exists_last h hscan hopen
  have hinExpr := hexpr t (List.mem_of_getLast? ht)
  have hends : ¬t.kind.endsStmt := by
    rintro (hkind | hkind) <;> rw [hkind] at hinExpr <;> cases hinExpr
  rw [← hiff, not_or] at hends
  obtain ⟨rfl, -⟩ := List.append_inj' (Token.scan_eq_ok hscan).1 rfl
  exact isBare_of_inExpr hexpr (by simpa [hc] using hends)

/-- Unless it ends in a comment, no program looks like an expression. -/
theorem not_isBare_of_spelled {program : List Stmt} (h : Text.trim line.toList ≠ [])
    (hscan : Token.scan (text line) = .ok (ts ++ [last]))
    (hopen : ¬Lexeme.EndsInComment (text line).toList) (hspelled : Stmt.SpelledAll ts program) :
    isBareExpression (text line).toList = false := by
  obtain ⟨c, t, hc, ht, hiff⟩ := exists_last h hscan hopen
  obtain ⟨t', ht', hends⟩ := hspelled.endsStmt (by rintro rfl; cases ht)
  obtain rfl : t = t' := by simpa [ht] using ht'
  exact not_isBare_of_statement hc (hiff.mpr hends)

/-- A line whose text is a program runs as that program, and one whose text is an expression as the call
that prints the value of it. Only a comment at the end makes a difference: the line is refused if the
comment does not end like a statement, and that of an expression always is. -/
theorem turn_of_reads (m : Machine) (line : String) (hsome : Text.trim line.toList ≠ [])
    (ts : List Token) (last : Token) (hscan : Token.scan (text line) = .ok (ts ++ [last])) :
    (∀ program, Program.parse (ts ++ [last]) = .ok program →
      (¬(Lexeme.EndsInComment (text line).toList ∧ isBareExpression (text line).toList) →
        turn m line = m.run program) ∧
      (Lexeme.EndsInComment (text line).toList ∧ isBareExpression (text line).toList →
        Refused m line)) ∧
    ∀ (semicolon : Token) (e : Expr) (s : Span), semicolon.kind = .semicolon →
      Program.parse (ts ++ [semicolon, last]) = .ok [.expr e s] →
      (Lexeme.EndsInComment (text line).toList → Refused m line) ∧
      (¬Lexeme.EndsInComment (text line).toList → turn m line = m.run [echo (text line) e] ∧
        ∀ (v : Value) (m' : Machine),
          m.scopes.get m.current "ScriveLina" = .ok (.function (.builtin .scriveLina)) →
          Eval.eval (Eval.lifetime - 2) (e.shift argument) m = .ok v m' →
          m'.output.hasRoom (v.display ++ "\n") →
            turn m line = (⟨m'.output.since m.output ++ (v.display ++ "\n"), none⟩,
              { m' with output := m'.output.take (v.display ++ "\n") })) := by
  obtain ⟨ts', last', htokens, hlast, hts⟩ := Token.eof_of_scan hscan
  obtain ⟨rfl, hlast'⟩ := List.append_inj' htokens rfl
  obtain rfl := List.singleton_inj.mp hlast'
  constructor
  · intro program hparse
    obtain ⟨hspelled, hwell⟩ := Program.parse_spelled hts hlast hparse
    constructor
    · intro hplain
      have hbare : ¬isBareExpression (text line).toList := fun hbare => by
        have hopen : ¬Lexeme.EndsInComment (text line).toList := fun hcomment =>
          hplain ⟨hcomment, hbare⟩
        rw [not_isBare_of_spelled hsome hscan hopen hspelled] at hbare
        cases hbare
      rw [turn_eq m hsome, if_neg hbare]
      exact Machine.feed_of_reads ⟨_, hscan, hparse⟩ m
    · rintro ⟨hcomment, hbare⟩
      refine refused_of_comment hsome hscan hts hcomment hbare ?_ m
      rw [hspelled.words, (wordsOfAll_parens_balanced hwell).balance_eq]
  · intro semicolon e s hsemicolon hparse
    obtain ⟨hspelled, hwell⟩ := Program.spelled_of_expression hts hsemicolon hlast hparse
    have hexpr := inExpr_of_map_word hspelled.words hwell.words_inExpr
    constructor
    · intro hcomment
      by_cases hbare : isBareExpression (text line).toList
      · refine refused_of_comment hsome hscan hts hcomment hbare ?_ m
        rw [hspelled.words, hwell.parens_balanced.balance_eq]
      · exact refused_of_parse hsome (if_neg hbare) hscan
          (Program.parse_of_inExpr hlast hspelled.ne_nil hexpr) m
    · intro hopen
      have hturn : turn m line = m.run [echo (text line) e] := by
        rw [turn_eq m hsome, if_pos (isBare_of_expression hsome hscan hopen hexpr)]
        exact Machine.feed_of_reads
          ⟨_, Token.scan_called hscan hopen, parse_echo hspelled hwell hts rfl⟩ m
      exact ⟨hturn, fun v m' hname hvalue hroom => hturn.trans (run_printing hname hvalue hroom)⟩

/-- A statement with a comment behind it is refused, and an expression alone prints its value. -/
theorem turn_of_reads_comment :
    (∃ program, Program.Reads (text "ScriveLina(1); -- one") program) ∧
      Refused (.start .unlimited fun _ => 0) "ScriveLina(1); -- one" ∧
      (turn (.start .unlimited fun _ => 0) "\"ciao\"").1 = ⟨"ciao\n", none⟩ := by
  have hstatement : Token.scan (text "ScriveLina(1); -- one") =
      .ok ([⟨.identifier, "ScriveLina", some (.str "ScriveLina"), ⟨0, 10, 1⟩⟩,
        ⟨.leftParen, "(", none, ⟨10, 1, 1⟩⟩, ⟨.integer, "1", some (.int 1), ⟨11, 1, 1⟩⟩,
        ⟨.rightParen, ")", none, ⟨12, 1, 1⟩⟩, ⟨.semicolon, ";", none, ⟨13, 1, 1⟩⟩] ++
          [⟨.eof, "", none, ⟨21, 0, 1⟩⟩]) := Run.eq_ok_of_toOption (by decide +kernel)
  have hliteral : Token.scan (text "\"ciao\"") = .ok ([⟨.string, "\"ciao\"", some (.str "ciao"),
      ⟨0, 6, 1⟩⟩] ++ [⟨.eof, "", none, ⟨6, 0, 1⟩⟩]) := Run.eq_ok_of_toOption (by decide +kernel)
  have hrefused := (turn_of_reads (.start .unlimited fun _ => 0) "ScriveLina(1); -- one"
    (by decide +kernel) _ _ hstatement).1 _ rfl
  have hprinted := (turn_of_reads (.start .unlimited fun _ => 0) "\"ciao\""
    (by decide +kernel) _ _ hliteral).2 ⟨.semicolon, ";", none, ⟨6, 1, 1⟩⟩ _ _ rfl rfl
  refine ⟨⟨_, _, hstatement, rfl⟩, hrefused.2 ⟨by decide +kernel, by decide +kernel⟩, ?_⟩
  rw [(hprinted.2 (by decide +kernel)).2 (.str "ciao") (.start .unlimited fun _ => 0) rfl rfl rfl]
  rfl

end Prompt

end Copione
