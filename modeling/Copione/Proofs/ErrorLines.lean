import Copione.Proofs.ScanRuns
import Copione.Proofs.WindowView
/-!
# The lines of scan errors

An error of a scan is on the line of its offset, also when the scanner is asked to go on after a
failure. It is one line short in one case: the source failed when it was asked whether a newline is
the last character.
-/
namespace Copione

namespace Scanner

open Source (View)

variable {σ : Type}

/-- How many lines the token's line is behind what was read. A newline is on the line that it ends,
so it is not left until the next lexeme begins. -/
def lag (read : List Char) : Nat := if read.getLast? = some '\n' then 1 else 0

private theorem lag_of_ne {read : List Char} (h : read.getLast? ≠ some '\n') : lag read = 0 := if_neg h

private theorem lag_append_newline (read : List Char) : lag (read ++ ['\n']) = 1 := by simp [lag]

/-- The scanner is in `text`, behind `before` and the token. -/
structure Stands (V : View σ) (text before : List Char) (s : Scanner σ) : Prop where
  inv : V.inv s.source
  text_eq : before ++ (V.cursor s.source).token ++ (V.cursor s.source).rest = text
  offset_eq : (V.cursor s.source).tokenOffset = utf8Length before
  line_eq : s.line = 1 + (before ++ (V.cursor s.source).token).count '\n'

structure Inside (V : View σ) (text before : List Char) (s : Scanner σ) : Prop
    extends Stands V text before s where
  tokenLine_eq : s.tokenLine = 1 + before.count '\n'
  notMem : '\n' ∉ (V.cursor s.source).token
  getLast_ne : (before ++ (V.cursor s.source).token).getLast? ≠ some '\n'

structure Between (V : View σ) (text before : List Char) (s : Scanner σ) : Prop
    extends Stands V text before s where
  line_lag : s.tokenLine + lag (before ++ (V.cursor s.source).token) = s.line

/-- The error `e` is about the token, and on its line unless a newline was read last. Only a
failure of the reader is reported then, at what comes behind the newline. -/
structure Pinned (V : View σ) (text before : List Char) (e : CompileError) (s : Scanner σ) : Prop
    extends Between V text before s where
  offset : e.span.offset = utf8Length before
  span_line : e.span.line = e.line
  line_lag_eq : e.line + lag (before ++ (V.cursor s.source).token) = 1 + before.count '\n'
  unreadable : (before ++ (V.cursor s.source).token).getLast? = some '\n' →
    (V.cursor s.source).token = [] ∧ e.kind = .sourceUnreadable

/-- From `s` the program ends in a state that is good for its result, or with a pinned error. -/
def Ends {α : Type} (V : View σ) (text : List Char) (s : Scanner σ) (x : Scan σ α)
    (good : α → Scanner σ → Prop) : Prop :=
  match x s with
  | .ok a t => good a t
  | .error e t => ∃ before, Pinned V text before e t

variable {V : View σ} {text before : List Char} {s : Scanner σ} {α β : Type}
  {good : α → Scanner σ → Prop}

private theorem Ends.bind {x : Scan σ α} {f : α → Scan σ β} {good' : β → Scanner σ → Prop}
    (h : Ends V text s x good) (hf : ∀ a t, good a t → Ends V text t (f a) good') :
    Ends V text s (x >>= f) good' := by
  unfold Ends at h
  cases hrun : x s with
  | ok a t =>
    rw [hrun] at h
    rw [Ends, Run.bind_of_ok hrun]
    exact hf a t h
  | error e t =>
    rw [hrun] at h
    rw [Ends, Run.bind_of_error hrun]
    exact h

private theorem Ends.discard_bind {x : Scan σ α} {f : Unit → Scan σ β} {good' : β → Scanner σ → Prop}
    (h : Ends V text s x good) (hf : ∀ a t, good a t → Ends V text t (f ()) good') :
    Ends V text s (Functor.discard x >>= f) good' := by
  unfold Ends at h
  cases hrun : x s with
  | ok a t =>
    have hdiscard : Functor.discard x s = .ok () t := Run.map_of_ok hrun
    rw [hrun] at h
    rw [Ends, Run.bind_of_ok hdiscard]
    exact hf a t h
  | error e t =>
    have hdiscard : Functor.discard x s = .error e t := Run.map_of_error hrun
    rw [hrun] at h
    rw [Ends, Run.bind_of_error hdiscard]
    exact h

private theorem Stands.of_cursor_eq {source : σ} (h : Stands V text before s) (hinv : V.inv source)
    (hcursor : V.cursor source = V.cursor s.source) : Stands V text before { s with source } := by
  refine ⟨hinv, ?_, ?_, ?_⟩
  · simpa only [hcursor] using h.text_eq
  · simpa only [hcursor] using h.offset_eq
  · simpa only [hcursor] using h.line_eq

private theorem Stands.released {source : σ} (h : Stands V text before s) (hinv : V.inv source)
    (hcursor : V.cursor source = (V.cursor s.source).startToken) :
    Stands V text (before ++ (V.cursor s.source).token) { s with source } := by
  have htoken : (V.cursor source).token = [] := by rw [hcursor]; rfl
  refine ⟨hinv, ?_, ?_, ?_⟩
  · rw [htoken, hcursor, Cursor.startToken_rest, List.append_nil]
    exact h.text_eq
  · rw [hcursor, Cursor.startToken, h.offset_eq, Cursor.utf8Length_append]
  · rw [htoken, List.append_nil]
    exact h.line_eq

private theorem Inside.of_cursor_eq {source : σ} (h : Inside V text before s) (hinv : V.inv source)
    (hcursor : V.cursor source = V.cursor s.source) :
    Inside V text before { s with source } := by
  refine ⟨h.toStands.of_cursor_eq hinv hcursor, h.tokenLine_eq, ?_, ?_⟩
  · simpa only [hcursor] using h.notMem
  · simpa only [hcursor] using h.getLast_ne

private theorem Between.of_cursor_eq {source : σ} (h : Between V text before s) (hinv : V.inv source)
    (hcursor : V.cursor source = V.cursor s.source) :
    Between V text before { s with source } :=
  ⟨h.toStands.of_cursor_eq hinv hcursor, by simpa only [hcursor] using h.line_lag⟩

private theorem Between.released {source : σ} (h : Between V text before s) (hinv : V.inv source)
    (hcursor : V.cursor source = (V.cursor s.source).startToken) :
    Between V text (before ++ (V.cursor s.source).token) { s with source } := by
  have htoken : (V.cursor source).token = [] := by rw [hcursor]; rfl
  refine ⟨h.toStands.released hinv hcursor, ?_⟩
  rw [htoken, List.append_nil]
  exact h.line_lag

private theorem Inside.between (h : Inside V text before s) : Between V text before s := by
  refine ⟨h.toStands, ?_⟩
  rw [lag_of_ne h.getLast_ne, h.tokenLine_eq, h.line_eq, List.count_append,
    List.count_eq_zero.mpr h.notMem]
  rfl

private theorem Inside.pinned (h : Inside V text before s) (fault : ScanFault) {offset : Nat}
    (hoffset : offset = (V.cursor s.source).tokenOffset) (len : Nat) :
    Pinned V text before (fault.report offset len s.tokenLine) s := by
  refine ⟨h.between, hoffset.trans h.offset_eq, rfl, ?_, fun hlast => absurd hlast h.getLast_ne⟩
  rw [lag_of_ne h.getLast_ne]
  exact h.tokenLine_eq

private theorem Inside.took {c : Char} {rest : List Char} {source : σ} (h : Inside V text before s)
    (hinv : V.inv source) (hrest : (V.cursor s.source).rest = c :: rest) (hc : c ≠ '\n')
    (hcursor : V.cursor source = (V.cursor s.source).forward 1) :
    Inside V text before { s with source } := by
  have htoken : (V.cursor source).token = (V.cursor s.source).token ++ [c] := by
    rw [hcursor, Cursor.forward_token, hrest]
    rfl
  have hcount : [c].count '\n' = 0 := List.count_eq_zero.mpr (by simpa using hc.symm)
  refine ⟨⟨hinv, ?_, ?_, ?_⟩, h.tokenLine_eq, ?_, ?_⟩
  · rw [htoken, hcursor, Cursor.forward_rest, ← h.text_eq, hrest]
    simp
  · rw [hcursor]
    exact h.offset_eq
  · rw [htoken, ← List.append_assoc, List.count_append, hcount]
    exact h.line_eq
  · simp [htoken, h.notMem, hc.symm]
  · simp [htoken, hc]

private theorem Inside.released {source : σ} (h : Inside V text before s) (hinv : V.inv source)
    (hcursor : V.cursor source = (V.cursor s.source).startToken) :
    Inside V text (before ++ (V.cursor s.source).token) { s with source } := by
  have htoken : (V.cursor source).token = [] := by rw [hcursor]; rfl
  refine ⟨h.toStands.released hinv hcursor, ?_, by simp [htoken], ?_⟩
  · rw [List.count_append, List.count_eq_zero.mpr h.notMem]
    exact h.tokenLine_eq
  · rw [htoken, List.append_nil]
    exact h.getLast_ne

private theorem between_ofSource {source : σ} (hinv : V.inv source)
    (hcursor : V.cursor source = Cursor.ofText text) : Between V text [] (ofSource source) := by
  refine ⟨⟨hinv, ?_, ?_, ?_⟩, ?_⟩
  · simp [ofSource, hcursor, Cursor.ofText, Cursor.token]
  · simp [ofSource, hcursor, Cursor.ofText, utf8Length]
  · simp [ofSource, hcursor, Cursor.ofText, Cursor.token]
  · simp [ofSource, hcursor, Cursor.ofText, Cursor.token, lag]

variable [Source σ]

private theorem ask_ends {n : Nat} {question : EStateM SourceError σ α}
    {question' : EStateM SourceError Cursor α} (h : Inside V text before s)
    (hV : V.Lawful) (hagrees : V.Agrees n s.source question question')
    (hgood : ∀ {a source}, V.inv source → question' (V.cursor s.source) = .ok a (V.cursor source) →
      good a { s with source }) :
    Ends V text s (ask question) good := by
  unfold View.Agrees at hagrees
  unfold Ends ask
  cases hrun : question s.source with
  | ok a source =>
    rw [hrun] at hagrees
    exact hgood hagrees.1 hagrees.2.1
  | error e source =>
    rw [hrun] at hagrees
    obtain ⟨hinv, hcursor, -, -⟩ := hagrees
    exact ⟨before, (h.of_cursor_eq hinv hcursor).pinned _ (hV.tokenOffset hinv) 1⟩

private theorem peek_ends (hV : V.Lawful) (h : Inside V text before s) :
    Ends V text s (ask Source.peek) fun a t =>
      Inside V text before t ∧ (V.cursor t.source).rest.head? = a := by
  refine ask_ends h hV (hV.peek h.inv) fun {a source} hinv hanswer => ?_
  obtain ⟨rfl, hcursor⟩ := EStateM.Result.ok.inj hanswer
  exact ⟨h.of_cursor_eq hinv hcursor.symm, by rw [← hcursor]⟩

private theorem peekNext_ends (hV : V.Lawful) (h : Inside V text before s) :
    Ends V text s (ask Source.peekNext) fun _ t =>
      Inside V text before t ∧ (V.cursor t.source).rest = (V.cursor s.source).rest := by
  refine ask_ends h hV (hV.peekNext h.inv) fun {a source} hinv hanswer => ?_
  obtain ⟨-, hcursor⟩ := EStateM.Result.ok.inj hanswer
  exact ⟨h.of_cursor_eq hinv hcursor.symm, by rw [← hcursor]⟩

private theorem advance_ends {c : Char} (hV : V.Lawful) (h : Inside V text before s)
    (hnext : (V.cursor s.source).rest.head? = some c) (hc : c ≠ '\n') :
    Ends V text s (ask Source.advance) fun _ t => Inside V text before t := by
  obtain ⟨rest, hrest⟩ := List.head?_eq_some_iff.mp hnext
  refine ask_ends h hV (hV.advance h.inv) fun {a source} hinv hanswer => ?_
  rw [Cursor.advance_eq hrest] at hanswer
  obtain ⟨-, hcursor⟩ := EStateM.Result.ok.inj hanswer
  exact h.took hinv hrest hc hcursor.symm

private theorem advanceIf_ends {expected : Char} (hV : V.Lawful) (h : Inside V text before s)
    (hexpected : expected ≠ '\n') :
    Ends V text s (ask (Source.advanceIf expected)) fun _ t => Inside V text before t := by
  refine ask_ends h hV (hV.advanceIf expected h.inv) fun {a source} hinv hanswer => ?_
  rw [Source.advanceIf, Run.bind_of_ok (Cursor.peek_apply _)] at hanswer
  split at hanswer
  · next hhead =>
    obtain ⟨rest, hrest⟩ := List.head?_eq_some_iff.mp (eq_of_beq hhead)
    rw [Cursor.advance_eq hrest] at hanswer
    obtain ⟨-, hcursor⟩ := EStateM.Result.ok.inj hanswer
    exact h.took hinv hrest hexpected hcursor.symm
  · obtain ⟨-, hcursor⟩ := EStateM.Result.ok.inj hanswer
    exact h.of_cursor_eq hinv hcursor.symm

private theorem currentLexeme_ends (hV : V.Lawful) (h : Inside V text before s) :
    Ends V text s currentLexeme fun _ t => Inside V text before t := by
  obtain ⟨-, hinv, hcursor, -⟩ := hV.currentToken h.inv
  exact h.of_cursor_eq hinv hcursor

def Rests (V : View σ) (text : List Char) (_ : Unit) (s : Scanner σ) : Prop :=
  ∃ before, Between V text before s

private theorem emit_ends (hV : V.Lawful) (h : Inside V text before s) (kind : TokenKind)
    (literal : Option Literal) : Ends V text s (emit kind literal) (Rests V text) := by
  apply (currentLexeme_ends hV h).bind
  intro lexeme t ht
  exact ⟨before, ⟨ht.inv, ht.text_eq, ht.offset_eq, ht.line_eq⟩, ht.between.line_lag⟩

private theorem reject_ends (hV : V.Lawful) (h : Inside V text before s) (fault : ScanFault)
    (good : α → Scanner σ → Prop) : Ends V text s (reject fault) good := by
  apply (currentLexeme_ends hV h).bind
  intro lexeme t ht
  exact ⟨before, ht.pinned fault (hV.tokenOffset ht.inv) _⟩

private theorem skipWhile_ends {p : Char → Bool} (hV : V.Lawful) (hp : p '\n' = false) (fuel : Nat)
    (h : Inside V text before s) :
    Ends V text s (skipWhile p fuel) fun a t =>
      Inside V text before t ∧ ∀ c ∈ a, (V.cursor t.source).rest.head? = some c := by
  induction fuel generalizing s with
  | zero => exact ⟨h, by simp⟩
  | succ fuel ih =>
    rw [skipWhile]
    apply (peek_ends hV h).bind
    rintro next t ⟨ht, hnext⟩
    cases next with
    | none => exact ⟨ht, by simp⟩
    | some c =>
      dsimp only
      split
      · next hc =>
        have hne : c ≠ '\n' := by
          rintro rfl
          simp [hp] at hc
        apply (advance_ends hV ht hnext hne).discard_bind
        intro _ u hu
        exact ih hu
      · exact ⟨ht, by simpa using hnext⟩

private theorem comment_ends (hV : V.Lawful) (fuel : Nat) (h : Inside V text before s) :
    Ends V text s (comment fuel) (Rests V text) := by
  induction fuel generalizing s before with
  | zero => exact ⟨before, h.between⟩
  | succ fuel ih =>
    rw [comment]
    apply (peek_ends hV h).bind
    rintro next t ⟨ht, hnext⟩
    split
    · exact ⟨before, ht.between⟩
    · exact ⟨before, ht.between⟩
    · next c hne =>
      apply (advance_ends hV ht hnext (by rintro rfl; exact hne rfl)).discard_bind
      intro _ u hu
      obtain ⟨hinv, hcursor, -⟩ := hV.startToken hu.inv
      have hreleased : Ends V text u startToken fun _ v => Inside V text _ v :=
        hu.released hinv hcursor
      exact hreleased.bind fun _ _ hv => ih hv

private theorem string_ends (hV : V.Lawful) (fuel : Nat) (h : Inside V text before s) :
    Ends V text s (string fuel) (Rests V text) := by
  rw [string]
  apply (skipWhile_ends hV rfl fuel h).bind
  rintro stop t ⟨ht, hstop⟩
  split
  · apply (advance_ends hV ht (hstop _ rfl) (by decide)).discard_bind
    intro _ u hu
    apply (currentLexeme_ends hV hu).bind
    intro lexeme u hu
    exact emit_ends hV hu _ _
  · exact reject_ends hV ht _ _

private theorem word_ends (hV : V.Lawful) (fuel : Nat) (h : Inside V text before s) :
    Ends V text s (word fuel) (Rests V text) := by
  rw [word]
  apply (skipWhile_ends hV (by decide) fuel h).discard_bind
  rintro _ t ⟨ht, -⟩
  apply (currentLexeme_ends hV ht).bind
  intro lexeme t ht
  split
  · exact emit_ends hV ht _ _
  · exact emit_ends hV ht _ _

private theorem integer_ends (hV : V.Lawful) (h : Inside V text before s) :
    Ends V text s (do
      let lexeme ← currentLexeme
      match Numeral.toInt64? false lexeme.toList with
      | some n => emit .integer (some (.int n))
      | none => reject (.malformedNumber lexeme)) (Rests V text) := by
  apply (currentLexeme_ends hV h).bind
  intro lexeme t ht
  split
  · exact emit_ends hV ht _ _
  · exact reject_ends hV ht _ _

private theorem number_ends (hV : V.Lawful) (fuel : Nat) (h : Inside V text before s) :
    Ends V text s (number fuel) (Rests V text) := by
  rw [number]
  apply (skipWhile_ends hV (by decide) fuel h).bind
  rintro stop t ⟨ht, hstop⟩
  split
  · next hpoint =>
    have hpoint : (V.cursor t.source).rest.head? = some '.' := hstop '.' (eq_of_beq hpoint)
    apply (peekNext_ends hV ht).bind
    rintro next u ⟨hu, hrest⟩
    simp only [pure_bind]
    split
    · apply (advance_ends hV hu (hrest ▸ hpoint) (by decide)).discard_bind
      intro _ v hv
      apply (skipWhile_ends hV (by decide) fuel hv).discard_bind
      rintro _ v ⟨hv, -⟩
      apply (currentLexeme_ends hV hv).bind
      intro lexeme v hv
      exact emit_ends hV hv _ _
    · exact integer_ends hV hu
  · exact integer_ends hV ht

private theorem oneOrTwo_ends {second : Char} (hV : V.Lawful) (h : Inside V text before s)
    (hsecond : second ≠ '\n') (single double : TokenKind) :
    Ends V text s (oneOrTwo second single double) (Rests V text) := by
  apply (advanceIf_ends hV h hsecond).bind
  intro joined t ht
  exact emit_ends hV ht _ _

private theorem second_ne_newline {c second : Char} {single double : TokenKind}
    (h : TokenKind.double? c = some (second, single, double)) : second ≠ '\n' := by
  unfold TokenKind.double? at h
  split at h <;> cases h <;> decide

/-- The rest of a lexeme that is no newline. -/
theorem dispatch_ends {c : Char} (hV : V.Lawful) (hc : c ≠ '\n') (fuel : Nat)
    (h : Inside V text before s) : Ends V text s (dispatch fuel c) (Rests V text) := by
  unfold dispatch
  split
  · exact ⟨before, h.between⟩
  split
  · next hnewline => exact absurd (eq_of_beq hnewline) hc
  cases TokenKind.single? c with
  | some kind => exact emit_ends hV h _ _
  | none =>
  cases hdouble : TokenKind.double? c with
  | some pair => exact oneOrTwo_ends hV h (second_ne_newline hdouble) _ _
  | none =>
  dsimp only
  split
  · apply (advanceIf_ends hV h (by decide)).bind
    intro joined t ht
    split
    · exact comment_ends hV fuel ht
    · exact emit_ends hV ht _ _
  split
  · exact string_ends hV fuel h
  split
  · exact number_ends hV fuel h
  split
  · exact word_ends hV fuel h
  · exact reject_ends hV h _ _

/-- A character that was looked at is there to be taken, and a token that holds nothing has room for
the next character. -/
structure Ready (V : View σ) : Prop where
  taken : ∀ ⦃source source' : σ⦄ ⦃c : Char⦄, V.inv source → Source.peek source = .ok (some c) source' →
    ∃ a source'', Source.advance source' = .ok a source''
  room : ∀ ⦃capacity lookahead : Nat⦄ ⦃start : List Char⦄ ⦃c : Cursor⦄,
    V.refuses (.tokenTooLong capacity start) lookahead c → 0 < c.taken.length + lookahead

structure Poised (V : View σ) (text before : List Char) (s : Scanner σ) : Prop
    extends Stands V text before s where
  token_eq : (V.cursor s.source).token = []
  rest_ne : (V.cursor s.source).rest ≠ []
  tokenLine_eq : s.tokenLine = s.line
  taken : ∃ a source, Source.advance s.source = .ok a source

private theorem scanToken_ends (hV : V.Lawful) (fuel : Nat) (h : Poised V text before s) :
    Ends V text s (scanToken fuel) (Rests V text) := by
  obtain ⟨c, rest, hrest⟩ := List.exists_cons_of_ne_nil h.rest_ne
  obtain ⟨a, source, htaken⟩ := h.taken
  have hagrees := hV.advance h.inv
  rw [View.Agrees, htaken] at hagrees
  obtain ⟨hinv, hanswer, -⟩ := hagrees
  rw [Cursor.advance_eq hrest] at hanswer
  obtain ⟨rfl, hcursor⟩ := EStateM.Result.ok.inj hanswer
  have htoken : (V.cursor source).token = [c] := by
    rw [← hcursor, Cursor.forward_token, h.token_eq, hrest]
    rfl
  have htext : before ++ (V.cursor source).token ++ (V.cursor source).rest = text := by
    rw [htoken, ← hcursor, Cursor.forward_rest, ← h.text_eq, h.token_eq, hrest]
    simp
  have hoffset : (V.cursor source).tokenOffset = utf8Length before := hcursor ▸ h.offset_eq
  have hline : s.line = 1 + before.count '\n' := by
    rw [h.line_eq, h.token_eq, List.append_nil]
  have hask : ask Source.advance s = .ok (some c) { s with source } := by rw [ask, htaken]
  rw [Ends, scanToken, Run.bind_of_ok hask, ← Ends]
  by_cases hc : c = '\n'
  · subst hc
    refine ⟨before, ⟨hinv, htext, hoffset, ?_⟩, ?_⟩
    · rw [htoken, List.count_append]
      simp only [hline, List.count_singleton_self, Nat.add_assoc]
    · rw [htoken, lag_append_newline]
      simp only [h.tokenLine_eq]
  · apply dispatch_ends hV hc fuel
    have hnotMem : '\n' ∉ (V.cursor source).token := by simpa [htoken] using Ne.symm hc
    refine ⟨⟨hinv, htext, hoffset, ?_⟩, h.tokenLine_eq.trans hline, hnotMem, by simp [htoken, hc]⟩
    rw [List.count_append, List.count_eq_zero.mpr hnotMem]
    exact hline

/-- Whether the text is at its end can be asked right behind a newline, and the source can fail. -/
private theorem isAtEnd_ends (hV : V.Lawful) (hready : Ready V) (h : Between V text before s)
    (htoken : (V.cursor s.source).token = []) :
    Ends V text s (ask Source.isAtEnd) fun ended t => Between V text before t ∧
      (ended = false → Poised V text before { t with tokenLine := t.line }) := by
  have hagrees := hV.peek h.inv
  rw [View.Agrees] at hagrees
  rw [Ends, ask, Source.isAtEnd]
  cases hpeek : Source.peek s.source with
  | ok next source =>
    rw [hpeek] at hagrees
    obtain ⟨hinv, hanswer, -⟩ := hagrees
    obtain ⟨rfl, hcursor⟩ := EStateM.Result.ok.inj hanswer
    rw [Run.bind_of_ok hpeek]
    have hthere := h.of_cursor_eq hinv hcursor.symm
    refine ⟨hthere, fun hended => ?_⟩
    cases hrest : (V.cursor s.source).rest with
    | nil => simp [hrest] at hended
    | cons c rest =>
      rw [hrest] at hpeek
      exact ⟨⟨hinv, hthere.text_eq, hthere.offset_eq, hthere.line_eq⟩, by simpa only [← hcursor],
        by simp [← hcursor, hrest], rfl, hready.taken h.inv hpeek⟩
  | error e source =>
    rw [hpeek] at hagrees
    obtain ⟨hinv, hcursor, -, hrefuses⟩ := hagrees
    rw [Run.bind_of_error hpeek]
    have htoken' : (V.cursor source).token = [] := by rw [hcursor, htoken]
    have hline : s.line = 1 + before.count '\n' := by rw [h.line_eq, htoken, List.append_nil]
    refine ⟨before, h.of_cursor_eq hinv hcursor, ?_, rfl, ?_, fun _ => ⟨htoken', ?_⟩⟩
    · exact (hV.tokenOffset hinv).trans (by rw [hcursor, h.offset_eq])
    · simp only [hcursor]
      exact h.line_lag.trans hline
    · cases e with
      | unreadable reason => rfl
      | tokenTooLong capacity start =>
        have hroom := hready.room hrefuses
        have htaken : (V.cursor s.source).taken = [] := List.reverse_eq_nil_iff.mp htoken
        simp [htaken] at hroom

private theorem scanUpTo_ends (hV : V.Lawful) (hready : Ready V) (fuel : Nat)
    (h : Between V text before s) : Ends V text s (scanUpTo fuel) (Rests V text) := by
  induction fuel generalizing s before with
  | zero => exact ⟨before, h⟩
  | succ fuel ih =>
    obtain ⟨hinv, hcursor, -⟩ := hV.startToken h.inv
    have hreleased := h.released hinv hcursor
    have hstart : Ends V text s startToken fun _ t => t = { s with source := Source.startToken s.source } :=
      rfl
    rw [scanUpTo]
    apply hstart.bind
    rintro _ t rfl
    apply (isAtEnd_ends hV hready hreleased (by rw [hcursor]; rfl)).bind
    rintro ended t ⟨ht, hpoised⟩
    cases ended with
    | true => exact ⟨_, ht⟩
    | false =>
      apply (scanToken_ends hV fuel (hpoised rfl)).bind
      rintro _ u ⟨_, hu⟩
      exact ih hu

/-- However a scan ends, the scanner can go on from there. -/
theorem scanTokens_ends (hV : V.Lawful) (hready : Ready V) (h : Between V text before s) :
    Ends V text s scanTokens fun _ t => ∃ before, Between V text before t := by
  rw [scanTokens, Ends, Run.bind_of_ok Run.get_apply, ← Ends]
  apply (scanUpTo_ends hV hready _ h).bind
  rintro _ t ⟨before, ht⟩
  exact ⟨before, ⟨ht.inv, ht.text_eq, ht.offset_eq, ht.line_eq⟩, ht.line_lag⟩

def rescanned : Nat → Scanner σ → Scanner σ
  | 0, s => s
  | calls + 1, s =>
    match scanTokens s with
    | .ok _ t | .error _ t => rescanned calls t

private theorem between_rescanned (hV : V.Lawful) (hready : Ready V) (h : Between V text before s)
    (calls : Nat) : ∃ before, Between V text before (rescanned calls s) := by
  induction calls generalizing s before with
  | zero => exact ⟨before, h⟩
  | succ calls ih =>
    have hends := scanTokens_ends hV hready h
    unfold Ends at hends
    rw [rescanned]
    cases hrun : scanTokens s with
    | ok tokens t =>
      rw [hrun] at hends
      obtain ⟨_, ht⟩ := hends
      exact ih ht
    | error e t =>
      rw [hrun] at hends
      obtain ⟨_, ht⟩ := hends
      exact ih ht.toBetween

end Scanner

namespace Window

variable {lost : List UInt8} {capacity : Nat} {mayFail : String → Prop} {w t : Window}

/-- A character that is resident is taken without asking the reader. -/
theorem advance_of_resident (h : w.current < w.buffer.size) :
    advance w = .ok w.buffer[w.current]? { w with memo := none, current := w.current + 1 } := by
  have hensure : ensure 0 { w with memo := none } = .ok true { w with memo := none } := by
    rw [ensure_eq, if_pos (by exact h)]
  rw [advance_eq, look_eq, hensure]
  simp [h]

private theorem source_ready (lost : List UInt8) (mayFail : String → Prop) (hcapacity : 0 < capacity) :
    Scanner.Ready (source lost capacity mayFail) where
  taken {w t c} hw hpeek := by
    have hlook := look_looked 0 hw.1
    change look 0 w = _ at hpeek
    rw [hpeek] at hlook
    generalize hseen : EStateM.Result.ok (some c) t = result at hlook
    cases hlook with
    | seen hkept hresident =>
      obtain ⟨hc, rfl⟩ := EStateM.Result.ok.inj hseen
      exact ⟨_, _, advance_of_resident (hresident (by rw [← hc]; rfl))⟩
    | refused h => cases hseen
  room {n l start c} hrefuses := Nat.lt_of_lt_of_le hcapacity hrefuses.2

end Window

namespace Token

open Scanner

/-- What a scanner on a window reports is on the line of its offset, however many calls failed
before. Only a failure of the reader right behind a newline, asked for the next character, is
reported one line too early. If no window can be opened, that is reported at the first character. -/
theorem scan_error_lines (reader : Reader) (capacity : Nat) (lost : List UInt8) (text : String)
    (hlost : reader.failure = none → lost = [])
    (htext : Utf8.Decodes (reader.bytes ++ lost) text.toList) :
    (∀ cause, Window.open? reader capacity = .error cause →
      scanReader reader capacity = .error ⟨(ScanFault.source cause).report 0 1 1, none⟩) ∧
    ∀ window, Window.open? reader capacity = .ok window →
      ∀ calls e s, scanTokens (rescanned calls (.ofSource window)) = .error e s →
        ∃ before after, before ++ s.source.token ++ after = text.toList ∧
          e.span.offset = utf8Length before ∧ e.span.line = e.line ∧
          if (before ++ s.source.token).getLast? = some '\n' then
            e.kind = .sourceUnreadable ∧ s.source.token = [] ∧ e.line = before.count '\n'
          else e.line = 1 + before.count '\n' := by
  constructor
  · intro cause hopen
    rw [scanReader, hopen]
  · intro window hwindow calls e s hrun
    have hopen := Window.open?_shows capacity hlost
    rw [hwindow, ← htext.eq_decode] at hopen
    obtain ⟨hinv, hview⟩ := hopen
    have hlawful := Window.source_lawful lost (max capacity 1) reader.MayFail
    have hcapacity : 0 < max capacity 1 := by omega
    have hready := Window.source_ready lost reader.MayFail hcapacity
    obtain ⟨_, hs⟩ := between_rescanned hlawful hready (between_ofSource hinv hview) calls
    have hends := scanTokens_ends hlawful hready hs
    rw [Ends, hrun] at hends
    obtain ⟨before, h⟩ := hends
    have htoken : (Window.view lost s.source).token = s.source.token := by
      simp [Window.view, Cursor.token]
    obtain ⟨hbetween, hoffset, hspan, hline, hunreadable⟩ := h
    have hplace := hbetween.text_eq
    simp only [Window.source, htoken] at hplace hline hunreadable
    refine ⟨before, _, hplace, hoffset, hspan, ?_⟩
    split
    · next hlast =>
      obtain ⟨hempty, hkind⟩ := hunreadable hlast
      rw [lag, if_pos hlast] at hline
      exact ⟨hkind, hempty, by omega⟩
    · next hlast =>
      rw [lag_of_ne hlast] at hline
      exact hline

/-- A window of one character, whose reader fails behind the newline. The offset is on the second
line, and the error on the first. -/
theorem scan_error_lines_behind_newline :
    let reader : Reader := ⟨[0x0A], [], some "device went away"⟩
    ∃ window e s, Window.open? reader 1 = .ok window ∧
      scanTokens (.ofSource window) = .error e s ∧ e.span.offset = 1 ∧ e.line = 1 ∧
      ∃ before after, before ++ s.source.token ++ after = ['\n', 'x'] ∧
        e.span.offset = utf8Length before ∧ e.span.line = e.line ∧
        if (before ++ s.source.token).getLast? = some '\n' then
          e.kind = .sourceUnreadable ∧ s.source.token = [] ∧ e.line = before.count '\n'
        else e.line = 1 + before.count '\n' := by
  intro reader
  have hlines := (scan_error_lines reader 1 [0x78] "\nx" (by simp [reader])
    (Utf8.decodes_encoding ['\n', 'x'])).2
  have hfails : (((scanReader reader 1).map fun _ => (0, 0)).tryCatch fun failure =>
      .ok (failure.error.span.offset, failure.error.line)).toOption = some (1, 1) := by
    decide +kernel
  cases hopen : Window.open? reader 1 with
  | error cause =>
    simp only [scanReader, hopen] at hfails
    have hfirst : (0, 1) = (1, 1) := Option.some.inj hfails
    cases hfirst
  | ok window =>
    cases hrun : scanTokens (.ofSource window) with
    | ok tokens s =>
      simp only [scanReader, scanSource, hopen, hrun] at hfails
      have hread : (0, 0) = (1, 1) := Option.some.inj hfails
      cases hread
    | error e s =>
      simp only [scanReader, scanSource, hopen, hrun] at hfails
      have hplace : (e.span.offset, e.line) = (1, 1) := Option.some.inj hfails
      obtain ⟨hoffset, hline⟩ := Prod.mk.inj hplace
      exact ⟨window, e, s, rfl, hrun, hoffset, hline, hlines window hopen 0 e s hrun⟩

end Token
end Copione
