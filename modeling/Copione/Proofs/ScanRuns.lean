import Copione.Proofs.Lexemes
import Copione.Proofs.SourceView
/-!
# Runs of the scanner

What each part of the scanner does on a source that is seen as a text in memory: it does to the
text what the text's first lexeme says, unless the source refuses a character on the way.
-/
namespace Copione

namespace Cursor

def forward (n : Nat) (c : Cursor) : Cursor :=
  ⟨(c.rest.take n).reverse ++ c.taken, c.rest.drop n, c.tokenOffset⟩

@[simp] theorem forward_zero (c : Cursor) : c.forward 0 = c := by simp [forward]

@[simp] theorem forward_rest (n : Nat) (c : Cursor) : (c.forward n).rest = c.rest.drop n := rfl

@[simp] theorem forward_tokenOffset (n : Nat) (c : Cursor) :
    (c.forward n).tokenOffset = c.tokenOffset := rfl

@[simp] theorem forward_token (n : Nat) (c : Cursor) :
    (c.forward n).token = c.token ++ c.rest.take n := by simp [forward, token]

theorem forward_forward (m n : Nat) (c : Cursor) : (c.forward m).forward n = c.forward (m + n) := by
  simp only [forward, List.drop_drop, Cursor.mk.injEq, and_true]
  rw [List.take_add, List.reverse_append, List.append_assoc]

private theorem length_taken_forward (n : Nat) (c : Cursor) :
    (c.forward n).taken.length ≤ c.taken.length + n := by
  simp only [forward, List.length_append, List.length_reverse, List.length_take]
  omega

theorem advance_eq {c : Cursor} {x : Char} {rest : List Char} (h : c.rest = x :: rest) :
    Source.advance c = .ok (some x) (c.forward 1) := by
  obtain ⟨taken, rest', offset⟩ := c
  obtain rfl : rest' = x :: rest := h
  rfl

/-- The cursor after `n` more characters are taken and let go one by one. -/
def released (n : Nat) (c : Cursor) : Cursor := if n = 0 then c else (c.forward n).startToken

@[simp] theorem released_zero (c : Cursor) : c.released 0 = c := rfl

theorem utf8Length_append (s t : List Char) : utf8Length (s ++ t) = utf8Length s + utf8Length t := by
  induction s with
  | nil => simp [utf8Length]
  | cons c s ih =>
    simp only [utf8Length, List.cons_append, List.foldr_cons] at ih ⊢
    omega

/-- It does not matter to the next token when the characters before it were let go. -/
theorem startToken_forward_startToken (m n : Nat) (c : Cursor) :
    ((c.forward m).startToken.forward n).startToken = (c.forward (m + n)).startToken := by
  have htake : c.rest.take (m + n) = c.rest.take m ++ (c.rest.drop m).take n := List.take_add
  simp only [startToken, forward_token, forward_tokenOffset, forward_rest]
  simp only [token, List.reverse_nil, List.nil_append, List.drop_drop, Cursor.mk.injEq, true_and,
    htake, utf8Length_append]
  omega

@[simp] theorem startToken_startToken (c : Cursor) : c.startToken.startToken = c.startToken := rfl

private theorem released_succ (n : Nat) (c : Cursor) :
    (c.forward 1).startToken.released n = c.released (n + 1) := by
  unfold released
  split
  · next h => rw [h]; rfl
  · rw [startToken_forward_startToken, Nat.add_comm]
    rfl

theorem released_startToken (n : Nat) (c : Cursor) :
    (c.released n).startToken = (c.forward n).startToken := by
  unfold released
  split
  · next h => rw [h, forward_zero]
  · rw [startToken_startToken]

end Cursor

namespace Scanner

open Source (View)

variable {σ : Type} [Source σ] {α β : Type}

/-- The scanner as it would be over the text that its source shows. -/
def shown (V : View σ) (s : Scanner σ) : Scanner Cursor :=
  ⟨V.cursor s.source, s.tokens, s.line, s.tokenLine⟩

/-- The scanner `s` shows `u`, and fewer than `fuel` characters are still to come. -/
structure At (V : View σ) (fuel : Nat) (s : Scanner σ) (u : Scanner Cursor) : Prop where
  shown_eq : shown V s = u
  inv : V.inv s.source
  enough : Source.remaining s.source < fuel

/-- The source refused to show a character fewer than `room` places from the beginning of the
lexeme, and no token was added since `u`. -/
def Refused (V : View σ) (room : Nat) (u : Scanner Cursor) (e : CompileError) (t : Scanner σ) : Prop :=
  ∃ cause n, V.refuses cause n (V.cursor t.source) ∧
    (V.cursor t.source).taken.length + n < room ∧
    e = (ScanFault.source cause).report (V.cursor t.source).tokenOffset 1 t.tokenLine ∧
    t.tokens = u.tokens ∧ t.tokenLine = u.tokenLine

/-- From `s` the program ends as `outcome` says of the text that is shown, unless the source
refuses. -/
def Yields (V : View σ) (room fuel : Nat) (s : Scanner σ) (x : Scan σ α)
    (outcome : EStateM.Result CompileError (Scanner Cursor) α) : Prop :=
  match x s with
  | .ok a t => ∃ u, outcome = .ok a u ∧ At V fuel t u
  | .error e t =>
    V.inv t.source ∧ (outcome = .error e (shown V t) ∨ Refused V room (shown V s) e t)

variable {V : View σ} {room fuel : Nat} {s : Scanner σ} {u : Scanner Cursor}

theorem At.cursor_eq (h : At V fuel s u) : V.cursor s.source = u.source :=
  congrArg Scanner.source h.shown_eq

theorem At.tokens_eq (h : At V fuel s u) : s.tokens = u.tokens :=
  congrArg Scanner.tokens h.shown_eq

theorem At.line_eq (h : At V fuel s u) : s.line = u.line := congrArg Scanner.line h.shown_eq

theorem At.mono {fuel' : Nat} (h : At V fuel s u) (hfuel : fuel ≤ fuel') : At V fuel' s u :=
  ⟨h.shown_eq, h.inv, Nat.lt_of_lt_of_le h.enough hfuel⟩

private theorem Yields.mono {x : Scan σ α} {outcome : EStateM.Result CompileError (Scanner Cursor) α}
    {fuel' : Nat} (h : Yields V room fuel s x outcome) (hfuel : fuel ≤ fuel') :
    Yields V room fuel' s x outcome := by
  unfold Yields at h ⊢
  cases hx : x s with
  | ok a t =>
    rw [hx] at h
    obtain ⟨u, hu, hat⟩ := h
    exact ⟨u, hu, hat.mono hfuel⟩
  | error e t =>
    rw [hx] at h
    exact h

/-- Parts of the scanner that add no token follow one another. -/
theorem Yields.bind {v : Scanner Cursor} {x : Scan σ α} {f : α → Scan σ β} {a : α}
    {outcome : EStateM.Result CompileError (Scanner Cursor) β} (hs : shown V s = u)
    (hx : Yields V room fuel s x (.ok a v)) (htokens : v.tokens = u.tokens)
    (hline : v.tokenLine = u.tokenLine)
    (hf : ∀ {t}, At V fuel t v → Yields V room fuel t (f a) outcome) :
    Yields V room fuel s (x >>= f) outcome := by
  unfold Yields at hx
  cases hrun : x s with
  | ok b t =>
    rw [hrun] at hx
    obtain ⟨v', heq, hat⟩ := hx
    obtain ⟨rfl, rfl⟩ := EStateM.Result.ok.inj heq
    have h := hf hat
    unfold Yields at h ⊢
    rw [Run.bind_of_ok hrun]
    cases hrun' : f a t with
    | ok c w => rw [hrun'] at h; exact h
    | error e w =>
      rw [hrun'] at h
      refine ⟨h.1, h.2.imp_right ?_⟩
      rintro ⟨cause, n, hrefuses, hroom, he, htokens', hline'⟩
      rw [hat.shown_eq] at htokens' hline'
      rw [hs]
      exact ⟨cause, n, hrefuses, hroom, he, htokens'.trans htokens, hline'.trans hline⟩
  | error e t =>
    rw [hrun] at hx
    unfold Yields
    rw [Run.bind_of_error hrun]
    exact ⟨hx.1, .inr (hx.2.resolve_left (by simp))⟩

private theorem yields_of_ok {x : Scan σ α} {a : α} {t : Scanner σ} (hrun : x s = .ok a t)
    (ht : At V fuel t u) : Yields V room fuel s x (.ok a u) := by
  unfold Yields
  rw [hrun]
  exact ⟨u, rfl, ht⟩

/-- A question is answered as over the text. What it takes is no longer to come. -/
private theorem ask_yields (hV : V.Lawful) (hs : At V fuel s u) {n fuel' : Nat}
    {question : EStateM SourceError σ α} {question' : EStateM SourceError Cursor α} {a : α}
    {c : Cursor} (h : V.Agrees n s.source question question')
    (hanswer : question' u.source = .ok a c) (hroom : u.source.taken.length + n < room)
    (hfuel : fuel + c.rest.length ≤ fuel' + u.source.rest.length) :
    Yields V room fuel' s (ask question) (.ok a { u with source := c }) := by
  have hlt := hs.enough
  have hcursor := hs.cursor_eq
  unfold View.Agrees at h
  unfold Yields ask
  cases hrun : question s.source with
  | ok b t =>
    rw [hrun] at h
    obtain ⟨hinv, hb, hrem⟩ := h
    rw [hcursor, hanswer] at hb
    obtain ⟨rfl, rfl⟩ := EStateM.Result.ok.inj hb
    rw [hcursor] at hrem
    refine ⟨_, rfl, ?_, hinv, by simp only []; omega⟩
    rw [← hs.shown_eq]
    rfl
  | error e t =>
    rw [hrun] at h
    obtain ⟨hinv, hsame, -, hrefuses⟩ := h
    refine ⟨hinv, .inr ⟨e, n, ?_, ?_, ?_, rfl, rfl⟩⟩
    · rwa [hsame]
    · rwa [hsame, hcursor]
    · rw [hV.tokenOffset hinv]

theorem peek_yields (hV : V.Lawful) (hs : At V fuel s u) (hroom : u.source.taken.length < room) :
    Yields V room fuel s (ask Source.peek) (.ok u.source.rest.head? u) :=
  ask_yields hV hs (hV.peek hs.inv) (Cursor.peek_apply _) hroom (Nat.le_refl _)

theorem peekNext_yields (hV : V.Lawful) (hs : At V fuel s u)
    (hroom : u.source.taken.length + 1 < room) :
    Yields V room fuel s (ask Source.peekNext) (.ok u.source.rest[1]? u) :=
  ask_yields hV hs (hV.peekNext hs.inv) (Cursor.peekNext_apply _) hroom (Nat.le_refl _)

theorem advance_yields (hV : V.Lawful) (hs : At V (fuel + 1) s u) {c : Char} {rest : List Char}
    (hrest : u.source.rest = c :: rest) (hroom : u.source.taken.length < room) :
    Yields V room fuel s (ask Source.advance)
      (.ok (some c) { u with source := u.source.forward 1 }) := by
  refine ask_yields hV hs (hV.advance hs.inv) (Cursor.advance_eq hrest) hroom ?_
  rw [Cursor.forward_rest, hrest, List.drop_one, List.tail_cons, List.length_cons]
  omega

theorem advanceIf_yields (hV : V.Lawful) (hs : At V fuel s u) (expected : Char)
    (hroom : u.source.taken.length < room) :
    Yields V room fuel s (ask (Source.advanceIf expected))
      (if u.source.rest.head? = some expected then
        .ok (some expected) { u with source := u.source.forward 1 }
      else .ok none u) := by
  have h := hV.advanceIf expected hs.inv
  split
  · next hhead =>
    obtain ⟨rest, hrest⟩ := List.head?_eq_some_iff.mp hhead
    refine ask_yields hV hs h ?_ hroom ?_
    · rw [Source.advanceIf, Run.bind_of_ok (Cursor.peek_apply _), hhead, if_pos (beq_self_eq_true _)]
      exact Cursor.advance_eq hrest
    · rw [Cursor.forward_rest, List.length_drop]
      omega
  · next hhead =>
    refine ask_yields hV hs h ?_ hroom (Nat.le_refl _)
    rw [Source.advanceIf, Run.bind_of_ok (Cursor.peek_apply _), if_neg (by simpa using hhead)]
    rfl

theorem isAtEnd_yields (hV : V.Lawful) (hs : At V fuel s u) (hroom : u.source.taken.length < room) :
    Yields V room fuel s (ask Source.isAtEnd) (.ok u.source.rest.isEmpty u) := by
  refine ask_yields hV hs (hV.isAtEnd hs.inv) ?_ hroom (Nat.le_refl _)
  rw [Source.isAtEnd, Run.bind_of_ok (Cursor.peek_apply _), Run.pure_apply]
  cases u.source.rest <;> rfl

theorem startToken_yields (hV : V.Lawful) (hs : At V fuel s u) :
    Yields V room fuel s startToken (.ok () { u with source := u.source.startToken }) := by
  obtain ⟨hinv, hcursor, hrem⟩ := hV.startToken hs.inv
  refine yields_of_ok rfl ⟨?_, hinv, Nat.lt_of_le_of_lt hrem hs.enough⟩
  rw [← hs.shown_eq, shown, hcursor]
  rfl

private theorem currentLexeme_yields (hV : V.Lawful) (hs : At V fuel s u) :
    Yields V room fuel s currentLexeme (.ok (String.ofList u.source.token) u) := by
  obtain ⟨htext, hinv, hcursor, hrem⟩ := hV.currentToken hs.inv
  rw [← hs.cursor_eq, ← htext]
  refine yields_of_ok (t := { s with source := (Source.currentToken s.source).2 }) rfl
    ⟨?_, hinv, Nat.lt_of_le_of_lt hrem hs.enough⟩
  rw [← hs.shown_eq, shown, hcursor]
  rfl

private theorem emit_yields (hV : V.Lawful) (hs : At V fuel s u) (kind : TokenKind)
    (literal : Option Literal) :
    Yields V room fuel s (emit kind literal)
      (.ok () { u with tokens := u.tokens.push ⟨kind, String.ofList u.source.token, literal,
        ⟨u.source.tokenOffset, (String.ofList u.source.token).utf8ByteSize, u.tokenLine⟩⟩ }) := by
  refine .bind hs.shown_eq (currentLexeme_yields hV hs) rfl rfl fun {t} ht => ?_
  have hoffset : Source.tokenOffset t.source = (shown V t).source.tokenOffset :=
    hV.tokenOffset ht.inv
  refine yields_of_ok rfl ⟨?_, ht.inv, ht.enough⟩
  rw [← ht.shown_eq, ← hoffset]
  rfl

private theorem reject_yields (hV : V.Lawful) (hs : At V fuel s u) (fault : ScanFault) :
    Yields V room fuel s (reject fault : Scan σ α)
      (.error (fault.report u.source.tokenOffset
        (max (String.ofList u.source.token).utf8ByteSize 1) u.tokenLine) u) := by
  refine .bind hs.shown_eq (currentLexeme_yields hV hs) rfl rfl fun {t} ht => ?_
  have hoffset : Source.tokenOffset t.source = (shown V t).source.tokenOffset :=
    hV.tokenOffset ht.inv
  refine ⟨ht.inv, .inl ?_⟩
  rw [← ht.shown_eq, ← hoffset]
  rfl

theorem Yields.discard {x : Scan σ α} {a : α} (h : Yields V room fuel s x (.ok a u)) :
    Yields V room fuel s (Functor.discard x) (.ok () u) := by
  unfold Yields at h ⊢
  have hmap : Functor.discard x s = ((fun _ => ()) <$> x) s := rfl
  cases hrun : x s with
  | ok b t =>
    rw [hrun] at h
    obtain ⟨v, heq, hat⟩ := h
    obtain ⟨-, rfl⟩ := EStateM.Result.ok.inj heq
    rw [hmap, Run.map_of_ok hrun]
    exact ⟨u, rfl, hat⟩
  | error e t =>
    rw [hrun] at h
    rw [hmap, Run.map_of_error hrun]
    exact ⟨h.1, .inr (h.2.resolve_left (by simp))⟩

theorem skipWhile_yields (hV : V.Lawful) (p : Char → Bool) (hs : At V fuel s u)
    (hroom : u.source.taken.length + (u.source.rest.takeWhile p).length < room) :
    Yields V room fuel s (skipWhile p fuel)
      (.ok (u.source.rest.dropWhile p).head?
        { u with source := u.source.forward (u.source.rest.takeWhile p).length }) := by
  induction fuel generalizing s u with
  | zero => exact absurd hs.enough (Nat.not_lt_zero _)
  | succ fuel ih =>
    rw [skipWhile]
    refine .bind hs.shown_eq (peek_yields hV hs (by omega)) rfl rfl fun {t} ht => ?_
    cases hrest : u.source.rest with
    | nil => exact yields_of_ok rfl (by simpa using ht)
    | cons c rest =>
      simp only [List.head?_cons]
      cases hc : p c with
      | false =>
        simp only [Bool.false_eq_true, if_false, List.takeWhile_cons, List.dropWhile_cons, hc]
        exact yields_of_ok rfl (by simpa using ht)
      | true =>
        have htake : (u.source.rest.takeWhile p).length = (rest.takeWhile p).length + 1 := by
          rw [hrest, List.takeWhile_cons_of_pos hc, List.length_cons]
        rw [htake] at hroom
        have htaken : u.source.taken.length < room := by omega
        have hadvance := (advance_yields hV ht hrest htaken).discard
        refine .mono (.bind ht.shown_eq hadvance rfl rfl fun {t'} ht' => ?_) (Nat.le_succ fuel)
        have h := ih ht' (by simp [Cursor.forward, hrest]; omega)
        simp only [Cursor.forward_rest, hrest, List.drop_one, List.tail_cons] at h
        rw [Cursor.forward_forward] at h
        simpa [hc, Nat.add_comm] using h

private theorem comment_yields (hV : V.Lawful) (hs : At V fuel s u)
    (hroom : u.source.taken.length < room) :
    Yields V room fuel s (comment fuel)
      (.ok () { u with
        source := u.source.released (u.source.rest.takeWhile (· != '\n')).length }) := by
  induction fuel generalizing s u with
  | zero => exact absurd hs.enough (Nat.not_lt_zero _)
  | succ fuel ih =>
    rw [comment]
    refine .bind hs.shown_eq (peek_yields hV hs hroom) rfl rfl fun {t} ht => ?_
    cases hrest : u.source.rest with
    | nil => exact yields_of_ok rfl (by simpa using ht)
    | cons c rest =>
      simp only [List.head?_cons]
      by_cases hc : c = '\n'
      · subst hc
        exact yields_of_ok rfl (by simpa using ht)
      · have hpos : 0 < room := by omega
        have hadvance := (advance_yields hV ht hrest hroom).discard
        split
        · next h => cases h
        · next h => exact absurd (Option.some.inj h) hc
        refine .mono (.bind ht.shown_eq hadvance rfl rfl fun {t'} ht' => ?_) (Nat.le_succ fuel)
        refine .bind ht'.shown_eq (startToken_yields hV ht') rfl rfl fun {t''} ht'' => ?_
        have h := ih ht'' hpos
        simp only [Cursor.startToken_rest, Cursor.forward_rest, hrest, List.drop_one, List.tail_cons,
          Cursor.released_succ] at h
        simpa [hc] using h

end Scanner

namespace Lexeme

/-- Where the text is when the lexeme is read, if it was at the second character of it. -/
def leave (l : Lexeme) (c : Cursor) : Cursor :=
  match l.meaning with
  | .comment => (c.forward 1).released (l.text.length - 2)
  | _ => c.forward (l.text.length - 1)

def outcome (l : Lexeme) (u : Scanner Cursor) : EStateM.Result CompileError (Scanner Cursor) Unit :=
  let place : Place := ⟨u.source.tokenOffset, u.tokenLine⟩
  match l.error? place with
  | some e => .error e { u with source := l.leave u.source }
  | none =>
    .ok () { u with
      source := l.leave u.source
      tokens := (l.token? place).elim u.tokens u.tokens.push
      line := u.line + l.lines }

theorem outcome_of_error {l : Lexeme} {u : Scanner Cursor} {e : CompileError}
    (h : l.error? ⟨u.source.tokenOffset, u.tokenLine⟩ = some e) :
    l.outcome u = .error e { u with source := l.leave u.source } := by
  simp only [outcome, h]

theorem outcome_of_no_error {l : Lexeme} {u : Scanner Cursor}
    (h : l.error? ⟨u.source.tokenOffset, u.tokenLine⟩ = none) :
    l.outcome u = .ok () { u with
      source := l.leave u.source
      tokens := (l.token? ⟨u.source.tokenOffset, u.tokenLine⟩).elim u.tokens u.tokens.push
      line := u.line + l.lines } := by
  simp only [outcome, h]

end Lexeme

namespace Scanner

open Source (View)

variable {σ : Type} [Source σ] {V : View σ} {room fuel : Nat} {s : Scanner σ} {u : Scanner Cursor}
  {l : Lexeme} {c : Char}

private theorem emit_outcome (hV : V.Lawful) {kind : TokenKind} {literal : Option Literal}
    (hs : At V fuel s { u with source := u.source.forward (l.text.length - 1) })
    (htoken : u.source.token = [c]) (hbegins : l.Begins c u.source.rest)
    (hmeaning : l.meaning = .token kind literal) :
    Yields V room fuel s (emit kind literal) (l.outcome u) := by
  have h : Yields V room fuel s _ _ := emit_yields hV hs kind literal
  simp only [Cursor.forward_token, htoken, List.singleton_append, hbegins.cons_take] at h
  simpa [Lexeme.outcome, Lexeme.error?, Lexeme.token?, Lexeme.leave, Lexeme.lines, hmeaning] using h

private theorem reject_outcome (hV : V.Lawful) {fault : ScanFault}
    (hs : At V fuel s { u with source := u.source.forward (l.text.length - 1) })
    (htoken : u.source.token = [c]) (hbegins : l.Begins c u.source.rest)
    (hmeaning : l.meaning = .fault fault) :
    Yields V room fuel s (reject fault) (l.outcome u) := by
  have h : Yields V room fuel s (reject fault : Scan σ Unit) _ := reject_yields hV hs fault
  simp only [Cursor.forward_token, htoken, List.singleton_append, hbegins.cons_take] at h
  simpa [Lexeme.outcome, Lexeme.error?, Lexeme.leave, hmeaning] using h

theorem drop_length_takeWhile (p : Char → Bool) (text : List Char) :
    text.drop (text.takeWhile p).length = text.dropWhile p := by
  have h := List.takeWhile_append_dropWhile (p := p) (l := text)
  calc text.drop (text.takeWhile p).length
      = (text.takeWhile p ++ text.dropWhile p).drop (text.takeWhile p).length := by rw [h]
    _ = text.dropWhile p := List.drop_left

private theorem taken_length (htoken : u.source.token = [c]) : u.source.taken.length = 1 := by
  rw [← List.length_reverse]
  exact congrArg List.length htoken

private theorem oneOrTwo_yields (hV : V.Lawful) (hs : At V fuel s u) (htoken : u.source.token = [c])
    (second : Char) (single double : TokenKind)
    (hroom : (Lexeme.ofPair c second single double u.source.rest).room ≤ room) :
    Yields V room fuel s (oneOrTwo second single double)
      ((Lexeme.ofPair c second single double u.source.rest).outcome u) := by
  have hbegins := Lexeme.ofPair_begins c second single double u.source.rest
  have htaken := taken_length htoken
  have htwo : (Lexeme.ofPair c second single double u.source.rest).room = 2 := by
    unfold Lexeme.ofPair
    split <;> rfl
  have hask : Yields V room fuel s _ _ := advanceIf_yields hV hs second (by omega)
  unfold Lexeme.ofPair at hbegins ⊢
  rw [oneOrTwo]
  split at hask
  · next hhead =>
    rw [if_pos hhead] at hbegins ⊢
    refine .bind hs.shown_eq hask rfl rfl fun {t} ht => ?_
    exact emit_outcome hV ht htoken hbegins rfl
  · next hhead =>
    rw [if_neg hhead] at hbegins ⊢
    refine .bind hs.shown_eq hask rfl rfl fun {t} ht => ?_
    exact emit_outcome hV (by simpa using ht) htoken hbegins rfl

private theorem string_yields (hV : V.Lawful) (hs : At V fuel s u) (htoken : u.source.token = ['"'])
    (hroom : (Lexeme.ofQuote u.source.rest).room ≤ room) :
    Yields V room fuel s (string fuel) ((Lexeme.ofQuote u.source.rest).outcome u) := by
  have hbegins := Lexeme.ofQuote_begins u.source.rest
  have htaken := taken_length htoken
  have hbody : (Lexeme.ofQuote u.source.rest).room =
      (u.source.rest.takeWhile Lexeme.inString).length + 2 := by
    unfold Lexeme.ofQuote
    simp only []
    split <;> rfl
  unfold Lexeme.ofQuote at hbegins ⊢
  simp only [] at hbegins ⊢
  rw [string]
  refine .bind hs.shown_eq (skipWhile_yields hV Lexeme.inString hs (by omega)) rfl rfl
    fun {t} ht => ?_
  by_cases hhead : (u.source.rest.dropWhile Lexeme.inString).head? = some '"'
  · obtain ⟨more, hmore⟩ := List.head?_eq_some_iff.mp hhead
    rw [if_pos hhead] at hbegins ⊢
    rw [hhead]
    have hrest : (u.source.forward (u.source.rest.takeWhile Lexeme.inString).length).rest =
        '"' :: more := by
      rw [Cursor.forward_rest, drop_length_takeWhile, hmore]
    have hheld : (u.source.forward (u.source.rest.takeWhile Lexeme.inString).length).taken.length <
        room := Nat.lt_of_le_of_lt (Cursor.length_taken_forward _ _) (by omega)
    have hadvance := advance_yields hV (ht.mono (Nat.le_succ _)) hrest hheld
    refine .bind ht.shown_eq hadvance.discard rfl rfl fun {t} ht => ?_
    have htext := hbegins.cons_take
    simp only [List.length_append, List.length_cons, List.length_nil, Nat.add_sub_cancel] at htext
    rw [Cursor.forward_forward] at ht
    refine .bind ht.shown_eq (currentLexeme_yields hV ht) rfl rfl fun {t} ht => ?_
    refine emit_outcome hV (by simpa using ht) htoken hbegins ?_
    rw [Cursor.forward_token, htoken, List.singleton_append, htext]
    simp
  · rw [if_neg hhead] at hbegins ⊢
    split
    · contradiction
    · exact reject_outcome hV ht htoken hbegins rfl

private theorem word_yields (hV : V.Lawful) (hs : At V fuel s u) (htoken : u.source.token = [c])
    (hroom : (Lexeme.ofLetter c u.source.rest).room ≤ room) :
    Yields V room fuel s (word fuel) ((Lexeme.ofLetter c u.source.rest).outcome u) := by
  have hbegins := Lexeme.ofLetter_begins c u.source.rest
  have htaken := taken_length htoken
  have hlength : (Lexeme.ofLetter c u.source.rest).room =
      (u.source.rest.takeWhile isNamePart).length + 2 := by
    unfold Lexeme.ofLetter
    simp only []
    split <;> rfl
  have htext : (Lexeme.ofLetter c u.source.rest).text = c :: u.source.rest.takeWhile isNamePart := by
    unfold Lexeme.ofLetter
    simp only []
    split <;> rfl
  have hall := hbegins.cons_take
  rw [htext, List.length_cons, Nat.add_sub_cancel] at hall
  rw [word]
  refine .bind hs.shown_eq (skipWhile_yields hV isNamePart hs (by omega)).discard rfl rfl
    fun {t} ht => ?_
  refine .bind ht.shown_eq (currentLexeme_yields hV ht) rfl rfl fun {t} ht => ?_
  rw [Cursor.forward_token, htoken, List.singleton_append, hall]
  have hword : At V fuel t { u with
      source := u.source.forward ((Lexeme.ofLetter c u.source.rest).text.length - 1) } := by
    rw [htext]
    exact ht
  split
  · next kind hkind => exact emit_outcome hV hword htoken hbegins (by simp only [Lexeme.ofLetter, hkind])
  · next hkind => exact emit_outcome hV hword htoken hbegins (by simp only [Lexeme.ofLetter, hkind])

private theorem integer_yields (hV : V.Lawful) {digits : List Char} {n : Nat}
    (hs : At V fuel s { u with source := u.source.forward digits.length })
    (htoken : u.source.token = [c]) (hdigits : digits <+: u.source.rest) (hpos : 0 < n)
    (hle : n ≤ digits.length + 3) :
    Yields V room fuel s (do
      let lexeme ← currentLexeme
      match Numeral.toInt64? false lexeme.toList with
      | some n => emit .integer (some (.int n))
      | none => reject (.malformedNumber lexeme)) ((Lexeme.ofInteger (c :: digits) n).outcome u) := by
  have hbegins := Lexeme.ofInteger_begins (c := c) hdigits hpos hle
  have htext := Lexeme.ofInteger_text (c :: digits) n
  have hall := hbegins.cons_take
  rw [htext, List.length_cons, Nat.add_sub_cancel] at hall
  refine .bind hs.shown_eq (currentLexeme_yields hV hs) rfl rfl fun {t} ht => ?_
  have hnumber : At V fuel t { u with
      source := u.source.forward ((Lexeme.ofInteger (c :: digits) n).text.length - 1) } := by
    rw [htext]
    exact ht
  rw [Cursor.forward_token, htoken, List.singleton_append, hall, String.toList_ofList]
  split
  · next n hn => exact emit_outcome hV hnumber htoken hbegins (by simp only [Lexeme.ofInteger, hn])
  · next hn => exact reject_outcome hV hnumber htoken hbegins (by simp only [Lexeme.ofInteger, hn])

private theorem any_head? (p : Char → Bool) (text : List Char) :
    text.head?.any p = decide (text.takeWhile p ≠ []) := by
  cases text with
  | nil => rfl
  | cons c text => cases h : p c <;> simp [h]

/-- The digits before the point and those after it are told apart again in the lexeme. -/
private theorem split_at_point (whole fraction : List Char)
    (hwhole : ∀ d ∈ whole, Numeral.isDigit d) :
    (whole ++ '.' :: fraction).takeWhile Numeral.isDigit = whole ∧
      (whole ++ '.' :: fraction).dropWhile Numeral.isDigit = '.' :: fraction := by
  have hpoint : Numeral.isDigit '.' = false := by decide
  rw [List.takeWhile_append_of_pos hwhole, List.dropWhile_append_of_pos hwhole]
  simp [hpoint]

/-- A number with a fraction, read up to its point. -/
private theorem fraction_yields (hV : V.Lawful) {more : List Char}
    (hs : At V fuel s
      { u with source := u.source.forward (u.source.rest.takeWhile Numeral.isDigit).length })
    (htoken : u.source.token = [c]) (hc : Numeral.isDigit c)
    (hmore : u.source.rest.dropWhile Numeral.isDigit = '.' :: more)
    (hfraction : more.takeWhile Numeral.isDigit ≠ [])
    (hroom : (Lexeme.ofDigit c u.source.rest).room ≤ room) :
    Yields V room fuel s (do
      discard (ask Source.advance)
      discard (skipWhile Numeral.isDigit fuel)
      let digits := (← currentLexeme).toList
      let whole := digits.takeWhile Numeral.isDigit
      let fraction := (digits.dropWhile Numeral.isDigit).drop 1
      emit .float (some (.float (Numeral.toFloat false whole fraction))))
      ((Lexeme.ofDigit c u.source.rest).outcome u) := by
  have hbegins := Lexeme.ofDigit_begins c u.source.rest
  have htaken := taken_length htoken
  rw [Lexeme.ofDigit_of_fraction hmore hfraction] at hroom hbegins ⊢
  simp only [] at hroom
  have hrest : (u.source.forward (u.source.rest.takeWhile Numeral.isDigit).length).rest =
      '.' :: more := by
    rw [Cursor.forward_rest, drop_length_takeWhile, hmore]
  have hlength := Cursor.length_taken_forward
    (u.source.rest.takeWhile Numeral.isDigit).length u.source
  have hadvance := advance_yields hV (hs.mono (Nat.le_succ _)) hrest
    (show (u.source.forward _).taken.length < room by omega)
  refine .bind hs.shown_eq hadvance.discard rfl rfl fun {t} ht => ?_
  rw [Cursor.forward_forward] at ht
  have hfrac :
      (u.source.forward ((u.source.rest.takeWhile Numeral.isDigit).length + 1)).rest = more := by
    rw [← Cursor.forward_forward, Cursor.forward_rest, hrest]
    rfl
  have hlength' := Cursor.length_taken_forward
    ((u.source.rest.takeWhile Numeral.isDigit).length + 1) u.source
  have hskip : Yields V room fuel t _ _ :=
    skipWhile_yields hV Numeral.isDigit ht (by simp only [hfrac]; omega)
  refine .bind ht.shown_eq hskip.discard rfl rfl fun {t} ht => ?_
  simp only [hfrac, Cursor.forward_forward] at ht
  refine .bind ht.shown_eq (currentLexeme_yields hV ht) rfl rfl fun {t} ht => ?_
  have hcount : (c :: (u.source.rest.takeWhile Numeral.isDigit ++
      '.' :: more.takeWhile Numeral.isDigit)).length - 1 =
      (u.source.rest.takeWhile Numeral.isDigit).length + 1 +
        (more.takeWhile Numeral.isDigit).length := by
    simp only [List.length_cons, List.length_append]
    omega
  have htext := hbegins.cons_take
  simp only [hcount] at htext
  obtain ⟨hwhole, hpoint⟩ := split_at_point (c :: u.source.rest.takeWhile Numeral.isDigit)
    (more.takeWhile Numeral.isDigit)
    (List.forall_mem_cons.mpr ⟨hc, List.all_eq_true.mp List.all_takeWhile⟩)
  refine emit_outcome hV (by simp only [hcount]; exact ht) htoken hbegins ?_
  rw [Cursor.forward_token, htoken, List.singleton_append, htext, String.toList_ofList,
    ← List.cons_append, hwhole, hpoint]
  rfl

private theorem number_yields (hV : V.Lawful) (hs : At V fuel s u) (htoken : u.source.token = [c])
    (hc : Numeral.isDigit c) (hroom : (Lexeme.ofDigit c u.source.rest).room ≤ room) :
    Yields V room fuel s (number fuel) ((Lexeme.ofDigit c u.source.rest).outcome u) := by
  have htaken := taken_length htoken
  have hdigits := List.takeWhile_prefix (l := u.source.rest) Numeral.isDigit
  rw [number]
  by_cases hhead : (u.source.rest.dropWhile Numeral.isDigit).head? = some '.'
  · obtain ⟨more, hmore⟩ := List.head?_eq_some_iff.mp hhead
    have hrest : (u.source.forward (u.source.rest.takeWhile Numeral.isDigit).length).rest =
        '.' :: more := by
      rw [Cursor.forward_rest, drop_length_takeWhile, hmore]
    have hlength := Cursor.length_taken_forward
      (u.source.rest.takeWhile Numeral.isDigit).length u.source
    have htwo : (u.source.rest.takeWhile Numeral.isDigit).length + 2 < room := by
      by_cases hfraction : more.takeWhile Numeral.isDigit = []
      · rw [Lexeme.ofDigit_of_point hmore hfraction, Lexeme.ofInteger_room] at hroom
        omega
      · rw [Lexeme.ofDigit_of_fraction hmore hfraction] at hroom
        simp only [] at hroom
        omega
    refine .bind hs.shown_eq (skipWhile_yields hV Numeral.isDigit hs (by omega)) rfl rfl
      fun {t} ht => ?_
    rw [hhead, if_pos (beq_self_eq_true _)]
    have hpeek : Yields V room fuel t _ _ := peekNext_yields hV ht (by simp only []; omega)
    simp only [hrest, List.getElem?_cons_succ, ← List.head?_eq_getElem?] at hpeek
    refine .bind ht.shown_eq hpeek rfl rfl fun {t} ht => ?_
    simp only [any_head?, pure_bind]
    by_cases hfraction : more.takeWhile Numeral.isDigit = []
    · rw [Lexeme.ofDigit_of_point hmore hfraction]
      simp only [hfraction, ne_eq, not_true_eq_false, decide_false, Bool.false_eq_true, if_false]
      exact integer_yields hV ht htoken hdigits (by simp) (by simp)
    · simp only [hfraction, ne_eq, not_false_eq_true, decide_true, if_true]
      exact fraction_yields hV ht htoken hc hmore hfraction hroom
  · rw [Lexeme.ofDigit_of_no_point hhead] at hroom ⊢
    rw [Lexeme.ofInteger_room] at hroom
    refine .bind hs.shown_eq (skipWhile_yields hV Numeral.isDigit hs (by omega)) rfl rfl
      fun {t} ht => ?_
    rw [if_neg (by simpa using hhead)]
    simp only [pure_bind, Bool.false_eq_true, if_false]
    exact integer_yields hV ht htoken hdigits (by simp) (by simp)

private theorem dash_yields (hV : V.Lawful) (hs : At V fuel s u) (htoken : u.source.token = ['-'])
    (hroom : (Lexeme.ofDash u.source.rest).room ≤ room) :
    Yields V room fuel s
      (do if (← ask (Source.advanceIf '-')).isSome then comment fuel else emit .minus none)
      ((Lexeme.ofDash u.source.rest).outcome u) := by
  have hbegins := Lexeme.ofDash_begins u.source.rest
  have htaken := taken_length htoken
  by_cases hhead : u.source.rest.head? = some '-'
  · have hdash : Lexeme.ofDash u.source.rest =
        ⟨'-' :: '-' :: u.source.rest.tail.takeWhile (· != '\n'), .comment, 3⟩ := if_pos hhead
    rw [hdash] at hroom ⊢
    have hask : Yields V room fuel s _ _ := advanceIf_yields hV hs '-' (by simp only [] at hroom; omega)
    rw [if_pos hhead] at hask
    refine .bind hs.shown_eq hask rfl rfl fun {t} ht => ?_
    have hlength := Cursor.length_taken_forward 1 u.source
    have h : Yields V room fuel t _ _ := comment_yields hV ht (by simp only [] at hroom ⊢; omega)
    simpa [Lexeme.outcome, Lexeme.error?, Lexeme.token?, Lexeme.leave, Lexeme.lines] using h
  · have hdash : Lexeme.ofDash u.source.rest = ⟨['-'], .token .minus none, 2⟩ := if_neg hhead
    rw [hdash] at hroom hbegins ⊢
    have hask : Yields V room fuel s _ _ := advanceIf_yields hV hs '-' (by simp only [] at hroom; omega)
    rw [if_neg hhead] at hask
    refine .bind hs.shown_eq hask rfl rfl fun {t} ht => ?_
    exact emit_outcome hV (by simpa using ht) htoken hbegins rfl

/-- After the first character of a lexeme, the scanner reads the rest of it. -/
theorem dispatch_yields (hV : V.Lawful) (hs : At V fuel s u) (htoken : u.source.token = [c])
    (hroom : (Lexeme.first c u.source.rest).room ≤ room) :
    Yields V room fuel s (dispatch fuel c) ((Lexeme.first c u.source.rest).outcome u) := by
  have hone (meaning : Meaning) :
      At V fuel s { u with source := u.source.forward ((Lexeme.ofChar c meaning).text.length - 1) } := by
    simpa [Lexeme.ofChar] using hs
  have hbegins {meaning : Meaning} (h : meaning ≠ .comment) :=
    Lexeme.ofChar_begins c u.source.rest h
  unfold dispatch
  unfold Lexeme.first at hroom ⊢
  split
  · have hblank : (Lexeme.ofChar c .blank).outcome u = .ok () u := by
      simp [Lexeme.outcome, Lexeme.error?, Lexeme.token?, Lexeme.leave, Lexeme.lines, Lexeme.ofChar]
    rw [hblank]
    exact yields_of_ok rfl hs
  next h₁ =>
  rw [if_neg h₁] at hroom
  split
  · have hnewline : (Lexeme.ofChar c .newline).outcome u = .ok () { u with line := u.line + 1 } := by
      simp [Lexeme.outcome, Lexeme.error?, Lexeme.token?, Lexeme.leave, Lexeme.lines, Lexeme.ofChar]
    rw [hnewline]
    exact yields_of_ok rfl ⟨by rw [← hs.shown_eq]; rfl, hs.inv, hs.enough⟩
  next h₂ =>
  rw [if_neg h₂] at hroom
  cases h₃ : TokenKind.single? c with
  | some kind => exact emit_outcome hV (hone _) htoken (hbegins (by simp)) rfl
  | none =>
  simp only [h₃] at hroom ⊢
  cases h₄ : TokenKind.double? c with
  | some pair =>
    simp only [h₄] at hroom ⊢
    exact oneOrTwo_yields hV hs htoken pair.1 pair.2.1 pair.2.2 hroom
  | none =>
  simp only [h₄] at hroom ⊢
  split
  · next h₅ =>
    obtain rfl := eq_of_beq h₅
    exact dash_yields hV hs htoken hroom
  next h₅ =>
  rw [if_neg h₅] at hroom
  split
  · next h₆ =>
    obtain rfl := eq_of_beq h₆
    exact string_yields hV hs htoken hroom
  next h₆ =>
  rw [if_neg h₆] at hroom
  split
  · next h₇ =>
    rw [if_pos h₇] at hroom
    exact number_yields hV hs htoken h₇ hroom
  next h₇ =>
  rw [if_neg h₇] at hroom
  split
  · next h₈ =>
    rw [if_pos h₈] at hroom
    exact word_yields hV hs htoken hroom
  · exact reject_outcome hV (hone _) htoken (hbegins (by simp)) rfl

end Scanner
end Copione
