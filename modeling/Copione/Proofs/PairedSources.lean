import Copione.Proofs.SourceView
import Copione.Token.Scan
/-!
# Sources that cannot be told apart

Two sources are paired by a relation between their states that every question keeps, with one
answer or one error for both. Then no sequence of calls tells them apart, nor does a scanner.
-/
namespace Copione

namespace Run

variable {ε σ τ α β : Type} {R : σ → τ → Prop}

inductive Paired (R : σ → τ → Prop) : EStateM.Result ε σ α → EStateM.Result ε τ α → Prop
  | ok {a : α} {s : σ} {t : τ} (h : R s t) : Paired R (.ok a s) (.ok a t)
  | error {e : ε} {s : σ} {t : τ} (h : R s t) : Paired R (.error e s) (.error e t)

/-- Programs that run alike from all states that `R` relates. -/
def Pairs (R : σ → τ → Prop) (x : EStateM ε σ α) (y : EStateM ε τ α) : Prop :=
  ∀ s t, R s t → Paired R (x s) (y t)

theorem Pairs.pure (a : α) : Pairs R (pure a : EStateM ε σ α) (pure a) := fun _ _ h => .ok h

private theorem Pairs.modifyGet {f : σ → α × σ} {g : τ → α × τ}
    (h : ∀ s t, R s t → (f s).1 = (g t).1 ∧ R (f s).2 (g t).2) :
    Pairs R (modifyGet f : EStateM ε σ α) (modifyGet g) := by
  intro s t hst
  obtain ⟨hvalue, hstate⟩ := h s t hst
  change Paired R (.ok (f s).1 (f s).2) (.ok (g t).1 (g t).2)
  rw [hvalue]
  exact .ok hstate

theorem Pairs.modify {f : σ → σ} {g : τ → τ} (h : ∀ s t, R s t → R (f s) (g t)) :
    Pairs R (modify f : EStateM ε σ PUnit) (modify g) := fun s t hst => .ok (h s t hst)

theorem Pairs.bind {x : EStateM ε σ α} {y : EStateM ε τ α} {f : α → EStateM ε σ β}
    {g : α → EStateM ε τ β} (hx : Pairs R x y) (hf : ∀ a, Pairs R (f a) (g a)) :
    Pairs R (x >>= f) (y >>= g) := by
  intro s t hst
  have h := hx s t hst
  cases hxs : x s <;> cases hyt : y t <;> rw [hxs, hyt] at h <;> cases h
  · next h =>
    rw [bind_of_ok hxs, bind_of_ok hyt]
    exact hf _ _ _ h
  · next h =>
    rw [bind_of_error hxs, bind_of_error hyt]
    exact .error h

private theorem Pairs.map {x : EStateM ε σ α} {y : EStateM ε τ α} (hx : Pairs R x y) (g : α → β) :
    Pairs R (g <$> x) (g <$> y) := by
  rw [map_eq_pure_bind, map_eq_pure_bind]
  exact hx.bind fun a => .pure (g a)

private theorem Pairs.get_bind {f : σ → EStateM ε σ α} {g : τ → EStateM ε τ α}
    (h : ∀ s t, R s t → Paired R (f s s) (g t t)) : Pairs R (get >>= f) (get >>= g) := by
  intro s t hst
  rw [bind_of_ok get_apply, bind_of_ok get_apply]
  exact h s t hst

end Run

open Run (Pairs)

namespace Source

variable {σ τ : Type} [Source σ] [Source τ] {R : σ → τ → Prop}

/-- A relation between the states of two sources that every operation keeps and none tells. -/
structure Bisimulation (R : σ → τ → Prop) : Prop where
  advance : Pairs R Source.advance Source.advance
  peek : Pairs R Source.peek Source.peek
  peekNext : Pairs R Source.peekNext Source.peekNext
  currentToken {s : σ} {t : τ} : R s t →
    (Source.currentToken s).1 = (Source.currentToken t).1 ∧
      R (Source.currentToken s).2 (Source.currentToken t).2
  startToken {s : σ} {t : τ} : R s t → R (Source.startToken s) (Source.startToken t)
  tokenOffset {s : σ} {t : τ} : R s t → Source.tokenOffset s = Source.tokenOffset t
  remaining {s : σ} {t : τ} : R s t → Source.remaining s = Source.remaining t

namespace Bisimulation

variable (h : Bisimulation R)
include h

private theorem advanceIf (expected : Char) :
    Pairs R (Source.advanceIf expected) (Source.advanceIf expected) := by
  refine h.peek.bind fun next => ?_
  split
  · exact h.advance
  · exact .pure none

private theorem isAtEnd : Pairs R Source.isAtEnd Source.isAtEnd :=
  h.peek.bind fun next => .pure next.isNone

private theorem answer (call : Call) : Pairs R call.answer call.answer := by
  cases call with
  | advance => exact h.advance.map _
  | peek => exact h.peek.map _
  | peekNext => exact h.peekNext.map _
  | advanceIf expected => exact (h.advanceIf expected).map _
  | isAtEnd => exact h.isAtEnd.map _
  | currentToken => exact .modifyGet fun s t hst => (h.currentToken hst).imp_left (congrArg Answer.text)
  | startToken => exact fun s t hst => .ok (h.startToken hst)
  | tokenOffset =>
    refine .get_bind fun s t hst => ?_
    rw [h.tokenOffset hst]
    exact .ok hst

end Bisimulation

def answers : List Call → σ → List (Except SourceError Answer)
  | [], _ => []
  | call :: calls, s =>
    match call.answer s with
    | .ok a t => .ok a :: answers calls t
    | .error e t => .error e :: answers calls t

theorem Bisimulation.answers_eq (h : Bisimulation R) (calls : List Call) {s : σ} {t : τ} (hst : R s t) :
    answers calls s = answers calls t := by
  induction calls generalizing s t with
  | nil => rfl
  | cons call calls ih =>
    have hcall := h.answer call s t hst
    rw [answers, answers]
    generalize call.answer s = r at hcall
    generalize call.answer t = r' at hcall
    cases hcall with
    | ok h' => exact congrArg _ (ih h')
    | error h' => exact congrArg _ (ih h')

end Source

namespace Scanner

variable {σ τ : Type} [Source σ] [Source τ] {R : σ → τ → Prop}

structure Twins (R : σ → τ → Prop) (s : Scanner σ) (t : Scanner τ) : Prop where
  source : R s.source t.source
  tokens_eq : s.tokens = t.tokens
  line_eq : s.line = t.line
  tokenLine_eq : s.tokenLine = t.tokenLine

section

variable (h : Source.Bisimulation R)
include h

private theorem pairs_ask {α : Type} {question : EStateM SourceError σ α}
    {question' : EStateM SourceError τ α}
    (hq : Pairs R question question') : Pairs (Twins R) (ask question) (ask question') := by
  intro s t hst
  have hsource := hq _ _ hst.source
  unfold ask
  generalize question s.source = r at hsource
  generalize question' t.source = r' at hsource
  cases hsource with
  | ok hr => exact .ok ⟨hr, hst.tokens_eq, hst.line_eq, hst.tokenLine_eq⟩
  | error hr =>
    dsimp only
    rw [h.tokenOffset hr, hst.tokenLine_eq]
    exact .error ⟨hr, hst.tokens_eq, hst.line_eq, rfl⟩

private theorem pairs_startToken : Pairs (Twins R) startToken startToken :=
  .modify fun _ _ hst => ⟨h.startToken hst.source, hst.tokens_eq, hst.line_eq, hst.tokenLine_eq⟩

private theorem pairs_currentLexeme : Pairs (Twins R) currentLexeme currentLexeme :=
  .modifyGet fun _ _ hst => (h.currentToken hst.source).imp_right fun hsource =>
    ⟨hsource, hst.tokens_eq, hst.line_eq, hst.tokenLine_eq⟩

private theorem pairs_emit (kind : TokenKind) (literal : Option Literal) :
    Pairs (Twins R) (emit kind literal) (emit kind literal) := by
  refine (pairs_currentLexeme h).bind fun lexeme => .modify fun s t hst => ⟨hst.source, ?_,
    hst.line_eq, hst.tokenLine_eq⟩
  simp only [h.tokenOffset hst.source, hst.tokens_eq, hst.tokenLine_eq]

private theorem pairs_reject {α : Type} (fault : ScanFault) :
    Pairs (Twins R) (reject fault : Scan σ α) (reject fault) := by
  refine (pairs_currentLexeme h).bind fun lexeme => .get_bind fun s t hst => ?_
  rw [h.tokenOffset hst.source, hst.tokenLine_eq]
  exact .error hst

private theorem pairs_skipWhile (p : Char → Bool) (fuel : Nat) :
    Pairs (Twins R) (skipWhile p fuel) (skipWhile p fuel) := by
  induction fuel with
  | zero => exact .pure none
  | succ fuel ih =>
    refine (pairs_ask h h.peek).bind fun next => ?_
    cases next with
    | none => exact .pure none
    | some c =>
      simp only []
      split
      · exact ((pairs_ask h h.advance).map _).bind fun _ => ih
      · exact .pure (some c)

private theorem pairs_comment (fuel : Nat) : Pairs (Twins R) (comment fuel) (comment fuel) := by
  induction fuel with
  | zero => exact .pure ()
  | succ fuel ih =>
    refine (pairs_ask h h.peek).bind fun next => ?_
    split
    · exact .pure ()
    · exact .pure ()
    · exact ((pairs_ask h h.advance).map _).bind fun _ => (pairs_startToken h).bind fun _ => ih

private theorem pairs_string (fuel : Nat) : Pairs (Twins R) (string fuel) (string fuel) := by
  refine (pairs_skipWhile h _ fuel).bind fun stop => ?_
  split
  · exact ((pairs_ask h h.advance).map _).bind fun _ => (pairs_currentLexeme h).bind fun _ =>
      pairs_emit h _ _
  · exact pairs_reject h _

/-- What is left to do once it is known whether a fraction follows. -/
private theorem pairs_number_end (fuel : Nat) (isFloat : Bool) :
    let ending {υ : Type} [Source υ] : Scan υ Unit := do
      if isFloat then
        discard (ask Source.advance)
        discard (skipWhile Numeral.isDigit fuel)
        let digits := (← currentLexeme).toList
        let whole := digits.takeWhile Numeral.isDigit
        let fraction := (digits.dropWhile Numeral.isDigit).drop 1
        emit .float (some (.float (Numeral.toFloat false whole fraction)))
      else
        let lexeme ← currentLexeme
        match Numeral.toInt64? false lexeme.toList with
        | some n => emit .integer (some (.int n))
        | none => reject (.malformedNumber lexeme)
    Pairs (Twins R) ending ending := by
  cases isFloat with
  | true =>
    exact ((pairs_ask h h.advance).map _).bind fun _ => ((pairs_skipWhile h _ fuel).map _).bind fun _ =>
      (pairs_currentLexeme h).bind fun _ => pairs_emit h _ _
  | false =>
    refine (pairs_currentLexeme h).bind fun lexeme => ?_
    split
    · exact pairs_emit h _ _
    · exact pairs_reject h _

private theorem pairs_number (fuel : Nat) : Pairs (Twins R) (number fuel) (number fuel) := by
  refine (pairs_skipWhile h _ fuel).bind fun stop => ?_
  split
  · exact (pairs_ask h h.peekNext).bind fun _ => (Pairs.pure _).bind (pairs_number_end h fuel)
  · exact (Pairs.pure false).bind (pairs_number_end h fuel)

private theorem pairs_word (fuel : Nat) : Pairs (Twins R) (word fuel) (word fuel) := by
  refine ((pairs_skipWhile h _ fuel).map _).bind fun _ => (pairs_currentLexeme h).bind fun lexeme => ?_
  split
  · exact pairs_emit h _ _
  · exact pairs_emit h _ _

private theorem pairs_oneOrTwo (second : Char) (single double : TokenKind) :
    Pairs (Twins R) (oneOrTwo second single double) (oneOrTwo second single double) :=
  (pairs_ask h (h.advanceIf second)).bind fun _ => pairs_emit h _ _

private theorem pairs_dispatch (fuel : Nat) (c : Char) : Pairs (Twins R) (dispatch fuel c)
    (dispatch fuel c) := by
  unfold dispatch
  split
  · exact .pure ()
  split
  · exact (Pairs.modify fun s t hst => ⟨hst.source, hst.tokens_eq, congrArg (· + 1) hst.line_eq,
      hst.tokenLine_eq⟩).bind fun _ => .pure ()
  split
  · exact pairs_emit h _ _
  split
  · exact pairs_oneOrTwo h _ _ _
  split
  · refine (pairs_ask h (h.advanceIf '-')).bind fun joined => ?_
    split
    · exact pairs_comment h fuel
    · exact pairs_emit h _ _
  split
  · exact pairs_string h fuel
  split
  · exact pairs_number h fuel
  split
  · exact pairs_word h fuel
  · exact pairs_reject h _

private theorem pairs_scanUpTo (fuel : Nat) : Pairs (Twins R) (scanUpTo fuel) (scanUpTo fuel) := by
  induction fuel with
  | zero => exact .pure ()
  | succ fuel ih =>
    refine (pairs_startToken h).bind fun _ => (pairs_ask h h.isAtEnd).bind fun atEnd => ?_
    split
    · exact .pure ()
    · refine (Pairs.modify fun s t hst => ⟨hst.source, hst.tokens_eq, hst.line_eq, hst.line_eq⟩).bind
        fun _ => ?_
      refine Pairs.bind ((pairs_ask h h.advance).bind fun next => ?_) fun _ => ih
      cases next with
      | none => exact .pure ()
      | some c => exact pairs_dispatch h fuel c

private theorem pairs_scanTokens : Pairs (Twins R) scanTokens scanTokens := by
  refine .get_bind fun s t hst => ?_
  rw [h.remaining hst.source]
  refine (pairs_scanUpTo h _).bind (fun _ => .get_bind fun s t hst => ?_) _ _ hst
  rw [h.tokenOffset hst.source, hst.tokens_eq, hst.line_eq]
  exact .ok ⟨hst.source, rfl, rfl, hst.tokenLine_eq⟩

end

/-- Sources that cannot be told apart have the same tokens. -/
theorem scanSource_eq_of_bisimulation (h : Source.Bisimulation R) {source : σ} {source' : τ}
    (hsource : R source source') : Token.scanSource source = Token.scanSource source' := by
  have hscan := pairs_scanTokens h (ofSource source) (ofSource source') ⟨hsource, rfl, rfl, rfl⟩
  unfold Token.scanSource
  generalize scanTokens (ofSource source) = r at hscan
  generalize scanTokens (ofSource source') = r' at hscan
  cases hscan with
  | ok _ => rfl
  | error hst => simp only [hst.tokens_eq]

end Scanner
end Copione
