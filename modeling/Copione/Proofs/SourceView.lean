import Copione.Proofs.Runs
import Copione.Source.Cursor
/-!
# Sources seen as texts in memory

A source is understood through the cursor that its states show: it answers as that cursor
does, or fails and shows the same cursor as before. What holds of one answer is carried to
every finite sequence of calls, failed ones among them.
-/
namespace Copione

namespace Cursor

@[simp] theorem peek_apply (c : Cursor) : Source.peek c = .ok c.rest.head? c := rfl

@[simp] theorem peekNext_apply (c : Cursor) : Source.peekNext c = .ok c.rest[1]? c := rfl

@[simp] theorem startToken_rest (c : Cursor) : c.startToken.rest = c.rest := rfl

end Cursor

namespace Source

variable {σ : Type} [Source σ]

/-- A way to see the states of a source as places in a text. `refuses e n c` says when the
source may fail with `e`, asked at `c` for the character `n` places past the next one. -/
structure View (σ : Type) where
  inv : σ → Prop
  cursor : σ → Cursor
  refuses : SourceError → Nat → Cursor → Prop

/-- In the state `s` the source answers `x` as its cursor answers `y`, or refuses and stays
where it is. The characters that it takes are no longer among those to come. -/
def View.Agrees {α : Type} (V : View σ) (n : Nat) (s : σ) (x : EStateM SourceError σ α)
    (y : EStateM SourceError Cursor α) : Prop :=
  match x s with
  | .ok a t => V.inv t ∧ y (V.cursor s) = .ok a (V.cursor t) ∧
      remaining t + (V.cursor s).rest.length ≤ remaining s + (V.cursor t).rest.length
  | .error e t => V.inv t ∧ V.cursor t = V.cursor s ∧ remaining t ≤ remaining s ∧
      V.refuses e n (V.cursor s)

structure View.Lawful (V : View σ) : Prop where
  advance {s : σ} : V.inv s → V.Agrees 0 s Source.advance Source.advance
  peek {s : σ} : V.inv s → V.Agrees 0 s Source.peek Source.peek
  peekNext {s : σ} : V.inv s → V.Agrees 1 s Source.peekNext Source.peekNext
  currentToken {s : σ} : V.inv s →
    (Source.currentToken s).1 = String.ofList (V.cursor s).token ∧
      V.inv (Source.currentToken s).2 ∧ V.cursor (Source.currentToken s).2 = V.cursor s ∧
      remaining (Source.currentToken s).2 ≤ remaining s
  startToken {s : σ} : V.inv s →
    V.inv (Source.startToken s) ∧ V.cursor (Source.startToken s) = (V.cursor s).startToken ∧
      remaining (Source.startToken s) ≤ remaining s
  tokenOffset {s : σ} : V.inv s → Source.tokenOffset s = (V.cursor s).tokenOffset

def View.ofCursor : View Cursor := ⟨fun _ => True, id, fun _ _ _ => False⟩

theorem View.ofCursor_lawful : View.ofCursor.Lawful where
  advance {c} _ := by
    obtain ⟨taken, rest, offset⟩ := c
    cases rest with
    | nil => exact ⟨trivial, rfl, Nat.le_refl _⟩
    | cons c rest => exact ⟨trivial, rfl, by simp [remaining, View.ofCursor]; omega⟩
  peek _ := ⟨trivial, rfl, Nat.le_refl _⟩
  peekNext _ := ⟨trivial, rfl, Nat.le_refl _⟩
  currentToken _ := ⟨rfl, trivial, rfl, Nat.le_refl _⟩
  startToken _ := ⟨trivial, rfl, Nat.le_refl _⟩
  tokenOffset _ := rfl

/-- A question to a source, or a request to begin a token. -/
inductive Call where
  | advance
  | peek
  | peekNext
  | advanceIf (expected : Char)
  | isAtEnd
  | currentToken
  | startToken
  | tokenOffset
  deriving DecidableEq, Repr

inductive Answer where
  | char (c : Option Char)
  | flag (b : Bool)
  | text (s : String)
  | offset (n : Nat)
  | done
  deriving DecidableEq, Repr

/-- How far past the next character a call looks. -/
def Call.lookahead : Call → Nat
  | .peekNext => 1
  | _ => 0

def Call.answer : Call → EStateM SourceError σ Answer
  | .advance => Answer.char <$> Source.advance
  | .peek => Answer.char <$> Source.peek
  | .peekNext => Answer.char <$> Source.peekNext
  | .advanceIf expected => Answer.char <$> Source.advanceIf expected
  | .isAtEnd => Answer.flag <$> Source.isAtEnd
  | .currentToken => modifyGet fun s => (.text (Source.currentToken s).1, (Source.currentToken s).2)
  | .startToken => modifyGet fun s => (.done, Source.startToken s)
  | .tokenOffset => return .offset (Source.tokenOffset (← get))

/-- The state after the calls, whether they fail or not. -/
def after : List Call → σ → σ
  | [], s => s
  | call :: calls, s =>
    match call.answer s with
    | .ok _ t | .error _ t => after calls t

/-- The calls that do not fail when they are made in turn. -/
def granted : List Call → σ → List Call
  | [], _ => []
  | call :: calls, s =>
    match call.answer s with
    | .ok _ t => call :: granted calls t
    | .error _ t => granted calls t

variable {V : View σ} {s t : σ} {α β : Type} {n : Nat}

private theorem View.Agrees.map {x : EStateM SourceError σ α} {y : EStateM SourceError Cursor α}
    (h : V.Agrees n s x y) (g : α → β) : V.Agrees n s (g <$> x) (g <$> y) := by
  unfold View.Agrees at h ⊢
  cases hx : x s with
  | ok a t =>
    rw [hx] at h
    rw [Run.map_of_ok hx]
    exact ⟨h.1, Run.map_of_ok h.2.1, h.2.2⟩
  | error e t =>
    rw [hx] at h
    rw [Run.map_of_error hx]
    exact h

/-- Looking at the next character, and then deciding what to do. -/
private theorem View.Lawful.peek_then (hV : V.Lawful) {f : Option Char → EStateM SourceError σ α}
    {g : Option Char → EStateM SourceError Cursor α} (hs : V.inv s)
    (hf : ∀ {t}, V.inv t → V.cursor t = V.cursor s →
      V.Agrees 0 t (f (V.cursor s).rest.head?) (g (V.cursor s).rest.head?)) :
    V.Agrees 0 s (Source.peek >>= f) (Source.peek >>= g) := by
  have h := hV.peek hs
  unfold View.Agrees at h ⊢
  rw [Run.bind_of_ok (Cursor.peek_apply (V.cursor s))]
  cases hp : Source.peek s with
  | error e t =>
    rw [hp] at h
    rw [Run.bind_of_error hp]
    exact h
  | ok a t =>
    rw [hp, Cursor.peek_apply] at h
    obtain ⟨ht, hpeek, hrem⟩ := h
    obtain ⟨rfl, hcursor⟩ := EStateM.Result.ok.inj hpeek
    have h' := hf ht hcursor.symm
    unfold View.Agrees at h'
    rw [Run.bind_of_ok hp]
    rw [← hcursor] at hrem h'
    cases hx : f (V.cursor s).rest.head? t with
    | ok a u =>
      rw [hx] at h'
      exact ⟨h'.1, h'.2.1, by omega⟩
    | error e u =>
      rw [hx] at h'
      exact ⟨h'.1, h'.2.1, by omega, h'.2.2.2⟩

theorem View.Lawful.advanceIf (hV : V.Lawful) (expected : Char) (hs : V.inv s) :
    V.Agrees 0 s (Source.advanceIf expected) (Source.advanceIf expected) := by
  apply hV.peek_then hs
  intro t ht _
  by_cases heq : (V.cursor s).rest.head? = some expected
  · simpa [heq] using hV.advance ht
  · have hne : ((V.cursor s).rest.head? == some expected) = false := by simpa using heq
    simp only [hne, Bool.false_eq_true, if_false]
    exact ⟨ht, rfl, Nat.le_refl _⟩

theorem View.Lawful.isAtEnd (hV : V.Lawful) (hs : V.inv s) :
    V.Agrees 0 s Source.isAtEnd Source.isAtEnd :=
  hV.peek_then hs fun ht _ => ⟨ht, rfl, Nat.le_refl _⟩

/-- A call is answered as the cursor answers it, or it fails and nothing changes. -/
theorem View.Lawful.answer (hV : V.Lawful) (call : Call) (hs : V.inv s) :
    V.Agrees call.lookahead s call.answer call.answer := by
  cases call with
  | advance => exact (hV.advance hs).map Answer.char
  | peek => exact (hV.peek hs).map Answer.char
  | peekNext => exact (hV.peekNext hs).map Answer.char
  | advanceIf expected => exact (hV.advanceIf expected hs).map Answer.char
  | isAtEnd => exact (hV.isAtEnd hs).map Answer.flag
  | currentToken =>
    obtain ⟨htext, ht, hcursor, hrem⟩ := hV.currentToken hs
    refine ⟨ht, ?_, by rw [hcursor]; omega⟩
    rw [htext, hcursor]
    rfl
  | startToken =>
    obtain ⟨ht, hcursor, hrem⟩ := hV.startToken hs
    refine ⟨ht, ?_, by rw [hcursor, Cursor.startToken_rest]; omega⟩
    rw [hcursor]
    rfl
  | tokenOffset =>
    refine ⟨hs, ?_, Nat.le_refl _⟩
    rw [hV.tokenOffset hs]
    rfl

/-- After any calls a source shows the place where the granted ones alone lead. -/
theorem View.Lawful.after_calls (hV : V.Lawful) (calls : List Call) (hs : V.inv s) :
    V.inv (after calls s) ∧
      V.cursor (after calls s) = after (granted calls s) (V.cursor s) := by
  induction calls generalizing s with
  | nil => exact ⟨hs, rfl⟩
  | cons call calls ih =>
    have h := hV.answer call hs
    unfold View.Agrees at h
    cases ha : call.answer s with
    | ok a t =>
      rw [ha] at h
      simp only [after, granted, ha, h.2.1]
      exact ih h.1
    | error e t =>
      rw [ha] at h
      simp only [after, granted, ha]
      rw [← h.2.1]
      exact ih h.1

end Source
end Copione
