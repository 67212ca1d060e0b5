import Copione.Proofs.WindowView
/-!
# Windows simulate texts in memory

Every call on a window is answered as on the whole text, or fails and has no effect. A call
fails only because a read that it made failed, or because the token fills the window.
-/
namespace Copione

namespace Reader

/-- The answers to reads made one after another, each with room for something. -/
inductive Answers : Reader → List ReadResult → Reader → Prop where
  | nil (r : Reader) : Answers r [] r
  | cons {r t u : Reader} {room : Nat} {result : ReadResult} {results : List ReadResult}
    (hroom : 0 < room) (hread : r.read room = (result, t)) (h : Answers t results u) :
    Answers r (result :: results) u

private theorem Answers.append {r t u : Reader} {results more : List ReadResult}
    (h : Answers r results t) (h' : Answers t more u) : Answers r (results ++ more) u := by
  induction h with
  | nil => exact h'
  | cons hroom hread _ ih => exact .cons hroom hread (ih h')

end Reader

def SourceError.reason? : SourceError → Option String
  | .unreadable reason => some reason
  | .tokenTooLong .. => none

namespace Window

variable {lost : List UInt8} {w t u : Window} {α β : Type}

/-- From `w` to `t` the reader was asked some number of times, and `failure` tells whether and
why one of these reads failed. -/
def Asked (w t : Window) (failure : Option String) : Prop :=
  ∃ results, Reader.Answers w.reader results t.reader ∧
    ∀ reason, .failed reason ∈ results ↔ failure = some reason

theorem asked_of_reader_eq (h : t.reader = w.reader) : Asked w t none :=
  ⟨[], h ▸ .nil _, by simp⟩

theorem Asked.trans {failure : Option String} (h : Asked w t none) (h' : Asked t u failure) :
    Asked w u failure := by
  obtain ⟨results, hanswers, hfailed⟩ := h
  obtain ⟨more, hanswers', hfailed'⟩ := h'
  refine ⟨results ++ more, hanswers.append hanswers', ?_⟩
  intro reason
  rw [List.mem_append, hfailed, hfailed']
  simp

/-- A run that started from `w` ends for want of a read exactly when one of its reads failed,
and gives the reason. -/
def Reported (w : Window) : EStateM.Result SourceError Window α → Prop
  | .ok _ t => Asked w t none
  | .error e t => Asked w t e.reason?

private theorem Reported.after_asked {r : EStateM.Result SourceError Window α} (h : Asked w t none)
    (hr : Reported t r) : Reported w r := by
  cases r with
  | ok a u => exact h.trans hr
  | error e u => exact h.trans hr

def Honest (x : EStateM SourceError Window α) : Prop := ∀ w, Reported w (x w)

theorem Honest.bind {x : EStateM SourceError Window α} {f : α → EStateM SourceError Window β}
    (hx : Honest x) (hf : ∀ a, Honest (f a)) : Honest (x >>= f) := by
  intro w
  have h := hx w
  cases hrun : x w with
  | error e t =>
    rw [hrun] at h
    rw [Run.bind_of_error hrun]
    exact h
  | ok a t =>
    rw [hrun] at h
    rw [Run.bind_of_ok hrun]
    exact (hf a t).after_asked h

private theorem Honest.map {x : EStateM SourceError Window α} (hx : Honest x) (g : α → β) :
    Honest (g <$> x) := by
  intro w
  have h := hx w
  cases hrun : x w with
  | ok a t => rw [hrun] at h; rw [Run.map_of_ok hrun]; exact h
  | error e t => rw [hrun] at h; rw [Run.map_of_error hrun]; exact h

theorem honest_pure (a : α) : Honest (pure a) := fun _ => asked_of_reader_eq rfl

private theorem honest_get : Honest get := fun _ => asked_of_reader_eq rfl

private theorem honest_modifyGet {f : Window → α × Window} (hf : ∀ w, (f w).2.reader = w.reader) :
    Honest (modifyGet f) := fun w => asked_of_reader_eq (hf w)

private theorem honest_tooLong (capacity : Nat) (start : List Char) :
    Honest (throw (.tokenTooLong capacity start) : EStateM SourceError Window α) :=
  fun _ => asked_of_reader_eq rfl

private theorem pull_honest (fuel : Nat) : Honest (pull fuel) := by
  induction fuel with
  | zero => exact honest_pure ()
  | succ fuel ih =>
    intro w
    rw [pull_succ]
    split
    · exact asked_of_reader_eq rfl
    next hgo =>
    simp only [Bool.or_eq_true, decide_eq_true_eq, not_or] at hgo
    have hroom : 0 < w.capacity - w.buffer.size := by omega
    -- a read that does not fail, and then the reads of the remaining rounds
    have hmore {result : ReadResult} {reader : Reader} {t : Window}
        (hread : w.reader.read (w.capacity - w.buffer.size) = (result, reader))
        (hresult : ∀ reason, result ≠ .failed reason) (ht : t.reader = reader) :
        Reported w (pull fuel t) := by
      have hfirst : Asked w t none :=
        ⟨[result], .cons hroom hread (ht ▸ .nil _), by simpa [eq_comm] using hresult⟩
      exact (ih t).after_asked hfirst
    cases hread : w.reader.read (w.capacity - w.buffer.size) with
    | mk result reader =>
      cases result with
      | interrupted => exact hmore hread (by simp) rfl
      | piece bytes => exact hmore hread (by simp) rfl
      | failed reason =>
        exact ⟨[.failed reason], .cons hroom hread (.nil _), by simp [SourceError.reason?, eq_comm]⟩

theorem fill_honest : Honest fill :=
  (honest_modifyGet (fun _ => rfl)).bind fun _ => honest_get.bind fun _ => pull_honest _

theorem look_honest (l : Nat) : Honest (look l) := by
  have hensure : Honest (ensure l) := by
    refine honest_get.bind fun w => ?_
    split
    · exact honest_pure true
    split
    · exact honest_pure false
    split
    · exact (honest_tooLong _ _).bind fun _ => (honest_modifyGet fun _ => rfl).bind fun _ =>
        fill_honest.bind fun _ => honest_get.bind fun _ => honest_pure _
    · exact (honest_modifyGet fun _ => rfl).bind fun _ =>
        fill_honest.bind fun _ => honest_get.bind fun _ => honest_pure _
  refine hensure.bind fun found => ?_
  cases found with
  | true => exact honest_get.bind fun _ => honest_pure _
  | false => exact honest_pure none

theorem advance_honest : Honest advance := by
  refine (honest_modifyGet fun _ => rfl).bind fun _ => (look_honest 0).bind fun next => ?_
  split
  · exact (honest_modifyGet fun _ => rfl).bind fun _ => honest_pure next
  · exact honest_pure next

theorem currentToken_reader (w : Window) : (currentToken w).2.reader = w.reader := by
  unfold currentToken
  split <;> rfl

private theorem answer_honest (call : Source.Call) : Honest (call.answer (σ := Window)) := by
  cases call with
  | advance => exact advance_honest.map _
  | peek => exact (look_honest 0).map _
  | peekNext => exact (look_honest 1).map _
  | advanceIf expected =>
    refine Honest.map ((look_honest 0).bind fun next => ?_) _
    split
    · exact advance_honest
    · exact honest_pure none
  | isAtEnd => exact Honest.map ((look_honest 0).bind fun _ => honest_pure _) _
  | currentToken => exact honest_modifyGet currentToken_reader
  | startToken => exact honest_modifyGet fun _ => rfl
  | tokenOffset => exact honest_get.bind fun _ => honest_pure _

/-- A call on the window `w` of a stream whose text is at `c`. If it is answered, it is answered
as on the text. If it fails, the token and its offset stay as on the text. It fails with a reason
of the reader exactly when a read that it made failed for that reason, and otherwise only
because the token and the characters it looks at take up more than the window. -/
def Follows (capacity : Nat) (call : Source.Call) (w : Window) (c : Cursor) : Prop :=
  match call.answer w with
  | .ok a t => (∃ c', call.answer c = .ok a c') ∧ Asked w t none
  | .error e t =>
    (Source.currentToken t).1 = (Source.currentToken c).1 ∧
      Source.tokenOffset t = Source.tokenOffset c ∧ Asked w t e.reason? ∧
      ∀ n start, e = .tokenTooLong n start →
        n = capacity ∧ capacity ≤ c.token.length + call.lookahead

private theorem Follows.of_ok {capacity : Nat} {call : Source.Call} {c : Cursor} {a : Source.Answer}
    (h : Follows capacity call w c) (hrun : call.answer w = .ok a t) :
    ∃ c', call.answer c = .ok a c' := by
  rw [Follows, hrun] at h
  exact h.1

/-- After any calls on a window that opened on a stream, the next call follows the text of the
stream as it is after those calls that did not fail. A failed call is left out of them, so it has
no effect on what comes later. -/
theorem simulates_cursor (reader : Reader) (capacity : Nat) (lost : List UInt8) (text : List Char)
    (w₀ : Window) (hcapacity : 0 < capacity) (hlost : reader.failure = none → lost = [])
    (htext : Utf8.Decodes (reader.bytes ++ lost) text) (hopen : open? reader capacity = .ok w₀)
    (before : List Source.Call) (call : Source.Call) :
    Follows capacity call (Source.after before w₀)
      (Source.after (Source.granted before w₀) (Cursor.ofText text)) := by
  have hshows := open?_shows capacity hlost
  rw [hopen, ← htext.eq_decode, Nat.max_eq_left hcapacity] at hshows
  obtain ⟨hinv, hview⟩ := hshows
  have hlawful := source_lawful lost capacity reader.MayFail
  obtain ⟨hafter, hcursor⟩ := hlawful.after_calls before hinv
  have hplace : (source lost capacity reader.MayFail).cursor (Source.after before w₀) =
      Source.after (Source.granted before w₀) (Cursor.ofText text) := hview ▸ hcursor
  have hanswer := hlawful.answer call hafter
  have hreported := answer_honest call (Source.after before w₀)
  unfold Source.View.Agrees at hanswer
  unfold Follows
  cases hrun : call.answer (Source.after before w₀) with
  | ok a t =>
    rw [hrun] at hanswer hreported
    exact ⟨⟨_, hplace ▸ hanswer.2.1⟩, hreported⟩
  | error e t =>
    rw [hrun] at hanswer hreported
    obtain ⟨hinv', hsame, -, hrefuses⟩ := hanswer
    have hsame' := hsame.trans hplace
    refine ⟨?_, ?_, hreported, ?_⟩
    · rw [(hlawful.currentToken hinv').1]
      exact congrArg (fun c : Cursor => String.ofList c.token) hsame'
    · rw [hlawful.tokenOffset hinv']
      exact congrArg Cursor.tokenOffset hsame'
    · rintro n start rfl
      obtain ⟨hn, hfull⟩ := hrefuses
      refine ⟨hn, ?_⟩
      rwa [hplace, ← List.length_reverse] at hfull

/-- Two letters fill the window, so a third one is refused; then a read fails. The call after
that finds the characters behind the letters. -/
theorem simulates_cursor_full_and_failing :
    let reader : Reader :=
      ⟨[0x61, 0xC3, 0xA9, 0x20, 0x62], [.deliver 2, .interrupted, .deliver 1, .failed "gone"], none⟩
    let w₀ : Window := ⟨2, #['a', 'é'], 0, 0, 0, [], false, none, ⟨[0x20, 0x62], [.failed "gone"], none⟩⟩
    let before : List Source.Call := [.advance, .advance, .advance, .startToken, .advance]
    open? reader 2 = .ok w₀ ∧ Source.granted before w₀ = [.advance, .advance, .startToken] ∧
      ∃ c, Source.Call.peekNext.answer (Source.after (Source.granted before w₀)
        (Cursor.ofText ['a', 'é', ' ', 'b'])) = .ok (.char (some 'b')) c := by
  intro reader w₀ before
  have htext : Utf8.Decodes (reader.bytes ++ []) ['a', 'é', ' ', 'b'] :=
    Utf8.decodes_encoding ['a', 'é', ' ', 'b']
  have hopen : open? reader 2 = .ok w₀ := by rfl
  have hgranted : Source.granted before w₀ = [.advance, .advance, .startToken] := by rfl
  have hafter : Source.after before w₀ =
      ⟨2, #[], 0, 0, 3, [], false, none, ⟨[0x20, 0x62], [], none⟩⟩ := by rfl
  have hrun : Source.Call.peekNext.answer (Source.after before w₀) = .ok (.char (some 'b'))
      ⟨2, #[' ', 'b'], 0, 0, 3, [], false, none, ⟨[], [], none⟩⟩ := by
    rw [hafter]
    rfl
  have hfollows (calls : List Source.Call) {a : Source.Answer} {t : Window}
      (hrun : Source.Call.peekNext.answer (Source.after calls w₀) = .ok a t) :=
    (simulates_cursor reader 2 [] ['a', 'é', ' ', 'b'] w₀ (by decide) (fun _ => rfl) htext hopen
      calls .peekNext).of_ok hrun
  exact ⟨hopen, hgranted, hfollows before hrun⟩

end Window
end Copione
