import Copione.Proofs.ScanRuns
import Copione.Proofs.WindowInvariants
/-!
# What the fields of a window stand for

Whatever calls were made on a window, failed ones among them, its fields stand for the characters that
it handed out: those of the token are in the buffer, and the offset is the length of those before. No
call that follows looks outside the buffer or goes on for ever.
-/
namespace Copione

namespace Source

variable {σ : Type} [Source σ]

/-- The characters that a source has handed out, up to the current token and since it began. -/
structure Handed where
  before : List Char
  token : List Char
  deriving DecidableEq, Repr

def Handed.next (h : Handed) : Call → Answer → Handed
  | .advance, .char c | .advanceIf _, .char c => { h with token := h.token ++ c.toList }
  | .startToken, _ => ⟨h.before ++ h.token, []⟩
  | _, _ => h

/-- What was handed out when the calls have been made; a failed one hands out nothing. -/
def handed : List Call → σ → Handed → Handed
  | [], _, h => h
  | call :: calls, s, h =>
    match call.answer s with
    | .ok a t => handed calls t (h.next call a)
    | .error _ t => handed calls t h

structure Handed.LeadsTo (h : Handed) (c : Cursor) : Prop where
  token_eq : c.token = h.token
  offset_eq : c.tokenOffset = utf8Length h.before

private theorem Handed.LeadsTo.advance {h : Handed} {c c' : Cursor} {next : Option Char}
    (hc : h.LeadsTo c) (hrun : Source.advance c = .ok next c') :
    (h.next .advance (.char next)).LeadsTo c' := by
  obtain ⟨taken, rest, offset⟩ := c
  cases rest with
  | nil =>
    obtain ⟨rfl, rfl⟩ := EStateM.Result.ok.inj hrun
    exact ⟨hc.token_eq.trans (List.append_nil _).symm, hc.offset_eq⟩
  | cons c rest =>
    obtain ⟨rfl, rfl⟩ := EStateM.Result.ok.inj hrun
    refine ⟨?_, hc.offset_eq⟩
    rw [Handed.next, ← hc.token_eq]
    exact List.reverse_cons

private theorem Handed.LeadsTo.answer {h : Handed} {c c' : Cursor} {call : Call} {a : Answer}
    (hc : h.LeadsTo c) (hrun : call.answer c = .ok a c') : (h.next call a).LeadsTo c' := by
  cases call with
  | advance =>
    obtain ⟨next, hadvance, rfl⟩ := Run.of_map_ok hrun
    exact hc.advance hadvance
  | advanceIf expected =>
    obtain ⟨next, hadvance, rfl⟩ := Run.of_map_ok hrun
    rw [Source.advanceIf, Run.bind_of_ok (Cursor.peek_apply c)] at hadvance
    split at hadvance
    · exact hc.advance hadvance
    · obtain ⟨rfl, rfl⟩ := EStateM.Result.ok.inj hadvance
      exact ⟨hc.token_eq.trans (List.append_nil _).symm, hc.offset_eq⟩
  | startToken =>
    obtain ⟨-, rfl⟩ := EStateM.Result.ok.inj hrun
    refine ⟨rfl, ?_⟩
    rw [Handed.next, Cursor.utf8Length_append, ← hc.offset_eq, ← hc.token_eq]
    rfl
  | peek | peekNext | isAtEnd | currentToken | tokenOffset =>
    obtain ⟨-, rfl⟩ := EStateM.Result.ok.inj hrun
    exact hc

private theorem View.Lawful.leadsTo {V : View σ} (hV : V.Lawful) (calls : List Call) {s : σ}
    {h : Handed}
    (hs : V.inv s) (hc : h.LeadsTo (V.cursor s)) :
    (handed calls s h).LeadsTo (V.cursor (after calls s)) := by
  induction calls generalizing s h with
  | nil => exact hc
  | cons call calls ih =>
    have hanswer := hV.answer call hs
    unfold View.Agrees at hanswer
    rw [handed, after]
    cases hrun : call.answer s with
    | ok a t =>
      rw [hrun] at hanswer
      exact ih hanswer.1 (hc.answer hanswer.2.1)
    | error e t =>
      rw [hrun] at hanswer
      exact ih hanswer.1 (hanswer.2.1 ▸ hc)

end Source

namespace Window

variable {w t : Window}

/-- What the fields of a window stand for once the characters `h` were handed out. -/
structure Represents (capacity : Nat) (h : Source.Handed) (w : Window) : Prop where
  capacity_eq : w.capacity = capacity
  start_le : w.tokenStart ≤ w.current
  current_le : w.current ≤ w.buffer.size
  size_le : w.buffer.size ≤ capacity
  pending_le : w.pending.length ≤ 3
  ended : w.exhausted → w.pending = []
  token_eq : (w.buffer.extract w.tokenStart w.current).toList = h.token
  token_le : h.token.length ≤ capacity
  memo_eq : ∀ text, w.memo = some text → text = String.ofList h.token
  offset_eq : w.tokenOffset = utf8Length h.before

private theorem Sound.represents {h : Source.Handed} (hw : Sound w) (hh : h.LeadsTo (view [] w)) :
    Represents w.capacity h w := by
  have htoken : w.token = h.token := by
    rw [← hh.token_eq, view, Cursor.token, List.reverse_reverse]
  have hlen := hw.inv.token_length
  have hcurrent := hw.inv.current_le
  have hsize := hw.inv.size_le
  exact {
    hw.inv, hw with
    capacity_eq := rfl
    ended := fun he => (hw.ended he).1
    token_eq := htoken
    token_le := by rw [← htoken]; omega
    memo_eq := fun text hmemo => htoken ▸ hw.inv.memo_eq text hmemo
    offset_eq := hh.offset_eq }

def underGuard {α : Type} : EStateM.Result SourceError Window α → EStateM.Result Halt Window α
  | .ok a t => .ok a t
  | .error e t => .error (.refused e) t

private theorem Guarded.run_eq {x : Guard α} {y : EStateM SourceError Window α} (h : Guarded x y w) :
    x w = underGuard (y w) := by
  unfold Guarded at h
  cases hrun : y w with
  | ok a t =>
    rw [hrun] at h
    exact h.1
  | error e t =>
    rw [hrun] at h
    exact h.1

private theorem unread_sound (reader : Reader) (capacity : Nat) : Sound (unread reader capacity) :=
  ⟨⟨by simp only [unread]; omega, Nat.le_refl _, Nat.le_refl _, Nat.zero_le _, by simp [unread],
    by simp [unread], fun _ => rfl⟩, Nat.zero_le _, by simp [unread]⟩

/-- After any calls on a window that opens, failed ones among them, its fields stand for the
characters handed out, and the next call raises no alarm: every index is in range, nothing is taken
from something smaller, every read has room for a byte, and every loop ends within `steps` rounds. -/
theorem represents_after (reader : Reader) (capacity steps : Nat)
    (hsteps : max capacity 1 + reader.span + 2 ≤ steps) :
    match open? reader capacity with
    | .error e => Guard.open? steps reader capacity = .error (.refused e)
    | .ok w₀ =>
      Guard.open? steps reader capacity = .ok w₀ ∧
        ∀ calls : List Source.Call,
          let w := Source.after calls w₀
          Represents (max capacity 1) (Source.handed calls w₀ ⟨[], []⟩) w ∧
            ∀ call, Guard.answer steps call w = underGuard (call.answer w) := by
  have hunread := unread_sound reader capacity
  have hfill := fill_guarded hunread hsteps
  have hpulled := fill_pulled hunread.inv
  unfold Guarded at hfill
  rw [open?_eq, Guard.open?]
  cases hrun : fill (unread reader capacity) with
  | error e t =>
    rw [hrun] at hfill
    simp only [hfill.1]
  | ok a w₀ =>
    rw [hrun] at hfill hpulled
    obtain ⟨hguard, hlater⟩ := hfill
    simp only [hguard, true_and]
    intro calls
    have hcalls := hlater.trans (after_later hlater.sound calls)
    have hplace : (⟨[], []⟩ : Source.Handed).LeadsTo (view [] w₀) := by
      cases hpulled with
      | done hfilled => rw [hfilled.view_eq]; exact ⟨rfl, rfl⟩
    have hleads := (source_lawful [] w₀.capacity w₀.reader.MayFail).leadsTo calls
      hlater.sound.source_inv hplace
    have hrepresents := hcalls.sound.represents hleads
    rw [hcalls.capacity_eq] at hrepresents
    exact ⟨hrepresents, fun call =>
      (answer_guarded hcalls.sound (hcalls.suffices hsteps) call).run_eq⟩

/-- Two letters fill the window, so a third one is refused; then a read fails. The next character comes
in two reads, and the beginning of one is left at the end of input. -/
theorem represents_after_full_and_failing :
    let reader : Reader :=
      ⟨[0x61, 0xC3, 0xA9, 0xE2, 0x82, 0xAC, 0xC3],
        [.deliver 2, .interrupted, .deliver 1, .failed "gone"], none⟩
    let calls : List Source.Call :=
      [.advance, .advance, .advance, .startToken, .advance, .advance, .currentToken]
    let w : Window :=
      ⟨2, #['€', Utf8.replacement], 0, 1, 3, [], true, some "€", ⟨[], [], none⟩⟩
    max 2 1 + reader.span + 2 ≤ 15 ∧
      ∃ w₀, Guard.open? 15 reader 2 = .ok w₀ ∧ Source.after calls w₀ = w ∧
        Source.handed calls w₀ ⟨[], []⟩ = ⟨['a', 'é'], ['€']⟩ ∧ Represents 2 ⟨['a', 'é'], ['€']⟩ w ∧
        Guard.answer 15 .peekNext w = .ok (.char none) w := by
  intro reader calls w
  have hsteps : max 2 1 + reader.span + 2 ≤ 15 := by decide
  obtain ⟨w₀, hopen, hafter, hhanded⟩ : ∃ w₀, open? reader 2 = .ok w₀ ∧
      Source.after calls w₀ = w ∧ Source.handed calls w₀ ⟨[], []⟩ = ⟨['a', 'é'], ['€']⟩ :=
    ⟨⟨2, #['a', 'é'], 0, 0, 0, [], false, none, ⟨[0xE2, 0x82, 0xAC, 0xC3], [.failed "gone"], none⟩⟩,
      by rfl, by decide +kernel, by decide +kernel⟩
  have hpeek : Source.Call.peekNext.answer w = .ok (.char none) w := by rfl
  -- from here on the sample is not to be run again
  clear_value reader calls w
  have hrun := represents_after reader 2 15 hsteps
  rw [hopen] at hrun
  obtain ⟨hguard, hcalls⟩ := hrun
  obtain ⟨hrepresents, hanswer⟩ := hcalls calls
  rw [hafter, hhanded] at hrepresents
  have hsame := hanswer .peekNext
  rw [hafter, hpeek] at hsame
  exact ⟨hsteps, w₀, hguard, hafter, hhanded, hrepresents, hsame⟩

end Window
end Copione
