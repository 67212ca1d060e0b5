import Copione.Proofs.WindowSimulation
import Copione.Token.Scan
/-!
# Reads of a scan

Which reads of the device the scan of a stream makes, and that it blames the device only for a
read that it made and that failed.
-/
namespace Copione

def ScanFault.reason? : ScanFault → Option String
  | .source e => e.reason?
  | _ => none

private theorem SourceError.unreadable_message_inj {reason reason' : String}
    (h : (unreadable reason).message = (unreadable reason').message) : reason = reason' := by
  unfold message at h
  simpa only [String.append_right_inj, toString] using h

private theorem ScanFault.reason?_eq_some {f : ScanFault} {reason : String} :
    f.reason? = some reason ↔
      f.kind = .sourceUnreadable ∧ f.message = (SourceError.unreadable reason).message := by
  cases f with
  | source e =>
    cases e with
    | tokenTooLong => simp [reason?, SourceError.reason?, kind]
    | unreadable reason' =>
      constructor
      · rintro ⟨⟩
        exact ⟨rfl, rfl⟩
      · rintro ⟨-, hmessage⟩
        exact congrArg some (SourceError.unreadable_message_inj hmessage)
  | unexpectedCharacter | unterminatedString | malformedNumber => simp [reason?, kind]

/-- A report of a failed read tells the reason. -/
theorem ScanFault.reason?_eq_of_report_eq {f g : ScanFault} {offset offset' len len' line line' : Nat}
    (h : f.report offset len line = g.report offset' len' line') : f.reason? = g.reason? := by
  have hkind : f.kind = g.kind := congrArg CompileError.kind h
  have hmessage : f.message = g.message := congrArg CompileError.message h
  refine Option.ext fun reason => ?_
  rw [reason?_eq_some, reason?_eq_some, hkind, hmessage]

namespace Scanner

open Window (Asked)

variable {α β : Type}

/-- A run from `s` on ends for want of a read exactly when one of its reads failed, and reports the
reason. -/
def Reported (s : Scanner Window) : EStateM.Result CompileError (Scanner Window) α → Prop
  | .ok _ t => Asked s.source t.source none
  | .error e t => ∃ (f : ScanFault) (offset len line : Nat), e = f.report offset len line ∧
      Asked s.source t.source f.reason?

def Honest (x : Scan Window α) : Prop := ∀ s, Reported s (x s)

private theorem Honest.bind {x : Scan Window α} {f : α → Scan Window β} (hx : Honest x)
    (hf : ∀ a, Honest (f a)) : Honest (x >>= f) := by
  intro s
  have h := hx s
  cases hrun : x s with
  | error e t =>
    rw [hrun] at h
    rw [Run.bind_of_error hrun]
    exact h
  | ok a t =>
    rw [hrun] at h
    rw [Run.bind_of_ok hrun]
    have h' := hf a t
    cases hrun' : f a t with
    | ok b u =>
      rw [hrun'] at h'
      exact h.trans h'
    | error e u =>
      rw [hrun'] at h'
      obtain ⟨fault, offset, len, line, he, hasked⟩ := h'
      exact ⟨fault, offset, len, line, he, h.trans hasked⟩

private theorem Honest.discard {x : Scan Window α} (hx : Honest x) : Honest (discard x) := by
  intro s
  have h := hx s
  have hmap : Functor.discard x s = ((fun _ => ()) <$> x) s := rfl
  rw [hmap]
  cases hrun : x s with
  | ok a t => rw [hrun] at h; rw [Run.map_of_ok hrun]; exact h
  | error e t => rw [hrun] at h; rw [Run.map_of_error hrun]; exact h

private theorem honest_pure (a : α) : Honest (pure a) := fun _ => Window.asked_of_reader_eq rfl

private theorem honest_get : Honest get := fun _ => Window.asked_of_reader_eq rfl

private theorem honest_modify {f : Scanner Window → Scanner Window}
    (hf : ∀ s, (f s).source.reader = s.source.reader) : Honest (modify f) :=
  fun s => Window.asked_of_reader_eq (hf s)

private theorem honest_ask {question : EStateM SourceError Window α} (h : Window.Honest question) :
    Honest (ask question) := by
  intro s
  have hasked := h s.source
  unfold ask
  cases hrun : question s.source with
  | ok a t =>
    rw [hrun] at hasked
    exact hasked
  | error e t =>
    rw [hrun] at hasked
    exact ⟨.source e, _, _, _, rfl, hasked⟩

private theorem honest_startToken : Honest (startToken (σ := Window)) := honest_modify fun _ => rfl

private theorem honest_currentLexeme : Honest (currentLexeme (σ := Window)) :=
  fun s => Window.asked_of_reader_eq (Window.currentToken_reader s.source)

private theorem honest_emit (kind : TokenKind) (literal : Option Literal) :
    Honest (emit (σ := Window) kind literal) :=
  honest_currentLexeme.bind fun _ => honest_modify fun _ => rfl

private theorem honest_reject {fault : ScanFault} (h : fault.reason? = none) :
    Honest (reject fault : Scan Window α) := by
  apply honest_currentLexeme.bind
  intro lexeme
  apply honest_get.bind
  intro s t
  exact ⟨fault, _, _, _, rfl, h ▸ Window.asked_of_reader_eq rfl⟩

private theorem honest_skipWhile (p : Char → Bool) (fuel : Nat) :
    Honest (skipWhile (σ := Window) p fuel) := by
  induction fuel with
  | zero => exact honest_pure none
  | succ fuel ih =>
    apply (honest_ask (Window.look_honest 0)).bind
    intro next
    split
    · exact honest_pure none
    · split
      · exact (honest_ask Window.advance_honest).discard.bind fun _ => ih
      · exact honest_pure _

private theorem honest_comment (fuel : Nat) : Honest (comment (σ := Window) fuel) := by
  induction fuel with
  | zero => exact honest_pure ()
  | succ fuel ih =>
    apply (honest_ask (Window.look_honest 0)).bind
    intro next
    split
    · exact honest_pure ()
    · exact honest_pure ()
    · exact (honest_ask Window.advance_honest).discard.bind fun _ =>
        honest_startToken.bind fun _ => ih

private theorem honest_string (fuel : Nat) : Honest (string (σ := Window) fuel) := by
  apply (honest_skipWhile _ fuel).bind
  intro stop
  split
  · exact (honest_ask Window.advance_honest).discard.bind fun _ =>
      honest_currentLexeme.bind fun _ => honest_emit _ _
  · exact honest_reject rfl

private theorem honest_number (fuel : Nat) : Honest (number (σ := Window) fuel) := by
  -- whether or not a point comes next, the rest depends on one truth value only
  have hpoint (stop : Option Char) {rest : Bool → Scan Window Unit} (hrest : ∀ b, Honest (rest b)) :
      Honest (if stop == some '.' then
          ask Source.peekNext >>= fun next => pure (next.any Numeral.isDigit) >>= rest
        else pure false >>= rest) := by
    split
    · exact (honest_ask (Window.look_honest 1)).bind fun _ => (honest_pure _).bind hrest
    · exact (honest_pure false).bind hrest
  apply (honest_skipWhile _ fuel).bind
  intro stop
  apply hpoint stop
  intro isFloat
  cases isFloat with
  | true =>
    exact (honest_ask Window.advance_honest).discard.bind fun _ =>
      (honest_skipWhile _ fuel).discard.bind fun _ => honest_currentLexeme.bind fun _ =>
        honest_emit _ _
  | false =>
    apply honest_currentLexeme.bind
    intro lexeme
    split
    · exact honest_emit _ _
    · exact honest_reject rfl

private theorem honest_word (fuel : Nat) : Honest (word (σ := Window) fuel) := by
  apply (honest_skipWhile _ fuel).discard.bind
  intro _
  apply honest_currentLexeme.bind
  intro lexeme
  split
  · exact honest_emit _ _
  · exact honest_emit _ _

private theorem honest_advanceIf (expected : Char) :
    Honest (ask (Source.advanceIf (σ := Window) expected)) := by
  apply honest_ask
  apply (Window.look_honest 0).bind
  intro next
  split
  · exact Window.advance_honest
  · exact Window.honest_pure none

private theorem honest_dispatch (fuel : Nat) (c : Char) : Honest (dispatch (σ := Window) fuel c) := by
  unfold dispatch
  split
  · exact honest_pure ()
  split
  · exact honest_modify fun _ => rfl
  cases TokenKind.single? c with
  | some kind => exact honest_emit kind none
  | none =>
  cases TokenKind.double? c with
  | some pair => exact (honest_advanceIf pair.1).bind fun _ => honest_emit _ none
  | none =>
  simp only []
  split
  · apply (honest_advanceIf '-').bind
    intro joined
    split
    · exact honest_comment fuel
    · exact honest_emit .minus none
  split
  · exact honest_string fuel
  split
  · exact honest_number fuel
  split
  · exact honest_word fuel
  · exact honest_reject rfl

private theorem honest_scanUpTo (fuel : Nat) : Honest (scanUpTo (σ := Window) fuel) := by
  induction fuel with
  | zero => exact honest_pure ()
  | succ fuel ih =>
    have hpiece : Honest (scanToken (σ := Window) fuel) := by
      apply (honest_ask Window.advance_honest).bind
      intro next
      split
      · exact honest_pure ()
      · exact honest_dispatch fuel _
    have hatEnd : Window.Honest (Source.isAtEnd (σ := Window)) :=
      (Window.look_honest 0).bind fun _ => Window.honest_pure _
    apply honest_startToken.bind
    intro _
    apply (honest_ask hatEnd).bind
    intro atEnd
    split
    · exact honest_pure ()
    · have hline : Honest (modify fun s : Scanner Window => { s with tokenLine := s.line }) :=
        honest_modify fun _ => rfl
      exact hline.bind fun _ => hpiece.bind fun _ => ih

private theorem honest_scanTokens : Honest (scanTokens (σ := Window)) := by
  apply honest_get.bind
  intro s
  apply (honest_scanUpTo _).bind
  intro _ t
  exact Window.asked_of_reader_eq rfl

end Scanner

namespace Token

/-- The window of a stream as the scan leaves it. -/
def windowAfterScan (reader : Reader) (capacity : Nat) : Window :=
  match Window.fill (Window.unread reader capacity) with
  | .error _ w => w
  | .ok _ w =>
    match Scanner.scanTokens (Scanner.ofSource w) with
    | .ok _ s => s.source
    | .error _ s => s.source

/-- The scan of a stream reports a failed read exactly when a read that it made failed, and for the
reason that read gave. -/
theorem scanReader_reported (reader : Reader) (capacity : Nat) :
    match scanReader reader capacity with
    | .ok _ => Window.Asked (Window.unread reader capacity) (windowAfterScan reader capacity) none
    | .error failure => ∃ (f : ScanFault) (offset len line : Nat),
        failure.error = f.report offset len line ∧
        Window.Asked (Window.unread reader capacity) (windowAfterScan reader capacity) f.reason? := by
  have hfill := Window.fill_honest (Window.unread reader capacity)
  rw [scanReader, Window.open?_eq, windowAfterScan]
  cases hopen : Window.fill (Window.unread reader capacity) with
  | error e w =>
    rw [hopen] at hfill
    exact ⟨.source e, 0, 1, 1, rfl, hfill⟩
  | ok _ w =>
    rw [hopen] at hfill
    have hscan := Scanner.honest_scanTokens (Scanner.ofSource w)
    simp only [scanSource]
    cases hrun : Scanner.scanTokens (Scanner.ofSource w) with
    | ok tokens s =>
      rw [hrun] at hscan
      exact hfill.trans hscan
    | error e s =>
      rw [hrun] at hscan
      obtain ⟨f, offset, len, line, he, hasked⟩ := hscan
      exact ⟨f, offset, len, line, he, hfill.trans hasked⟩

theorem scanReader_asked {reader : Reader} {capacity offset len line : Nat} {cause : SourceError}
    {held : Option (List Token)}
    (h : scanReader reader capacity =
      .error ⟨(ScanFault.source cause).report offset len line, held⟩) :
    Window.Asked (Window.unread reader capacity) (windowAfterScan reader capacity) cause.reason? := by
  have hreported := scanReader_reported reader capacity
  rw [h] at hreported
  obtain ⟨f, offset', len', line', he, hasked⟩ := hreported
  rw [show cause.reason? = f.reason? from ScanFault.reason?_eq_of_report_eq he]
  exact hasked

end Token
end Copione
