import Copione.Proofs.Scans
import Copione.Proofs.WindowView
/-!
# Steps of a scan

The loops of the scanner stop when their steps are used up, and say nothing of it. That never
happens: a scan with more steps than there are characters to come ends the same way.
-/
namespace Copione.Scanner

open Source (View)

variable {σ : Type} [Source σ] {α β : Type} {V : View σ} {room fuel fuel' : Nat} {s : Scanner σ}
  {u : Scanner Cursor}

private theorem Yields.bind_eq {x : Scan σ α} {f g : α → Scan σ β}
    {outcome : EStateM.Result CompileError (Scanner Cursor) α} (hx : Yields V room fuel s x outcome)
    (hf : ∀ a t v, outcome = .ok a v → At V fuel t v → f a t = g a t) :
    (x >>= f) s = (x >>= g) s := by
  unfold Yields at hx
  cases hrun : x s with
  | ok a t =>
    rw [hrun] at hx
    obtain ⟨v, houtcome, ht⟩ := hx
    rw [Run.bind_of_ok hrun, Run.bind_of_ok hrun]
    exact hf a t v houtcome ht
  | error e t => rw [Run.bind_of_error hrun, Run.bind_of_error hrun]

private theorem skipWhile_steps (hV : V.Lawful) (p : Char → Bool) (hs : At V fuel s u)
    (h : fuel ≤ fuel') : skipWhile p fuel' s = skipWhile p fuel s := by
  induction fuel generalizing s u fuel' with
  | zero => exact absurd hs.enough (Nat.not_lt_zero _)
  | succ fuel ih =>
    obtain ⟨fuel', rfl⟩ : ∃ k, fuel' = k + 1 := ⟨fuel' - 1, by omega⟩
    rw [skipWhile, skipWhile]
    apply (peek_yields hV hs (Nat.lt_succ_self _)).bind_eq
    intro next t v hnext ht
    obtain ⟨rfl, rfl⟩ := EStateM.Result.ok.inj hnext
    cases hrest : u.source.rest with
    | nil => rfl
    | cons c rest =>
      simp only [List.head?_cons]
      split
      · apply (advance_yields hV ht hrest (Nat.lt_succ_self _)).discard.bind_eq
        intro _ t v _ ht
        exact ih ht (by omega)
      · rfl

private theorem comment_steps (hV : V.Lawful) (hs : At V fuel s u) (h : fuel ≤ fuel') :
    comment fuel' s = comment fuel s := by
  induction fuel generalizing s u fuel' with
  | zero => exact absurd hs.enough (Nat.not_lt_zero _)
  | succ fuel ih =>
    obtain ⟨fuel', rfl⟩ : ∃ k, fuel' = k + 1 := ⟨fuel' - 1, by omega⟩
    rw [comment, comment]
    apply (peek_yields hV hs (Nat.lt_succ_self _)).bind_eq
    intro next t v hnext ht
    obtain ⟨rfl, rfl⟩ := EStateM.Result.ok.inj hnext
    cases hrest : u.source.rest with
    | nil => rfl
    | cons c rest =>
      by_cases hc : c = '\n'
      · subst hc
        rfl
      · simp only [List.head?_cons]
        apply (advance_yields hV ht hrest (Nat.lt_succ_self _)).discard.bind_eq
        intro _ t v _ ht
        have hstart : Yields V 0 fuel t startToken _ := startToken_yields hV ht
        apply hstart.bind_eq
        intro _ t v _ ht
        exact ih ht (by omega)

private theorem number_steps (hV : V.Lawful) (hs : At V fuel s u) (h : fuel ≤ fuel') :
    number fuel' s = number fuel s := by
  rw [number, number]
  refine (Run.bind_congr (skipWhile_steps hV _ hs h) _).trans ?_
  apply (skipWhile_yields hV Numeral.isDigit hs (Nat.lt_succ_self _)).bind_eq
  intro stop t v hstop ht
  obtain ⟨rfl, rfl⟩ := EStateM.Result.ok.inj hstop
  split
  · next hpoint =>
    obtain ⟨more, hmore⟩ := List.head?_eq_some_iff.mp (eq_of_beq hpoint)
    rw [← drop_length_takeWhile, ← Cursor.forward_rest] at hmore
    apply (peekNext_yields hV ht (Nat.lt_succ_self _)).bind_eq
    intro next t v hnext ht
    obtain ⟨rfl, rfl⟩ := EStateM.Result.ok.inj hnext
    rw [pure_bind, pure_bind]
    dsimp only
    split
    · -- behind the point there are more digits to take
      apply (advance_yields hV (ht.mono (Nat.le_succ _)) hmore (Nat.lt_succ_self _)).discard.bind_eq
      intro _ t v _ ht
      exact Run.bind_congr (Run.discard_congr (skipWhile_steps hV _ ht h)) _
    · rfl
  · rfl

private theorem dispatch_steps (hV : V.Lawful) (hs : At V fuel s u) (h : fuel ≤ fuel') (c : Char) :
    dispatch fuel' c s = dispatch fuel c s := by
  unfold dispatch
  split
  · rfl
  split
  · rfl
  cases TokenKind.single? c with
  | some kind => rfl
  | none =>
  cases TokenKind.double? c with
  | some pair => rfl
  | none =>
  simp only []
  split
  · apply (advanceIf_yields hV hs '-' (Nat.lt_succ_self _)).bind_eq
    intro joined t v _ ht
    split
    · exact comment_steps hV ht h
    · rfl
  split
  · exact Run.bind_congr (skipWhile_steps hV _ hs h) _
  split
  · exact number_steps hV hs h
  split
  · exact Run.bind_congr (Run.discard_congr (skipWhile_steps hV _ hs h)) _
  · rfl

private theorem scanToken_steps (hV : V.Lawful) (hs : At V (fuel + 1) s u) {c : Char}
    {rest : List Char} (hrest : u.source.rest = c :: rest) (h : fuel ≤ fuel') :
    scanToken fuel' s = scanToken fuel s := by
  apply (advance_yields hV hs hrest (Nat.lt_succ_self _)).bind_eq
  intro next t v hnext ht
  obtain ⟨rfl, rfl⟩ := EStateM.Result.ok.inj hnext
  exact dispatch_steps hV ht h c

private theorem scanUpTo_steps_of_at (hV : V.Lawful) (hs : At V fuel s u) (h : fuel ≤ fuel') :
    scanUpTo fuel' s = scanUpTo fuel s := by
  induction fuel generalizing s u fuel' with
  | zero => exact absurd hs.enough (Nat.not_lt_zero _)
  | succ fuel ih =>
    obtain ⟨fuel', rfl⟩ : ∃ k, fuel' = k + 1 := ⟨fuel' - 1, by omega⟩
    have hle : fuel ≤ fuel' := by omega
    rw [scanUpTo, scanUpTo]
    have hstart : Yields V 0 (fuel + 1) s startToken _ := startToken_yields hV hs
    apply hstart.bind_eq
    intro _ t v hstarted ht
    obtain ⟨-, rfl⟩ := EStateM.Result.ok.inj hstarted
    apply (isAtEnd_yields hV ht (Nat.lt_succ_self _)).bind_eq
    intro atEnd t v hatEnd ht
    obtain ⟨rfl, rfl⟩ := EStateM.Result.ok.inj hatEnd
    cases hrest : u.source.rest with
    | nil => simp [hrest]
    | cons c rest =>
      have hbegin : At V (fuel + 1) { t with tokenLine := t.line }
          { u with source := u.source.startToken, tokenLine := u.line } := by
        refine ⟨?_, ht.inv, ht.enough⟩
        rw [shown, ht.cursor_eq, ht.tokens_eq, ht.line_eq]
      have hsource : u.source.startToken = ⟨[], c :: rest, u.source.startToken.tokenOffset⟩ := by
        rw [← hrest]
        rfl
      simp only [Cursor.startToken_rest, hrest, List.isEmpty_cons, Bool.false_eq_true, if_false]
      change (scanToken fuel' >>= fun _ => scanUpTo fuel') { t with tokenLine := t.line } =
        (scanToken fuel >>= fun _ => scanUpTo fuel) { t with tokenLine := t.line }
      refine (Run.bind_congr (scanToken_steps hV hbegin hrest hle) _).trans ?_
      apply (scanToken_yields hV hbegin hsource (Nat.le_refl _)).bind_eq
      intro _ t v _ ht
      exact ih ht hle

/-- A scan takes no more steps than `scanTokens` gives it. -/
theorem scanUpTo_steps (hV : V.Lawful) (hs : V.inv s.source) {steps : Nat}
    (h : Source.remaining s.source < steps) :
    scanUpTo steps s = scanUpTo (Source.remaining s.source + 1) s :=
  scanUpTo_steps_of_at hV ⟨rfl, hs, Nat.lt_succ_self _⟩ h

theorem scanUpTo_steps_of_open {reader : Reader} {capacity : Nat} {w : Window}
    (hopen : Window.open? reader capacity = .ok w) {steps : Nat} (h : Source.remaining w < steps) :
    scanUpTo steps (ofSource w) = scanUpTo (Source.remaining w + 1) (ofSource w) := by
  have hshows := Window.open?_shows capacity fun _ : reader.failure = none => rfl
  rw [hopen] at hshows
  exact scanUpTo_steps (Window.source_lawful [] _ _) hshows.1 h

end Copione.Scanner
