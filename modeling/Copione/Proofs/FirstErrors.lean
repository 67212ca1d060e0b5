import Copione.Proofs.BlameOrder
import Copione.Proofs.Recovery
import Copione.Proofs.TrackedStatements
/-!
# The first error

The first error is about the first token that no program goes on with. What stands before it can be
completed.
-/
namespace Copione

open Copione.Parser

variable {may : Prop} {assign : Assigning} {tokens ts : List Token} {t : Token} {p q : Parser}
  {ws : List Word} {e : CompileError} {es : List CompileError} {program : List Stmt}

private theorem Token.word_of_eof (h : t.kind = .eof) : t.word = .mark .eof := by
  obtain ⟨kind, lexeme, literal, span⟩ := t
  obtain rfl : kind = .eof := h
  rfl

/-- The error is about the token at the index `i`. -/
def CompileError.BlamesAt (e : CompileError) (ts : List Token) (i : Nat) : Prop :=
  ∃ t, ts[i]? = some t ∧ ∃ fault : ParseFault, e = fault.report t

private theorem CompileError.BlamesAt.unique {stop i j : Nat} (h : e.BlamesAt ts i)
    (h' : e.BlamesAt ts j)
    (hrow : Token.Row stop ts) : i = j := by
  obtain ⟨t, ht, fault, rfl⟩ := h
  obtain ⟨t', ht', fault', hreport⟩ := h'
  have hoffset : t.span.offset = t'.span.offset := congrArg (fun e => e.span.offset) hreport
  obtain ⟨hi, rfl⟩ := List.getElem?_eq_some_iff.mp ht
  obtain ⟨hj, rfl⟩ := List.getElem?_eq_some_iff.mp ht'
  have hordered := List.pairwise_iff_getElem.mp hrow.ordered
  rcases Nat.lt_trichotomy i j with hlt | heq | hlt
  · have := hordered i j hi hj hlt
    omega
  · exact heq
  · have := hordered j i hj hi hlt
    omega

private theorem Parser.Passes.tokens_eq (h : Passes (ofTokens tokens) ws q)
    (heof : ∃ t ∈ tokens, t.kind = .eof) :
    ∃ ts more, ts.map Token.word = ws ∧ (∀ t ∈ ts, t.kind ≠ .eof) ∧ tokens = ts ++ q.current :: more := by
  obtain ⟨ts, hwords, hts, hrest, -⟩ := h.passed
  have htokens : tokens = ts ++ q.rest := hrest
  cases hq : q.rest with
  | nil =>
    obtain ⟨t, ht, hkind⟩ := heof
    rw [htokens, hq, List.append_nil] at ht
    exact absurd hkind (hts t ht)
  | cons t more =>
    refine ⟨ts, more, hwords, hts, ?_⟩
    rw [htokens, current, hq]
    rfl

namespace Program

private theorem run_of_parseWith_ok (h : parseWith assign tokens = .ok program) :
    ∃ q, programWith assign (fuelFor tokens.length) (ofTokens tokens) = .ok program q ∧
      q.errors = #[] := by
  rw [parseWith] at h
  split at h
  · next stmts q hrun =>
    split at h
    · next hempty =>
      obtain rfl := Except.ok.inj h
      exact ⟨q, hrun, by simpa using hempty⟩
    · cases h
  · cases h

private theorem final_prefix_of_parseWith_error (h : parseWith assign tokens = .error es) :
    (final (programWith assign (fuelFor tokens.length) (ofTokens tokens))).errors.toList <+: es := by
  rw [parseWith] at h
  split at h
  · next stmts q hrun =>
    split at h
    · cases h
    · rw [hrun, ← Except.error.inj h]
      exact List.prefix_refl _
  · next e q hrun =>
    rw [hrun, ← Except.error.inj h, Array.toList_push]
    exact List.prefix_append _ _

/-- What the parser takes is what is expected. -/
theorem accepts_of_parseWith (hassign : assign.Sensible may) (h : parseWith assign tokens = .ok program) :
    ∃ ws q, Passes (ofTokens tokens) ws q ∧ q.current.kind = .eof ∧ Expected.Accepts ws := by
  obtain ⟨q, hrun, herrors⟩ := run_of_parseWith_ok h
  have htracks := programWith_tracksAt hassign tokens
  rw [TracksAt, hrun] at htracks
  cases htracks with
  | @ok _ _ ws hpassed hleads =>
    have hend : q.current.kind = .eof := by
      simpa [isAtEnd] using isAtEnd_of_programWith hassign hrun herrors
    have hread := (hleads []).2
    rw [Token.word_of_eof hend] at hread
    exact ⟨ws, q, hpassed, hend, hread⟩
  | found hfound =>
    rw [final, herrors] at hfound
    simp at hfound

/-- The first error is about what is not expected, or about what is assigned to. -/
theorem stuck_of_parseWith (hassign : assign.Sensible may) (h : parseWith assign tokens = .error es) :
    ∃ e es', es = e :: es' ∧ Stuck may [.program] (ofTokens tokens) e := by
  have hfinal := final_prefix_of_parseWith_error h
  have htracks := programWith_tracksAt hassign tokens
  unfold TracksAt at htracks
  rw [parseWith] at h
  generalize programWith _ _ _ = result at h hfinal htracks
  cases htracks with
  | ok hpassed =>
    simp [hpassed.errors_eq, ofTokens] at h
  | @error e q hq hstuck =>
    obtain rfl := Except.error.inj h
    exact ⟨e, [], by rw [hq]; rfl, hstuck⟩
  | @found _ e hfound hstuck =>
    obtain ⟨es', rfl⟩ := hfound.trans hfinal
    exact ⟨e, es', rfl, hstuck⟩

/-- Where the parser ends, every token that no `eof` stands before has been seen. -/
private theorem concat_prefix {ts' : List Token} {more : List Token} (hts : ∀ t ∈ ts, t.kind ≠ .eof)
    (h : ts ++ t :: more = ts' ++ q.rest) (hend : q.current.kind = .eof) :
    ts ++ [t] <+: ts' ++ [q.current] := by
  cases hq : q.rest with
  | nil =>
    rw [hq, List.append_nil] at h
    exact ⟨more ++ [q.current], by rw [← h]; simp⟩
  | cons u us =>
    have hcurrent : q.current = u := by
      rw [current, hq]
      rfl
    rw [hq, ← hcurrent] at h
    have hleft : ts ++ [t] <+: ts' ++ q.current :: us := ⟨more, by rw [← h]; simp⟩
    have hright : ts' ++ [q.current] <+: ts' ++ q.current :: us := ⟨us, by simp⟩
    rcases List.prefix_or_prefix_of_prefix hleft hright with hle | hle
    · exact hle
    rcases List.prefix_concat_iff.mp hle with heq | hle
    · exact heq ▸ List.prefix_refl _
    · exact absurd hend (hts _ (hle.subset (by simp)))

private theorem parseWith_ne_ok (hassign : assign.Sensible may) (hts : ∀ t ∈ ts, t.kind ≠ .eof)
    (hleads : Leads [.program] (ts.map Token.word) t.word none) (more : List Token) :
    parseWith assign (ts ++ t :: more) ≠ .ok program := by
  intro h
  obtain ⟨_, q, hpassed, hend, haccepts⟩ := accepts_of_parseWith hassign h
  obtain ⟨ts', rfl, -, hrest, -⟩ := hpassed.passed
  obtain ⟨us, hus⟩ := concat_prefix hts hrest hend
  have hwords : ts'.map Token.word ++ [.mark .eof] =
      ts.map Token.word ++ [t.word] ++ us.map Token.word := by
    rw [← Token.word_of_eof hend, ← List.map_singleton, ← List.map_append, ← hus]
    simp
  rw [Expected.Accepts, hwords, hleads.readAll_eq_none] at haccepts
  cases haccepts

/-- Whatever is expected is a program where everything is assigned to. -/
theorem parseWith_tolerant_of_accepts (haccepts : Expected.Accepts (ts.map Token.word))
    (ht : t.kind = .eof) : ∃ program, parseWith tolerant (ts ++ [t]) = .ok program := by
  cases h : parseWith tolerant (ts ++ [t]) with
  | ok program => exact ⟨program, rfl⟩
  | error es =>
    obtain ⟨e, -, -, ⟨hmay, -⟩ | ⟨ws, q, hpassed, -, hleads⟩⟩ := stuck_of_parseWith tolerant_sensible h
    · exact hmay.elim
    obtain ⟨ts', more, rfl, -, htokens⟩ := hpassed.tokens_eq ⟨t, by simp, ht⟩
    have hwords : ts.map Token.word ++ [.mark .eof] =
        ts'.map Token.word ++ [q.current.word] ++ more.map Token.word := by
      rw [← Token.word_of_eof ht, ← List.map_singleton, ← List.map_append, htokens]
      simp
    rw [Expected.Accepts, hwords, hleads.readAll_eq_none] at haccepts
    cases haccepts

private theorem kind_of_parseWith_tolerant (heof : ∃ t ∈ tokens, t.kind = .eof)
    (htolerant : parseWith tolerant tokens = .ok program) (hparse : parse tokens = .error (e :: es)) :
    e.kind = .invalidAssignmentTarget := by
  rw [← parseWith_checked] at hparse
  obtain ⟨_, _, heq, ⟨-, hkind⟩ | ⟨_, q, hpassed, -, hleads⟩⟩ := stuck_of_parseWith checked_sensible hparse
  · rwa [(List.cons.inj heq).1]
  · obtain ⟨ts, more, rfl, hts, rfl⟩ := hpassed.tokens_eq heof
    exact absurd htolerant (parseWith_ne_ok tolerant_sensible hts hleads more)

/-- What stands before the first error can be completed, but for what is assigned to in it. -/
private theorem exists_tolerant (hts : ∀ t ∈ ts, t.kind ≠ .eof)
    (h : (Expected.readAll [.program] (ts.map Token.word)).isSome) :
    ∃ more last program, (∀ t ∈ more, t.kind ≠ .eof) ∧ last.kind = .eof ∧
      parseWith tolerant (ts ++ more ++ [last]) = .ok program ∧
      ∀ e es, parse (ts ++ more ++ [last]) = .error (e :: es) → e.kind = .invalidAssignmentTarget := by
  have hkinds : ∀ w ∈ ts.map Token.word, w.kind ≠ .eof := by simpa using hts
  obtain ⟨more, hproper, haccepts⟩ := Expected.exists_accepts h hkinds
  have hwritten : ∀ w ∈ more, (Token.word ∘ Word.token) w = w := fun w hw =>
    Word.token_word (List.all_eq_true.mp hproper w hw)
  have hwords : (more.map Word.token).map Token.word = more := by
    rw [List.map_map, List.map_congr_left hwritten, List.map_id']
  rw [← hwords, ← List.map_append] at haccepts
  let last : Token := ⟨.eof, "", none, ⟨0, 0, 0⟩⟩
  obtain ⟨program, hprogram⟩ := parseWith_tolerant_of_accepts (t := last) haccepts rfl
  refine ⟨_, last, program, ne_eof_of_map_word hwords hproper, rfl, hprogram, fun e es hparse => ?_⟩
  exact kind_of_parseWith_tolerant ⟨last, by simp, rfl⟩ hprogram hparse

/-- The first error of a text is about one of its tokens. No program begins with the tokens up to that one;
those before it do begin one where everything can be assigned to, and else only a target is wrong first. -/
theorem first_error_at_refused_token {text : String} (hscan : Token.scan text = .ok tokens)
    (hparse : parse tokens = .error (e :: es)) (hkind : e.kind ≠ .invalidAssignmentTarget) :
    ∃ i, e.BlamesAt tokens i ∧ (∀ j, e.BlamesAt tokens j → j = i) ∧
      (∀ more program, parse (tokens.take (i + 1) ++ more) ≠ .ok program) ∧
      ∃ more last program, (∀ t ∈ more, t.kind ≠ .eof) ∧ last.kind = .eof ∧
        parseWith tolerant (tokens.take i ++ more ++ [last]) = .ok program ∧
        ∀ e es, parse (tokens.take i ++ more ++ [last]) = .error (e :: es) →
          e.kind = .invalidAssignmentTarget := by
  have heof : ∃ t ∈ tokens, t.kind = .eof := by
    obtain ⟨_, last, rfl, hlast, -⟩ := Token.eof_of_scan hscan
    exact ⟨last, by simp, hlast⟩
  rw [← parseWith_checked] at hparse
  obtain ⟨_, _, heq, hstuck⟩ := stuck_of_parseWith checked_sensible hparse
  obtain ⟨rfl, rfl⟩ := List.cons.inj heq
  rcases hstuck with ⟨-, htarget⟩ | ⟨_, q, hpassed, hfault, hleads⟩
  · exact absurd htarget hkind
  obtain ⟨ts, more, rfl, hts, rfl⟩ := hpassed.tokens_eq heof
  have hblames : e.BlamesAt (ts ++ q.current :: more) ts.length := ⟨q.current, by simp, hfault⟩
  have htake : (ts ++ q.current :: more).take (ts.length + 1) = ts ++ [q.current] := by
    rw [List.append_cons]
    exact List.take_left' List.length_append
  have hsome := (hleads []).1
  refine ⟨ts.length, hblames, fun j hj => hj.unique hblames (Token.row_of_scan hscan), ?_, ?_⟩
  · intro more' program
    rw [htake, List.append_assoc, List.singleton_append, ← parseWith_checked]
    exact parseWith_ne_ok checked_sensible hts hleads more'
  · rw [List.take_left]
    exact exists_tolerant hts hsome

/-- A `;` in the place of a value. What stands before it goes on only if the `1` is assigned to. -/
theorem first_error_at_refused_token_missing_value :
    ∃ tokens e es i, Token.scan "f(1 = ; x" = .ok tokens ∧ parse tokens = .error (e :: es) ∧
      e.kind ≠ .invalidAssignmentTarget ∧ e.span.offset = 6 ∧ e.BlamesAt tokens i ∧
      (∀ j, e.BlamesAt tokens j → j = i) ∧
      (∀ more program, parse (tokens.take (i + 1) ++ more) ≠ .ok program) ∧
      ∃ more last program, (∀ t ∈ more, t.kind ≠ .eof) ∧ last.kind = .eof ∧
        parseWith tolerant (tokens.take i ++ more ++ [last]) = .ok program ∧
        ∀ e es, parse (tokens.take i ++ more ++ [last]) = .error (e :: es) →
          e.kind = .invalidAssignmentTarget := by
  have hread : ((Token.scan "f(1 = ; x").toOption.bind fun tokens =>
      match parse tokens with
      | .ok _ => none
      | .error errors => errors.head?.map fun e => (e.kind, e.span.offset)) =
        some (.expectedExpression, 6) := by
    decide +kernel
  generalize "f(1 = ; x" = text at hread ⊢
  cases hscan : Token.scan text with
  | error e => simp [hscan, Except.toOption] at hread
  | ok tokens =>
    cases hparse : parse tokens with
    | ok program => simp [hscan, hparse, Except.toOption] at hread
    | error errors =>
      cases errors with
      | nil => simp [hscan, hparse, Except.toOption] at hread
      | cons e es =>
        simp only [hscan, hparse, Except.toOption, Option.bind_some, List.head?_cons, Option.map_some,
          Option.some.injEq, Prod.mk.injEq] at hread
        obtain ⟨hkind, hoffset⟩ := hread
        have hother : e.kind ≠ .invalidAssignmentTarget := by rw [hkind]; decide
        obtain ⟨i, hblames⟩ := first_error_at_refused_token hscan hparse hother
        exact ⟨tokens, e, es, i, rfl, hparse, hother, hoffset, hblames⟩

end Program
end Copione
