import Copione.Proofs.Sessions
/-!
# Runtime errors of sessions

A program that was read from a text fails in few ways. It returns only from inside of its functions,
where a call catches that, it declares no keyword, and its errors are put on the line of one of the
tokens that it was read from, or that an earlier program of the session was read from, if the error
comes up in a function of that one.
-/
namespace Copione

/-- No keyword is read as a name. -/
theorem Token.not_reserved_of_scan {text : String} {tokens : List Token} {t : Token} {n : String}
    (h : scan text = .ok tokens) (ht : t ∈ tokens) (hn : t.word = .name n) : isReserved n = false := by
  have hkind : t.kind = .identifier := by rw [← t.word_kind, hn, Word.kind]
  obtain ⟨htokens, -⟩ := scan_eq_ok h
  rw [htokens] at ht
  obtain ht | ht := List.mem_append.1 ht
  · obtain ⟨l, hl, p, hp⟩ := Lexeme.mem_tokens ht
    obtain ⟨c, rest, rfl⟩ := Lexeme.eq_first_of_mem_all hl
    unfold Lexeme.token? at hp
    split at hp
    · next hmeaning =>
      obtain rfl := Option.some.inj hp
      obtain rfl : _ = TokenKind.identifier := hkind
      rw [Token.word_of_identifier rfl] at hn
      obtain rfl := Word.name.inj hn
      rw [isReserved, Lexeme.first_identifier hmeaning, Option.isSome_none]
    · cases hp
  · obtain rfl := List.mem_singleton.1 ht
    cases hkind

/-- A token of one of the texts stands on the line. -/
def Token.StandsOn (texts : List String) (line : Nat) : Prop :=
  ∃ text ∈ texts, ∃ tokens, scan text = .ok tokens ∧ ∃ t ∈ tokens, t.line = line

/-- A run beside itself, of programs that stand on lines of the texts and declare no keyword. -/
def Coupling.reading (texts : List String) : Coupling :=
  throughout (fun s s' => s = s' ∧ Token.StandsOn texts s.line) fun n => isReserved n = false

section

variable {texts : List String}

/-- What stops a program that was read: no return is left to catch, and errors have a line. -/
theorem Signal.Alike.located {signal other : Signal}
    (h : signal.Alike (Coupling.reading texts).toPairing false false other) :
    signal = .exhausted ∨ ∃ kind message line, signal = .error ⟨kind, message, some line⟩ ∧
      kind ∈ [ErrorKind.undefinedVariable, .mismatchedType, .notCallable, .missingWhileCondition,
        .arityMismatch, .invalidPropertyAccess, .outputFailed] ∧ Token.StandsOn texts line := by
  cases h with
  | @error f line _ hf hline =>
    cases hline with
    | none hbare => cases hbare
    | @some s _ hs =>
      refine .inr ⟨f.kind, f.message, s.line, rfl, ?_, hs.2⟩
      cases f with
      | reservedWord n =>
        obtain ⟨hreserved, hname⟩ := hf n rfl
        exact absurd (hreserved.symm.trans hname) (by simp)
      | _ => simp [Fault.kind]
  | returned hinside _ => cases hinside
  | exhausted => exact .inl rfl

namespace Machine

private theorem alike_start (output : Output) (clock : Nat → Float) (P : Pairing) :
    (start output clock).Alike P (start output clock) := by
  refine ⟨rfl, rfl, fun id => ?_, rfl, rfl, rfl, rfl⟩
  cases hscope : (start output clock).scopes.table[id]? with
  | none => exact .none
  | some scope =>
    obtain rfl : Scope.globals = scope := by
      have hmem := Array.mem_of_getElem? hscope
      simpa [start, eq_comm] using hmem
    refine .some (.refl (fun name c hc => ?_) fun i hi => by cases hi)
    obtain ⟨b, -, hb⟩ := List.mem_map.1 hc
    cases hb

/-- What a text leaves behind, and what stops it. -/
theorem feed_reading {m : Machine} {text : String} (htext : text ∈ texts)
    (h : m.Alike (Coupling.reading texts).toPairing m) :
    (m.feed (Token.scan text)).2.Alike (Coupling.reading texts).toPairing
        (m.feed (Token.scan text)).2 ∧
      ∀ signal, (m.feed (Token.scan text)).1.failure = some (.run signal) →
        signal.Alike (Coupling.reading texts).toPairing false false signal := by
  obtain ⟨stmts, hreads, hfeed⟩ | ⟨failure, hfailure, hfeed⟩ := m.feed_cases text
  · have hstmts : Stmt.AllAlike (Coupling.reading texts).span (Coupling.reading texts).name false
        (stmts.map (Stmt.shift .zero)) (stmts.map (Stmt.shift .zero)) := by
      refine hreads.alike ?_ fun tokens hscan t ht n => Token.not_reserved_of_scan hscan ht
      rintro tokens hscan s ⟨t, ht, -, hline⟩
      exact ⟨rfl, text, htext, tokens, hscan, t, ht, hline.symm⟩
    rw [hreads.map_shift_zero] at hstmts
    obtain ⟨hfailure, hmachine⟩ := h.run hstmts
    rw [hfeed]
    refine ⟨hmachine, fun signal hsignal => ?_⟩
    rw [hsignal] at hfailure
    cases hfailure with
    | some he => cases he with | run he => exact he
  · rw [hfeed]
    exact ⟨h, fun signal hsignal => absurd (Option.some.inj hsignal) (hfailure signal)⟩

private theorem session_reading {m : Machine} {later : List String}
    (hlater : ∀ text ∈ later, text ∈ texts)
    (h : m.Alike (Coupling.reading texts).toPairing m) :
    ∀ report ∈ (m.session later).1, ∀ signal, report.failure = some (.run signal) →
      signal.Alike (Coupling.reading texts).toPairing false false signal := by
  induction later generalizing m with
  | nil => simp [session]
  | cons text later ih =>
    obtain ⟨hmachine, hsignal⟩ := feed_reading (hlater text (by simp)) h
    have hrest := ih (fun t ht => hlater t (by simp [ht])) hmachine
    simpa [session] using ⟨hsignal, hrest⟩

end Machine

end

/-- A program of a session that fails, and not for want of steps, is stopped by an error, never by a
return. The error is of one of seven kinds, none of which is about reading or about reserved words,
and it is on the line of a token of that text or of one that was fed before. -/
theorem runtime_errors_located (output : Output) (clock : Nat → Float) (texts : List String) (k : Nat)
    (report : Report) (signal : Signal)
    (hreport : ((Machine.start output clock).session texts).1[k]? = some report)
    (hfailure : report.failure = some (.run signal)) :
    signal = .exhausted ∨ ∃ kind message line, signal = .error ⟨kind, message, some line⟩ ∧
      kind ∈ [ErrorKind.undefinedVariable, .mismatchedType, .notCallable, .missingWhileCondition,
        .arityMismatch, .invalidPropertyAccess, .outputFailed] ∧
      Token.StandsOn (texts.take (k + 1)) line := by
  have hk : k < texts.length := by
    rw [← Machine.length_session (.start output clock)]
    exact (List.getElem?_eq_some_iff.1 hreport).1
  rw [← List.take_append_drop (k + 1) texts, Machine.session_append,
    List.getElem?_append_left (by simp [Machine.length_session]; omega)] at hreport
  have hstart := Machine.alike_start output clock (Coupling.reading (texts.take (k + 1))).toPairing
  have hsignal := Machine.session_reading (fun _ => id) hstart report (List.mem_of_getElem? hreport)
  exact (hsignal signal hfailure).located

/-- The last text has one line, and its error is on the second line of the first text. -/
theorem runtime_errors_located_earlier_function :
    let texts := ["funzione f() \x7b\n ritorna g(); \x7d", "se (", "f();"]
    ∃ report signal, ((Machine.start .unlimited fun _ => 0).session texts).1[2]? = some report ∧
      report.failure = some (.run signal) ∧
      signal.error? = some ⟨.undefinedVariable, "undefined variable 'g'", some 2⟩ ∧
      (signal = .exhausted ∨ ∃ kind message line, signal = .error ⟨kind, message, some line⟩ ∧
        kind ∈ [ErrorKind.undefinedVariable, .mismatchedType, .notCallable, .missingWhileCondition,
          .arityMismatch, .invalidPropertyAccess, .outputFailed] ∧
        Token.StandsOn (texts.take 3) line) := by
  intro texts
  have hfails : (((Machine.start .unlimited fun _ => 0).session texts).1[2]?.bind
      Report.failure).bind Failure.error? =
        some ⟨.undefinedVariable, "undefined variable 'g'", some 2⟩ := by
    decide +kernel
  obtain ⟨failure, hfound, hsignal⟩ := Option.bind_eq_some_iff.1 hfails
  obtain ⟨report, hreport, hfailure⟩ := Option.bind_eq_some_iff.1 hfound
  cases failure with
  | run signal =>
    exact ⟨report, signal, hreport, hfailure, hsignal,
      runtime_errors_located _ _ texts 2 report signal hreport hfailure⟩
  | scan e => cases hsignal
  | parse errors => cases hsignal

end Copione
