import Copione.Proofs.PlacedSessions
/-!
# Sessions as one program

Texts that are fed one by one do what they do joined by newlines and run as one program. In the joined
text each of them is moved behind those before it, and nothing of its program changes but the spans,
of which a run shows only the lines of its errors.
-/
namespace Copione

/-- How far a text is moved when others are put in front of it, each with a newline behind it. -/
def Shift.behind : List String → Shift
  | [] => .zero
  | text :: texts => .past ("\n".intercalate (text :: texts))

/-- What is the same of a session and of the joined texts, but for where the spans stand: those of a
text are moved behind the texts before it. -/
def Pairing.moved (m : Machine) (texts : List String) : Pairing :=
  .placed m texts (fun _ => .zero) fun i => .behind (texts.take i)

def Program.newlines (k : Nat) : String := String.ofList (List.replicate k '\n')

/-- The texts, each some newlines further down. -/
def Program.lowered (pad : Nat → Nat) (texts : List String) : List String :=
  texts.mapIdx fun i text => newlines (pad i) ++ text

namespace Program

variable {first second text : String} {tokens later : List Token} {program stmts : List Stmt}
  {texts : List String}

private theorem parse_newline (hscan : Token.scan first = .ok tokens)
    (hparse : parse tokens = .ok program)
    (hscan' : Token.scan second = .ok later) (hparse' : parse later = .ok stmts) :
    ∃ ts e, tokens = ts ++ [e] ∧ e.kind = .eof ∧
      Token.scan (first ++ "\n" ++ second) = .ok (ts ++ later.map (Token.shift (.past first))) ∧
      parse (ts ++ later.map (Token.shift (.past first))) =
        .ok (program ++ stmts.map (Stmt.shift (.past first))) := by
  obtain ⟨ts, e, rfl, he, hts⟩ := Token.eof_of_scan hscan
  obtain ⟨us, e', rfl, he', hus⟩ := Token.eof_of_scan hscan'
  exact ⟨ts, e, rfl, he, Token.scan_newline hscan hscan',
    parse_append hts he hus he' hparse hparse' (.past first)⟩

private theorem reads_nil_iff : Reads "" program ↔ program = [] := by
  have hscan : Token.scan "" = .ok [⟨.eof, "", none, ⟨0, 0, 1⟩⟩] := by
    rw [Token.scan_eq_transcript, Lexeme.transcript, String.toList_empty, Lexeme.all]
    rfl
  have hparse : parse [⟨.eof, "", none, ⟨0, 0, 1⟩⟩] = .ok [] := by rfl
  constructor
  · rintro ⟨tokens, hscan', hparse'⟩
    obtain rfl := Except.ok.inj (hscan.symm.trans hscan')
    exact Except.ok.inj (hparse'.symm.trans hparse)
  · rintro rfl
    exact ⟨_, hscan, hparse⟩

private theorem reads_join (h : Reads ("\n".intercalate texts) program) (htext : Reads text stmts) :
    Reads ("\n".intercalate (texts ++ [text])) (program ++ stmts.map (Stmt.shift (.behind texts))) := by
  cases texts with
  | nil =>
    obtain rfl := reads_nil_iff.1 (String.intercalate_nil ▸ h)
    simpa [Shift.behind, htext.map_shift_zero] using htext
  | cons head texts =>
    obtain ⟨tokens, hscan, hparse⟩ := h
    obtain ⟨later, hscan', hparse'⟩ := htext
    obtain ⟨ts, e, -, -, hscan, hparse⟩ := parse_newline hscan hparse hscan' hparse'
    rw [String.intercalate_append_of_ne_nil (by simp) (by simp), String.intercalate_singleton]
    exact ⟨_, hscan, hparse⟩

private theorem reads_joined {programs : List (List Stmt)}
    (hreads : List.Forall₂ Reads texts programs) :
    Reads ("\n".intercalate texts)
      (placed (fun i => .behind (texts.take i)) programs).flatten := by
  let moved := placed (fun i => .behind (texts.take i)) programs
  have hlength : moved.length = texts.length := (length_placed _ _).trans hreads.length_eq.symm
  have hprefix : ∀ k ≤ texts.length, Reads ("\n".intercalate (texts.take k)) (moved.take k).flatten := by
    intro k hk
    induction k with
    | zero => exact reads_nil_iff.2 rfl
    | succ k ih =>
      have hp : k < programs.length := hreads.length_eq ▸ hk
      have hk' : k < moved.length := hlength ▸ hk
      have hmoved : moved[k] = programs[k].map (Stmt.shift (.behind (texts.take k))) := by
        simp only [moved, placed, List.getElem_mapIdx]
      rw [← List.take_concat_get' texts k hk, ← List.take_concat_get' moved k hk', hmoved,
        List.flatten_concat]
      exact reads_join (ih (Nat.le_of_succ_le hk)) (hreads.get hk hp)
  have hall := hprefix texts.length (Nat.le_refl _)
  rwa [List.take_length, ← hlength, List.take_length] at hall

private theorem reads_newlines (k : Nat) : Reads (newlines k) [] := by
  induction k with
  | zero => exact reads_nil_iff.2 rfl
  | succ k ih =>
    obtain ⟨tokens, hscan, hparse⟩ := ih
    obtain ⟨later, hscan', hparse'⟩ := reads_nil_iff.2 rfl
    obtain ⟨ts, e, -, -, hscan, hparse⟩ := parse_newline hscan hparse hscan' hparse'
    have htext : newlines (k + 1) = newlines k ++ "\n" ++ "" := by
      simp [newlines, List.replicate_succ']
    exact htext ▸ ⟨_, hscan, hparse⟩

/-- A text with newlines in front has the same program, further down. -/
private theorem exists_reads_newlines (h : Reads text program) (k : Nat) :
    ∃ d : Shift, d.lines = k ∧ Reads (newlines k ++ text) (program.map (Stmt.shift d)) := by
  cases k with
  | zero =>
    refine ⟨.zero, rfl, ?_⟩
    have htext : newlines 0 ++ text = text := by simp [newlines]
    rwa [htext, h.map_shift_zero]
  | succ k =>
    obtain ⟨tokens, hscan, hparse⟩ := reads_newlines k
    obtain ⟨later, hscan', hparse'⟩ := h
    obtain ⟨ts, e, -, -, hscan, hparse⟩ := parse_newline hscan hparse hscan' hparse'
    have htext : newlines (k + 1) ++ text = newlines k ++ "\n" ++ text := by
      simp [newlines, List.replicate_succ']
    refine ⟨.past (newlines k), by simp [Shift.past, newlines], ?_⟩
    exact htext ▸ ⟨_, hscan, hparse⟩

private theorem exists_reads_lowered {programs : List (List Stmt)}
    (hreads : List.Forall₂ Reads texts programs)
    (pad : Nat → Nat) :
    ∃ place : Nat → Shift, (∀ i, (place i).lines = pad i) ∧
      List.Forall₂ Reads (lowered pad texts) (placed place programs) := by
  have hplace (i : Nat) : ∃ d : Shift, d.lines = pad i ∧ ∀ (hi : i < texts.length)
      (hi' : i < programs.length),
      Reads (newlines (pad i) ++ texts[i]) (programs[i].map (Stmt.shift d)) := by
    by_cases hi : i < texts.length
    · have hi' : i < programs.length := hreads.length_eq ▸ hi
      obtain ⟨d, hd, h⟩ := exists_reads_newlines (hreads.get hi hi') (pad i)
      exact ⟨d, hd, fun _ _ => h⟩
    · exact ⟨⟨0, pad i⟩, rfl, fun h => absurd h hi⟩
  choose place hlines hplaced using hplace
  refine ⟨place, hlines, List.forall₂_iff_get.2 ⟨?_, fun i h h' => ?_⟩⟩
  · rw [lowered, List.length_mapIdx, length_placed, hreads.length_eq]
  · have hi : i < texts.length := List.length_mapIdx ▸ h
    simp only [lowered, placed, List.get_eq_getElem, List.getElem_mapIdx]
    exact hplaced i hi (hreads.length_eq ▸ hi)

end Program

private theorem Eval.interpret_append {fuel : Nat} {first : List Stmt} {m n : Machine}
    (h : interpret fuel first m = .ok () n) (second : List Stmt) :
    interpret fuel (first ++ second) m = interpret fuel second n := by
  induction first generalizing m with
  | nil =>
    obtain ⟨-, rfl⟩ := EStateM.Result.ok.inj h
    rfl
  | cons s first ih =>
    obtain ⟨_, _, hs, hrest⟩ := Run.of_bind_ok h
    exact (Run.bind_of_ok hs).trans (ih hrest)

namespace Machine

variable {m now : Machine} {all texts later : List String} {text : String}
  {program stmts : List Stmt}

private theorem run_append (h : (m.run program).1.failure = none) (stmts : List Stmt) :
    (m.run (program ++ stmts)).1.failure = ((m.run program).2.run stmts).1.failure ∧
      (m.run (program ++ stmts)).2 = ((m.run program).2.run stmts).2 := by
  have hboth := Eval.interpret_append (interpret_of_run h) stmts
  cases hrun : Eval.interpret Eval.lifetime stmts (m.run program).2 with
  | ok _ _ =>
    rw [run_ok hrun, run_ok (hboth.trans hrun)]
    exact ⟨rfl, rfl⟩
  | error _ _ =>
    rw [run_error hrun, run_error (hboth.trans hrun)]
    exact ⟨rfl, rfl⟩

/-- Programs in one behind the other do what they do one after another, if all but the last of them
run to their ends. -/
theorem run_flatten (m : Machine) (programs : List (List Stmt))
    (hruns : ∀ report ∈ (m.runEach programs).1.dropLast, report.failure = none) :
    (m.run programs.flatten).1.failure = (m.runEach programs).1.getLast?.bind Report.failure ∧
      (m.run programs.flatten).2 = (m.runEach programs).2 := by
  induction programs generalizing m with
  | nil => exact ⟨rfl, rfl⟩
  | cons program programs ih =>
    cases programs with
    | nil => simp [runEach]
    | cons next programs =>
      have hfine : (m.run program).1.failure = none := hruns _ (by simp [runEach])
      have hrest := ih (m.run program).2 fun report hreport =>
        hruns report (by simpa [runEach] using .inr hreport)
      obtain ⟨hfailure, hmachine⟩ := run_append hfine (next :: programs).flatten
      rw [List.flatten_cons, hfailure, hmachine, hrest.1, hrest.2]
      exact ⟨by simp [runEach], rfl⟩

end Machine

private theorem exists_programs {texts : List String}
    (h : ∀ text ∈ texts, ∃ stmts, Program.Reads text stmts) :
    ∃ programs, List.Forall₂ Program.Reads texts programs := by
  induction texts with
  | nil => exact ⟨[], .nil⟩
  | cons text texts ih =>
    obtain ⟨stmts, htext⟩ := h text (by simp)
    obtain ⟨programs, hprograms⟩ := ih fun t ht => h t (by simp [ht])
    exact ⟨stmts :: programs, .cons htext hprograms⟩

/-- Texts that are joined by newlines are one program. The tokens and the statements of two texts
come one after the other, those of the second moved past the first. And a session of texts, all of
which can be read and of which only the last may fail, writes what the joined texts write, fails where
they fail, but for how lines have moved, and binds what they bind, but for how spans have moved. The
line of its error moves as one text does, the one that takes the error along wherever the texts of the
session are put. -/
theorem session_as_one_program :
    (∀ first second tokens later program stmts, Token.scan first = .ok tokens →
      Program.parse tokens = .ok program → Token.scan second = .ok later →
      Program.parse later = .ok stmts → ∃ ts e, tokens = ts ++ [e] ∧ e.kind = .eof ∧
        Token.scan (first ++ "\n" ++ second) = .ok (ts ++ later.map (Token.shift (.past first))) ∧
        Program.parse (ts ++ later.map (Token.shift (.past first))) =
          .ok (program ++ stmts.map (Stmt.shift (.past first)))) ∧
    ∀ (m : Machine) (texts : List String),
      (∀ text ∈ texts, ∃ stmts, Program.Reads text stmts) →
      (∀ report ∈ (m.session texts).1.dropLast, report.failure = none) →
      let whole := m.feed (Token.scan ("\n".intercalate texts))
      whole.1.output = String.join ((m.session texts).1.map Report.output) ∧
        Option.Rel (Failure.Alike (.moved m texts))
          ((m.session texts).1.getLast?.bind Report.failure) whole.1.failure ∧
        (m.session texts).2.Alike (.moved m texts) whole.2 ∧
        ∀ e, Report.lastError? (m.session texts).1 = some e → ∃ origin : Option Nat,
          (∀ pad : Nat → Nat, Report.lastError? (m.session (Program.lowered pad texts)).1 =
            some (e.lower (origin.elim 0 pad))) ∧
          whole.1.failure.bind Failure.error? =
            some (e.lower (origin.elim 0 fun i => (Shift.behind (texts.take i)).lines)) := by
  refine ⟨fun _ _ _ _ _ _ hscan hparse hscan' hparse' =>
    Program.parse_newline hscan hparse hscan' hparse', ?_⟩
  intro m texts hreadsEach hruns whole
  obtain ⟨programs, hreads⟩ := exists_programs hreadsEach
  let moved := Program.placed (fun i => .behind (texts.take i)) programs
  have hwhole : whole = m.run moved.flatten := m.feed_of_reads (Program.reads_joined hreads)
  have hsession : m.session texts = m.runEach programs := m.session_of_reads hreads
  obtain ⟨hreports, hmachine⟩ := m.runEach_placed_alike hreads (fun _ => .zero)
    fun i => .behind (texts.take i)
  rw [Program.placed_zero hreads, ← hsession] at hreports hmachine
  have hfine : ∀ report ∈ (m.runEach moved).1.dropLast, report.failure = none := by
    have hbefore := List.forall₂_take ((m.session texts).1.length - 1) hreports
    rw [← List.dropLast_eq_take, hreports.length_eq, ← List.dropLast_eq_take] at hbefore
    exact Report.none_of_alike hbefore hruns
  obtain ⟨hfailure, hend⟩ := m.run_flatten moved hfine
  rw [hwhole, hfailure, hend]
  refine ⟨?_, Report.last_alike hreports, hmachine, fun e he => ?_⟩
  · rw [m.run_output, (m.writes_session texts).2, hend, hmachine.output]
  rw [hsession] at he
  obtain ⟨origin, horigin⟩ := Machine.exists_origin hreads he
  refine ⟨origin, fun pad => ?_, horigin _⟩
  obtain ⟨place, hlines, hlowered⟩ := Program.exists_reads_lowered hreads pad
  rw [m.session_of_reads hlowered, horigin place]
  simp only [hlines]

/-- The last text fails in a function of the second, which the joined text has on its third line. The
error moves when newlines are put in front of that second text. -/
theorem session_as_one_program_failing_call :
    let m := Machine.start .unlimited fun _ => 0
    let texts := ["variabile a = \"b\";\n", "funzione f() \x7b ritorna -a; \x7d", "Scrive(a); f();"]
    let whole := m.feed (Token.scan ("\n".intercalate texts))
    let message := "cannot negate a value of type Stringa"
    (∀ text ∈ texts, ∃ stmts, Program.Reads text stmts) ∧
      (∀ report ∈ (m.session texts).1.dropLast, report.failure = none) ∧
      whole.1.output = "b" ∧
      whole.1.failure.bind Failure.error? = some ⟨.mismatchedType, message, some 3⟩ ∧
      Report.lastError? (m.session texts).1 = some ⟨.mismatchedType, message, some 1⟩ ∧
      whole.1.output = String.join ((m.session texts).1.map Report.output) ∧
      Option.Rel (Failure.Alike (.moved m texts))
        ((m.session texts).1.getLast?.bind Report.failure) whole.1.failure ∧
      (m.session texts).2.Alike (.moved m texts) whole.2 ∧
      ∀ pad : Nat → Nat, Report.lastError? (m.session (Program.lowered pad texts)).1 =
        some ⟨.mismatchedType, message, some (1 + pad 1)⟩ := by
  intro m texts whole message
  have hreads : ∀ text ∈ texts, ∃ stmts, Program.Reads text stmts := by
    have hall : ∀ text ∈ texts, ((Token.scan text).toOption.bind fun tokens =>
        (Program.parse tokens).toOption).isSome := by decide +kernel
    intro text htext
    have hsome := hall text htext
    cases hscan : Token.scan text with
    | error e => simp [hscan, Except.toOption] at hsome
    | ok tokens =>
      cases hparse : Program.parse tokens with
      | error e => simp [hscan, hparse, Except.toOption] at hsome
      | ok stmts => exact ⟨stmts, tokens, hscan, hparse⟩
  have hruns : ∀ report ∈ (m.session texts).1.dropLast, report.failure = none := by
    have hall : ∀ report ∈ (m.session texts).1.dropLast, report.failure.isNone := by decide +kernel
    exact fun report hreport => Option.isNone_iff_eq_none.1 (hall report hreport)
  have hlast : Report.lastError? (m.session texts).1 = some ⟨.mismatchedType, message, some 1⟩ := by
    decide +kernel
  have hwhole : whole.1.failure.bind Failure.error? = some ⟨.mismatchedType, message, some 3⟩ := by
    decide +kernel
  obtain ⟨houtput, hfailure, hmachine, herror⟩ := session_as_one_program.2 m texts hreads hruns
  obtain ⟨origin, hlowered, hjoined⟩ := herror _ hlast
  -- two lines stand in front of the second text and of no other
  have hlines : 1 + origin.elim 0 (fun i => (Shift.behind (texts.take i)).lines) = 3 := by
    have hlower := Option.some.inj (hjoined.symm.trans hwhole)
    exact Option.some.inj (congrArg RuntimeError.line hlower)
  have hthird (i : Nat) : (Shift.behind (texts.take (i + 3))).lines = 4 := by
    rw [List.take_of_length_le (by simp [texts])]
    decide +kernel
  have horigin : origin = some 1 := by
    rcases origin with _ | _ | _ | _ | i
    · cases hlines
    · cases hlines
    · rfl
    · exact absurd hlines (by decide +kernel)
    · exact absurd ((congrArg (1 + ·) (hthird i)).symm.trans hlines) (by decide)
  subst horigin
  exact ⟨hreads, hruns, by decide +kernel, hwhole, hlast, houtput, hfailure, hmachine, hlowered⟩

end Copione
