import Copione.Session
import Copione.Proofs.AlignedScopes
import Copione.Proofs.MovedPrograms
import Copione.Proofs.ScopeInvariants
/-!
# Programs fed one after another

What a session reports of its texts, and what is left of it. The reports together say what the
device took, since a program never takes back what was written before it. Programs that are alike
leave machines alike, so that whatever is fed next finds them alike again.
-/
namespace Copione

def Program.Reads (text : String) (program : List Stmt) : Prop :=
  ∃ tokens, Token.scan text = .ok tokens ∧ parse tokens = .ok program

/-- Feeds texts one after another: what is reported of each, and the machine at the end. -/
def Machine.session : Machine → List String → List Report × Machine
  | m, [] => ([], m)
  | m, text :: texts =>
    let (report, m) := m.feed (Token.scan text)
    let (reports, m) := m.session texts
    (report :: reports, m)

/-- What a device took after it was as `before`. -/
def Output.since (o before : Output) : String :=
  String.join (o.writes.take (o.writes.length - before.writes.length)).reverse

def Failure.error? : Failure → Option RuntimeError
  | .run signal => signal.error?
  | _ => none

/-- Machines that hold the same, up to what `P` pairs. -/
structure Machine.Alike (P : Pairing) (m n : Machine) : Prop where
  current : n.current = m.current
  next : n.scopes.next = m.scopes.next
  scopes : ∀ id : ScopeId, Option.Rel (Scope.Alike P) m.scopes.table[id]? n.scopes.table[id]?
  functions : n.functions = m.functions
  output : n.output = m.output
  clock : n.clock = m.clock
  readings : n.readings = m.readings

/-- Failures of running programs of which the same is said, on lines of corresponding spans. -/
inductive Failure.Alike (P : Pairing) : Failure → Failure → Prop
  | run {e e' : Signal} (h : e.Alike P false false e') : Failure.Alike P (.run e) (.run e')

namespace Machine

variable {m n : Machine} {stmts : List Stmt} {text : String}

theorem run_ok (h : Eval.interpret Eval.lifetime stmts m = .ok () n) :
    m.run stmts = (⟨n.output.since m.output, none⟩, n) := by
  simp only [run, observe, h]
  rfl

theorem run_error {e : Signal} (h : Eval.interpret Eval.lifetime stmts m = .error e n) :
    m.run stmts = (⟨n.output.since m.output, some (.run e)⟩, n) := by
  simp only [run, observe, h]
  rfl

theorem run_machine (m : Machine) (stmts : List Stmt) :
    (m.run stmts).2 = m.after (Eval.interpret Eval.lifetime stmts) := by
  unfold after
  cases h : Eval.interpret Eval.lifetime stmts m with
  | ok _ _ => rw [run_ok h]
  | error _ _ => rw [run_error h]

theorem run_output (m : Machine) (stmts : List Stmt) :
    (m.run stmts).1.output = (m.run stmts).2.output.since m.output := by
  cases h : Eval.interpret Eval.lifetime stmts m with
  | ok _ _ => rw [run_ok h]
  | error _ _ => rw [run_error h]

theorem interpret_of_run (h : (m.run stmts).1.failure = none) :
    Eval.interpret Eval.lifetime stmts m = .ok () (m.run stmts).2 := by
  cases hrun : Eval.interpret Eval.lifetime stmts m with
  | ok _ _ => rw [run_ok hrun]
  | error _ _ =>
    rw [run_error hrun] at h
    cases h

theorem feed_of_reads (h : Program.Reads text stmts) (m : Machine) :
    m.feed (Token.scan text) = m.run stmts := by
  obtain ⟨tokens, hscan, hparse⟩ := h
  simp only [feed, hscan, hparse]

/-- A text that is no program changes nothing. -/
theorem feed_cases (m : Machine) (text : String) :
    (∃ stmts, Program.Reads text stmts ∧ m.feed (Token.scan text) = m.run stmts) ∨
      ∃ failure, (∀ signal, failure ≠ .run signal) ∧
        m.feed (Token.scan text) = (⟨"", some failure⟩, m) := by
  cases hscan : Token.scan text with
  | error f => exact .inr ⟨.scan f.error, by simp, rfl⟩
  | ok tokens =>
    cases hparse : Program.parse tokens with
    | error errors => exact .inr ⟨.parse errors, by simp, by simp only [feed, hparse]⟩
    | ok stmts => exact .inl ⟨stmts, ⟨tokens, hscan, hparse⟩, by simp only [feed, hparse]⟩

theorem session_append (m : Machine) (texts later : List String) :
    m.session (texts ++ later) =
      ((m.session texts).1 ++ ((m.session texts).2.session later).1,
        ((m.session texts).2.session later).2) := by
  induction texts generalizing m with
  | nil => rfl
  | cons text texts ih => simp only [List.cons_append, session, ih]

theorem length_session (m : Machine) (texts : List String) :
    (m.session texts).1.length = texts.length := by
  induction texts generalizing m with
  | nil => rfl
  | cons text texts ih => simp only [session, List.length_cons, ih]

end Machine

namespace Output

variable {o p q : Output}

private theorem since_self (o : Output) : o.since o = "" := by simp [since]

theorem since_of_append {new : List String} (h : new ++ o.writes = p.writes) :
    p.since o = String.join new.reverse := by
  simp [since, ← h]

theorem since_trans (h : o.writes <:+ p.writes) (h' : p.writes <:+ q.writes) :
    q.since o = p.since o ++ q.since p := by
  obtain ⟨first, hfirst⟩ := h
  obtain ⟨second, hsecond⟩ := h'
  have hboth : (second ++ first) ++ o.writes = q.writes := by
    rw [List.append_assoc, hfirst, hsecond]
  rw [since_of_append hfirst, since_of_append hsecond, since_of_append hboth, List.reverse_append,
    String.join_append]

end Output

namespace Coupling

/-- A run beside itself, of which the device holds on to what it took before. -/
def writing (before : Output) : Coupling :=
  { self (fun _ => True) fun _ => True with output := fun o p => o = p ∧ before.writes <:+ o.writes }

theorem writing_lawful (before : Output) : (writing before).Lawful :=
  have htrivial : Scopes.Invariant (fun _ => True) fun _ => True := ⟨by simp, by simp, by simp⟩
  { self_lawful htrivial with
    output_take := by
      rintro o _ ⟨rfl, h⟩ text
      exact ⟨rfl, rfl, h.trans (List.suffix_cons text o.writes)⟩ }

end Coupling

open Coupling

namespace Machine

/-- A program takes back nothing that was written before. -/
theorem writes_run (m : Machine) (stmts : List Stmt) :
    m.output.writes <:+ (m.run stmts).2.output.writes := by
  have hstmts : Stmt.AllAlike (writing m.output).span (writing m.output).name true stmts stmts :=
    Stmt.all_alike_self (fun _ => rfl) (fun _ => trivial) stmts
  have hjoined : (writing m.output).Joined m.current m.current m m :=
    ⟨rfl, rfl, ⟨rfl, trivial⟩, rfl, ⟨rfl, List.suffix_refl _⟩, rfl, rfl⟩
  have hexec := ((writing_lawful m.output).eval_exec Eval.lifetime).2
  rw [run_machine]
  exact ((hexec.runAll ⟨rfl, trivial⟩ hstmts).after hjoined).output.2

private theorem writes_feed (m : Machine) (text : String) :
    m.output.writes <:+ (m.feed (Token.scan text)).2.output.writes ∧
      (m.feed (Token.scan text)).1.output = (m.feed (Token.scan text)).2.output.since m.output := by
  obtain ⟨stmts, -, hfeed⟩ | ⟨failure, -, hfeed⟩ := m.feed_cases text
  · rw [hfeed]
    exact ⟨m.writes_run stmts, m.run_output stmts⟩
  · rw [hfeed]
    exact ⟨List.suffix_refl _, (Output.since_self _).symm⟩

/-- The reports of a session say together what the device took in the meantime. -/
theorem writes_session (m : Machine) (texts : List String) :
    m.output.writes <:+ (m.session texts).2.output.writes ∧
      String.join ((m.session texts).1.map Report.output) =
        (m.session texts).2.output.since m.output := by
  induction texts generalizing m with
  | nil => exact ⟨List.suffix_refl _, (Output.since_self _).symm⟩
  | cons text texts ih =>
    obtain ⟨hfirst, hreport⟩ := m.writes_feed text
    obtain ⟨hrest, hreports⟩ := ih (m.feed (Token.scan text)).2
    simp only [session, List.map_cons, String.join_cons, hreport, hreports]
    exact ⟨hfirst.trans hrest, (Output.since_trans hfirst hrest).symm⟩

end Machine

namespace Coupling

variable (span : Span → Span → Prop) (name : String → Prop) {m n : Machine} {i : ScopeId}

def throughout : Coupling := aligned span name (fun _ => True) ⟨#[]⟩ ⟨#[]⟩

private theorem throughout_lawful : (throughout span name).Lawful :=
  aligned_lawful span name ⟨#[]⟩ fun _ _ => trivial

private theorem joined_throughout :
    (throughout span name).Joined i i m n ↔
      m.current = i ∧ m.Alike (throughout span name).toPairing n := by
  constructor
  · intro h
    exact ⟨h.left, h.right.trans h.left.symm, h.scopes.next.symm, fun id => h.scopes.alike id trivial,
      h.functions.symm, h.output.symm, h.clock.symm, h.readings.symm⟩
  · rintro ⟨rfl, h⟩
    exact ⟨rfl, h.current, ⟨h.next.symm, Nat.zero_le _, fun id _ => h.scopes id,
      fun _ hid => absurd trivial hid, fun _ hid => absurd trivial hid⟩, h.functions.symm,
      h.output.symm, h.clock.symm, h.readings.symm⟩

end Coupling

namespace Machine

variable {m n : Machine} {stmts stmts' : List Stmt}

/-- Programs that are alike end alike on machines that are alike. -/
theorem Alike.run {span : Span → Span → Prop} {name : String → Prop}
    (h : m.Alike (throughout span name).toPairing n)
    (hstmts : Stmt.AllAlike span name false stmts stmts') :
    Option.Rel (Failure.Alike (throughout span name).toPairing) (m.run stmts).1.failure
        (n.run stmts').1.failure ∧
      (m.run stmts).2.Alike (throughout span name).toPairing (n.run stmts').2 := by
  have hexec := ((throughout_lawful span name).eval_exec Eval.lifetime).2
  have hends : (throughout span name).Ends m.current m.current false false (fun _ _ => True)
      (Eval.interpret Eval.lifetime stmts m) (Eval.interpret Eval.lifetime stmts' n) :=
    hexec.runAll ⟨rfl, trivial⟩ hstmts ((joined_throughout span name).2 ⟨rfl, h⟩)
  generalize hleft : Eval.interpret Eval.lifetime stmts m = r at hends
  generalize hright : Eval.interpret Eval.lifetime stmts' n = r' at hends
  cases hends with
  | ok _ hend =>
    rw [run_ok hleft, run_ok hright]
    exact ⟨.none, ((joined_throughout span name).1 hend).2⟩
  | error he hend =>
    rw [run_error hleft, run_error hright]
    exact ⟨.some (.run he), ((joined_throughout span name).1 hend).2⟩

end Machine

private theorem Stmt.SpelledAll.map_shift_zero {ts : List Token} {ss : List Stmt}
    (h : Stmt.SpelledAll ts ss) : ss.map (Stmt.shift .zero) = ss := by
  have htokens : ts.map (Token.shift .zero) = ts := List.map_id' ts
  have hmoved := h.shift (d := .zero)
  rw [htokens] at hmoved
  rw [← Stmt.shiftAll_eq]
  exact h.unique hmoved rfl (Stmt.eraseAll_shiftAll ss)

namespace Program

variable {text : String} {program : List Stmt}

theorem Reads.spelled (h : Reads text program) :
    ∃ ts e, Token.scan text = .ok (ts ++ [e]) ∧ e.kind = .eof ∧ (∀ t ∈ ts, t.kind ≠ .eof) ∧
      parse (ts ++ [e]) = .ok program ∧ Stmt.SpelledAll ts program ∧
      ∀ s ∈ program, s.WellFormed false := by
  obtain ⟨tokens, hscan, hparse⟩ := h
  obtain ⟨ts, e, rfl, he, hts⟩ := Token.eof_of_scan hscan
  exact ⟨ts, e, hscan, he, hts, hparse, parse_spelled hts he hparse⟩

/-- A program that is moved to two places is alike in both, if its tokens correspond and its names may
be declared. -/
theorem Reads.alike {R : Span → Span → Prop} {ok : String → Prop} {d d' : Shift}
    (h : Reads text program)
    (hR : ∀ tokens, Token.scan text = .ok tokens → Span.Carries R d d' tokens)
    (hok : ∀ tokens, Token.scan text = .ok tokens → ∀ t ∈ tokens, ∀ n, t.word = .name n → ok n) :
    Stmt.AllAlike R ok false (program.map (Stmt.shift d)) (program.map (Stmt.shift d')) := by
  obtain ⟨ts, e, hscan, -, -, -, hspelled, hwell⟩ := h.spelled
  rw [← Stmt.shiftAll_eq, ← Stmt.shiftAll_eq]
  exact hspelled.alike hwell ((hR _ hscan).mono (List.subset_append_left _ _))
    fun t ht => hok _ hscan t (by simp [ht])

theorem Reads.map_shift_zero (h : Reads text program) : program.map (Stmt.shift .zero) = program := by
  obtain ⟨_, _, _, _, _, _, hspelled, _⟩ := h.spelled
  exact hspelled.map_shift_zero

end Program
end Copione
