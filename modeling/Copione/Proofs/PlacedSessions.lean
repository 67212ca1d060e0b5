import Mathlib.Algebra.Order.BigOperators.Group.List
import Mathlib.Algebra.Order.Group.Nat
import Copione.Proofs.Sessions
/-!
# Sessions whose texts stand elsewhere

Each text of a session can be moved by itself, and the session does the same as before. An error that
ends it moves with one of the texts, the one that the failing statement was read from, and with no
other; or with none, if that statement was there before the session.
-/
namespace Copione

def Value.spans : Value → List Span
  | .function (.closure c) => Stmt.spansAll c.body
  | _ => []

/-- The spans in all functions that are bound. -/
def Machine.spans (m : Machine) : List Span :=
  m.scopes.table.toList.flatMap fun scope => scope.bindings.flatMap fun binding => binding.2.spans

/-- The same span in two sessions from `m` that put the texts in different places: that of a function
that was held before stays, and one that begins in a text goes where that text goes. -/
inductive Span.Placed (m : Machine) (texts : List String) (place place' : Nat → Shift) :
    Span → Span → Prop
  | held {s : Span} (h : s ∈ m.spans) : Span.Placed m texts place place' s s
  | token {i : Nat} {text : String} {tokens : List Token} {s : Span} (htext : texts[i]? = some text)
    (hscan : Token.scan text = .ok tokens) (h : s.BeginsIn tokens) :
    Span.Placed m texts place place' (s.shift (place i)) (s.shift (place' i))

def Pairing.placed (m : Machine) (texts : List String) (place place' : Nat → Shift) : Pairing :=
  .aligned (Span.Placed m texts place place') (fun _ => True) fun _ => True

def Program.placed (place : Nat → Shift) (programs : List (List Stmt)) : List (List Stmt) :=
  programs.mapIdx fun i program => program.map (Stmt.shift (place i))

/-- Runs programs one after another, as a session does. -/
def Machine.runEach : Machine → List (List Stmt) → List Report × Machine
  | m, [] => ([], m)
  | m, program :: programs =>
    let (report, m) := m.run program
    let (reports, m) := m.runEach programs
    (report :: reports, m)

def Report.lastError? (reports : List Report) : Option RuntimeError :=
  (reports.getLast?.bind Report.failure).bind Failure.error?

/-- Errors of which the same is said, on lines of corresponding spans. -/
def RuntimeError.Alike (P : Pairing) (e e' : RuntimeError) : Prop :=
  ∃ s s', P.span s s' ∧ e.line = some s.line ∧ e' = { e with line := some s'.line }

def RuntimeError.lower (k : Nat) (e : RuntimeError) : RuntimeError :=
  { e with line := e.line.map (· + k) }

variable {m n : Machine} {texts : List String} {programs programs' : List (List Stmt)}
  {place place' : Nat → Shift}

namespace Program

theorem length_placed (place : Nat → Shift) (programs : List (List Stmt)) :
    (placed place programs).length = programs.length := List.length_mapIdx

theorem placed_zero (hreads : List.Forall₂ Reads texts programs) :
    placed (fun _ => .zero) programs = programs := by
  refine List.ext_getElem (length_placed _ _) fun i _ hi => ?_
  simp only [placed, List.getElem_mapIdx]
  exact (hreads.get (hreads.length_eq ▸ hi) hi).map_shift_zero

private theorem placed_alike (hreads : List.Forall₂ Reads texts programs) (m : Machine)
    (place place' : Nat → Shift) :
    List.Forall₂ (Stmt.AllAlike (Span.Placed m texts place place') (fun _ => True) false)
      (placed place programs) (placed place' programs) := by
  rw [List.forall₂_iff_get]
  refine ⟨by rw [length_placed, length_placed], fun i h h' => ?_⟩
  rw [length_placed] at h
  have hi : i < texts.length := hreads.length_eq ▸ h
  simp only [placed, List.get_eq_getElem, List.getElem_mapIdx]
  refine (hreads.get hi h).alike (fun tokens hscan s hs => ?_) fun _ _ _ _ _ _ => trivial
  exact .token (List.getElem?_eq_getElem hi) hscan hs

end Program

namespace Machine

theorem session_of_reads (m : Machine) (hreads : List.Forall₂ Program.Reads texts programs) :
    m.session texts = m.runEach programs := by
  induction hreads generalizing m with
  | nil => rfl
  | cons htext _ ih => simp only [session, runEach, feed_of_reads htext, ih]

private theorem Alike.runEach {span : Span → Span → Prop} {name : String → Prop}
    (h : m.Alike (Coupling.throughout span name).toPairing n)
    (hprograms : List.Forall₂ (Stmt.AllAlike span name false) programs programs') :
    List.Forall₂ (fun r r' => Option.Rel (Failure.Alike (Coupling.throughout span name).toPairing)
        r.failure r'.failure) (m.runEach programs).1 (n.runEach programs').1 ∧
      (m.runEach programs).2.Alike (Coupling.throughout span name).toPairing
        (n.runEach programs').2 := by
  induction hprograms generalizing m n with
  | nil => exact ⟨.nil, h⟩
  | cons hprogram _ ih =>
    obtain ⟨hfailure, hmachine⟩ := h.run hprogram
    obtain ⟨hfailures, hlast⟩ := ih hmachine
    exact ⟨.cons hfailure hfailures, hlast⟩

private theorem mem_spans {id : ScopeId} {scope : Scope} {name : String} {c : Closure} {s : Span}
    (hscope : m.scopes.table[id]? = some scope)
    (hc : (name, Value.function (.closure c)) ∈ scope.bindings) (hs : s ∈ Stmt.spansAll c.body) :
    s ∈ m.spans := by
  have hmem : scope ∈ m.scopes.table.toList := Array.mem_toList_iff.2 (Array.mem_of_getElem? hscope)
  exact List.mem_flatMap.2 ⟨scope, hmem, List.mem_flatMap.2 ⟨_, hc, hs⟩⟩

private theorem alike_placed (m : Machine) (texts : List String) (place place' : Nat → Shift) :
    m.Alike (.placed m texts place place') m := by
  refine ⟨rfl, rfl, fun id => ?_, rfl, rfl, rfl, rfl⟩
  cases hscope : m.scopes.table[id]? with
  | none => exact .none
  | some scope =>
    refine .some (.refl (fun name c hc => ?_) fun _ _ => ⟨rfl, trivial⟩)
    exact .refl (fun s hs => .held (mem_spans hscope hc hs)) (fun _ => trivial) ⟨rfl, trivial⟩

theorem runEach_placed_alike (m : Machine) (hreads : List.Forall₂ Program.Reads texts programs)
    (place place' : Nat → Shift) :
    List.Forall₂ (fun r r' => Option.Rel (Failure.Alike (.placed m texts place place'))
        r.failure r'.failure) (m.runEach (Program.placed place programs)).1
        (m.runEach (Program.placed place' programs)).1 ∧
      (m.runEach (Program.placed place programs)).2.Alike (.placed m texts place place')
        (m.runEach (Program.placed place' programs)).2 :=
  (m.alike_placed texts place place').runEach (Program.placed_alike hreads m place place')

end Machine

private theorem Failure.Alike.error? {P : Pairing} {f f' : Failure} (h : f.Alike P f') :
    Option.Rel (RuntimeError.Alike P) f.error? f'.error? := by
  cases h with
  | run h =>
    cases h with
    | error _ hline =>
      cases hline with
      | none h => cases h
      | some hs => exact .some ⟨_, _, hs, rfl, rfl⟩
    | returned h _ => cases h
    | exhausted => exact .none

namespace Report

variable {P : Pairing} {reports reports' : List Report}

theorem none_of_alike
    (h : List.Forall₂ (fun r r' => Option.Rel (Failure.Alike P) r.failure r'.failure) reports reports')
    (hnone : ∀ r ∈ reports, r.failure = none) : ∀ r ∈ reports', r.failure = none := by
  induction h with
  | nil => simp
  | @cons r r' _ _ hr _ ih =>
    rw [hnone r (by simp)] at hr
    have hfirst : r'.failure = none := by
      generalize r'.failure = failure at hr
      cases hr with
      | none => rfl
    rw [List.forall_mem_cons]
    exact ⟨hfirst, ih fun r hr => hnone r (by simp [hr])⟩

theorem last_alike
    (h : List.Forall₂ (fun r r' => Option.Rel (Failure.Alike P) r.failure r'.failure) reports reports') :
    Option.Rel (Failure.Alike P) (reports.getLast?.bind Report.failure)
      (reports'.getLast?.bind Report.failure) := by
  induction h with
  | nil => exact .none
  | cons hr hreports ih =>
    cases hreports with
    | nil => exact hr
    | cons _ _ => simpa only [List.getLast?_cons_cons] using ih

private theorem lastError?_alike
    (h : List.Forall₂ (fun r r' => Option.Rel (Failure.Alike P) r.failure r'.failure) reports reports') :
    Option.Rel (RuntimeError.Alike P) (lastError? reports) (lastError? reports') := by
  have hlast := last_alike h
  unfold lastError?
  generalize reports.getLast?.bind Report.failure = failure at hlast
  generalize reports'.getLast?.bind Report.failure = failure' at hlast
  cases hlast with
  | none => exact .none
  | some h => exact h.error?

end Report

/-- Texts that stand at least `K` lines apart. -/
private def Shift.apart (K i : Nat) : Shift := ⟨0, K * (i + 1)⟩

/-- Which text a line is of, when the texts stand apart and none has as many as `K` lines. -/
private def originOf (K line : Nat) : Option Nat := if line < K then none else some (line / K - 1)

/-- Where the texts stand apart, a line tells the text that it is of, and how far down it is there. -/
private theorem Span.Placed.line_eq {K : Nat} {s s' : Span}
    (hheld : ∀ s ∈ m.spans, s.line < K)
    (htexts : ∀ text ∈ texts, ∀ tokens, Token.scan text = .ok tokens → ∀ t ∈ tokens, t.line < K)
    (h : Span.Placed m texts (.apart K) place s s') :
    s'.line = s.line % K + (originOf K s.line).elim 0 fun i => (place i).lines := by
  cases h with
  | held h => simp [originOf, hheld s h, Nat.mod_eq_of_lt]
  | @token i text tokens u htext hscan h =>
    obtain ⟨t, ht, -, hline⟩ := h
    have hK : u.line < K := hline ▸ htexts text (List.mem_of_getElem? htext) tokens hscan t ht
    have hpos : 0 < K := by omega
    have hdiv : (u.line + K * (i + 1)) / K = i + 1 := by
      rw [Nat.add_mul_div_left _ _ hpos, Nat.div_eq_of_lt hK, Nat.zero_add]
    have hfar : ¬u.line + K * (i + 1) < K := by
      rw [Nat.mul_succ]
      omega
    simp [originOf, Span.shift, Shift.apart, hfar, hdiv, Nat.mod_eq_of_lt hK]

private theorem exists_lines_lt (m : Machine) (texts : List String) :
    ∃ K, (∀ s ∈ m.spans, s.line < K) ∧
      ∀ text ∈ texts, ∀ tokens, Token.scan text = .ok tokens → ∀ t ∈ tokens, t.line < K := by
  let lines (text : String) : List Nat :=
    (Token.scan text).toOption.elim [] (List.map Token.line)
  let all := m.spans.map Span.line ++ texts.flatMap lines
  have hlt {line : Nat} (h : line ∈ all) : line < all.sum + 1 :=
    Nat.lt_succ_of_le (List.le_sum_of_mem h)
  refine ⟨all.sum + 1, fun s hs => hlt ?_, fun text htext tokens hscan t ht => hlt ?_⟩
  · exact List.mem_append_left _ (List.mem_map_of_mem hs)
  · refine List.mem_append_right _ (List.mem_flatMap.2 ⟨text, htext, ?_⟩)
    simp only [lines, hscan, Except.toOption, Option.elim_some]
    exact List.mem_map_of_mem ht

/-- An error that ends a session moves with one of the texts and with no other, or with none. -/
theorem Machine.exists_origin (hreads : List.Forall₂ Program.Reads texts programs) {e : RuntimeError}
    (h : Report.lastError? (m.runEach programs).1 = some e) :
    ∃ origin : Option Nat, ∀ place : Nat → Shift,
      Report.lastError? (m.runEach (Program.placed place programs)).1 =
        some (e.lower (origin.elim 0 fun i => (place i).lines)) := by
  obtain ⟨K, hheld, htexts⟩ := exists_lines_lt m texts
  -- the session whose texts stand apart, beside any other one
  have hboth (place : Nat → Shift) :=
    Report.lastError?_alike (m.runEach_placed_alike hreads (.apart K) place).1
  have hzero := hboth fun _ => .zero
  rw [Program.placed_zero hreads, h] at hzero
  generalize Report.lastError? (m.runEach (Program.placed (.apart K) programs)).1 = apart at hboth hzero
  cases hzero with
  | @some far _ hfar =>
    obtain ⟨s, s', hs, hfarLine, rfl⟩ := hfar
    have hline := hs.line_eq hheld htexts
    refine ⟨originOf K s.line, fun place => ?_⟩
    have hplace := hboth place
    generalize Report.lastError? (m.runEach (Program.placed place programs)).1 = moved at hplace
    cases hplace with
    | @some _ _ hfar' =>
      obtain ⟨u, u', hu, hfarLine', rfl⟩ := hfar'
      obtain hsu : s.line = u.line := Option.some.inj (hfarLine.symm.trans hfarLine')
      have hline' := hu.line_eq hheld htexts
      rw [RuntimeError.lower, hline', hline, hsu]
      cases originOf K u.line <;> simp [Shift.zero]

end Copione
