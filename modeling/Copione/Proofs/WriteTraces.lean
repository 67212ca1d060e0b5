import Copione.Proofs.Coupling
/-!
# Traces of writes

Beside the evaluator stands what it hands to the device: for each text the line of the call and the
machine at that moment. An action keeps to a trace if it writes these texts on a device that takes
everything, and if on a device that fills up it goes the same way until the first text that is
refused, where it stops. Each way to put actions together has its rule.
-/
namespace Copione

/-- A text that is handed to the device. -/
structure Moment where
  /-- The line of the call that writes it. -/
  line : Nat
  text : String
  /-- The machine on which the call is made. -/
  machine : Machine

/-- What is handed to the device by an action that starts on a given machine. -/
abbrev Trace := Machine → List Moment

namespace Output

def takeAll (o : Output) (texts : List String) : Output := texts.foldl take o

@[simp] theorem takeAll_nil (o : Output) : o.takeAll [] = o := rfl

@[simp] theorem takeAll_cons (o : Output) (text : String) (texts : List String) :
    o.takeAll (text :: texts) = (o.take text).takeAll texts := rfl

private theorem takeAll_append (o : Output) (texts more : List String) :
    o.takeAll (texts ++ more) = (o.takeAll texts).takeAll more := List.foldl_append

@[simp] theorem takeAll_limit (o : Output) (texts : List String) : (o.takeAll texts).limit = o.limit := by
  induction texts generalizing o with
  | nil => rfl
  | cons text texts ih => rw [takeAll_cons, ih, take]

end Output

namespace Machine

/-- The machine with another device, which holds the same but may fill up elsewhere. -/
def withLimit (limit : Option Nat) (m : Machine) : Machine :=
  { m with output := { m.output with limit } }

theorem hasRoom_withLimit (m : Machine) (n : Nat) (text : String) :
    (m.withLimit (some n)).output.hasRoom text = decide (m.output.size + text.utf8ByteSize ≤ n) := rfl

end Machine

namespace Moment

def refused (n : Nat) (p : Moment) : Bool := !(p.machine.withLimit (some n)).output.hasRoom p.text

def failure (p : Moment) : Signal := (Signal.error (.ofFault (.outputFailed "device full"))).atLine p.line

end Moment

namespace Trace

variable {α : Type}

def quiet : Trace := fun _ => []

def andThen (first : Trace) (x : Eval α) (next : α → Trace) : Trace := fun m =>
  first m ++
    match x m with
    | .ok a m => next a m
    | .error _ _ => []

private theorem andThen_of_ok {first : Trace} {x : Eval α} {next : α → Trace} {m m' : Machine} {a : α}
    (h : x m = .ok a m') : first.andThen x next m = first m ++ next a m' := by
  rw [andThen, h]

private theorem andThen_of_error {first : Trace} {x : Eval α} {next : α → Trace} {m m' : Machine}
    {e : Signal}
    (h : x m = .error e m') : first.andThen x next m = first m := by
  rw [andThen, h, List.append_nil]

private theorem andThen_quiet (first : Trace) (x : Eval α) :
    (first.andThen x fun _ => quiet) = first := by
  funext m
  cases h : x m with
  | ok a m' => rw [andThen_of_ok h, quiet, List.append_nil]
  | error e m' => rw [andThen_of_error h]

def within (scope : ScopeId) (t : Trace) : Trace := fun m => t { m with current := scope }

end Trace

namespace Eval

def builtinTrace (line : Nat) (b : Builtin) (args : List Value) : Trace := fun m =>
  match b with
  | .scrive => [⟨line, (args.headD .null).display, m⟩]
  | .scriveLina => [⟨line, (args.headD .null).display ++ "\n", m⟩]
  | _ => []

section

variable (eval : Expr → Eval Value) (exec : Stmt → Eval Unit) (evalTrace : Expr → Trace)
  (execTrace : Stmt → Trace)

def evalAllTrace : List Expr → Trace
  | [] => .quiet
  | e :: rest => (evalTrace e).andThen (eval e) fun _ => evalAllTrace rest

def runAllTrace : List Stmt → Trace
  | [] => .quiet
  | stmt :: rest => (execTrace stmt).andThen (exec stmt) fun _ => runAllTrace rest

def closureTrace (c : Closure) (args : List Value) : Trace :=
  Trace.quiet.andThen (newScope c.scope) fun scope =>
    Trace.quiet.andThen (bindParams scope c.params args) fun _ =>
      (runAllTrace exec execTrace c.body).within scope

def applyTrace (line : Nat) (callee : Value) (args : List Value) : Trace :=
  match callee with
  | .function f =>
    if args.length != f.arity then .quiet
    else
      match f with
      | .builtin b => builtinTrace line b args
      | .closure c => closureTrace exec execTrace c args
  | _ => .quiet

def loopTurnTrace (condition : Expr) (body : Stmt) : Trace :=
  (evalTrace condition).andThen (eval condition) fun value =>
    if value.type == .null then .quiet else if value.isTruthy then execTrace body else .quiet

def evalOptionTrace : Option Expr → Trace
  | none => .quiet
  | some e => evalTrace e

end

def repeatWhileTrace (turn : Eval Bool) (trace : Trace) : Nat → Trace
  | 0 => .quiet
  | fuel + 1 =>
    trace.andThen turn fun again => if again then repeatWhileTrace turn trace fuel else .quiet

mutual

def evalTrace : Nat → Expr → Trace
  | 0, _ => .quiet
  | fuel + 1, e =>
    match e with
    | .literal .. | .name .. | .questo _ | .super .. => .quiet
    | .group inner _ => evalTrace fuel inner
    | .unary _ operand _ => evalTrace fuel operand
    | .binary _ left right _ => (evalTrace fuel left).andThen (eval fuel left) fun _ => evalTrace fuel right
    | .logical op left right s =>
      (evalTrace fuel left).andThen (eval fuel left) fun v =>
        Trace.quiet.andThen (expectBool op s.line v) fun a =>
          if (shortcut op a).isSome then .quiet else evalTrace fuel right
    | .assign _ value _ => evalTrace fuel value
    | .call callee arguments s =>
      (evalTrace fuel callee).andThen (eval fuel callee) fun f =>
        (evalAllTrace (eval fuel) (evalTrace fuel) arguments).andThen (evalAll (eval fuel) arguments) fun args =>
          applyTrace (exec fuel) (execTrace fuel) s.line f args
    | .get object _ _ | .set object _ _ _ => evalTrace fuel object

def execTrace : Nat → Stmt → Trace
  | 0, _ => .quiet
  | fuel + 1, stmt =>
    match stmt with
    | .expr value _ => evalTrace fuel value
    | .var _ initial _ => evalOptionTrace (evalTrace fuel) initial
    | .block body _ => fun m =>
      Trace.quiet.andThen (newScope m.current)
        (fun scope => (runAllTrace (exec fuel) (execTrace fuel) body).within scope) m
    | .cond condition thenBranch elseBranch _ =>
      (evalTrace fuel condition).andThen (eval fuel condition) fun v =>
        if v.isTruthy then execTrace fuel thenBranch
        else
          match elseBranch with
          | some branch => execTrace fuel branch
          | none => .quiet
    | .loop condition body _ =>
      repeatWhileTrace (loopTurn (eval fuel) (exec fuel) condition body)
        (loopTurnTrace (eval fuel) (evalTrace fuel) (execTrace fuel) condition body) fuel
    | .function .. => .quiet
    | .ret value _ => evalOptionTrace (evalTrace fuel) value

end

def interpretTrace (fuel : Nat) (stmts : List Stmt) : Trace := runAllTrace (exec fuel) (execTrace fuel) stmts

end Eval

/-- From a device that holds `o` on, each text is written when the device holds those before it. -/
def Moment.InOrder : Output → List Moment → Prop
  | _, [] => True
  | o, p :: rest => p.machine.output = o ∧ InOrder (o.take p.text) rest

private theorem Moment.InOrder.append {o : Output} {before more : List Moment} (h : InOrder o before)
    (h' : InOrder (o.takeAll (before.map text)) more) : InOrder o (before ++ more) := by
  induction before generalizing o with
  | nil => exact h'
  | cons p before ih => exact ⟨h.1, ih h.2 h'⟩

/-- The outcome and the machine of a run on a device for `n` bytes, beside those on one that takes
everything. They are the same if no text is refused, else the run stops at the first one that is. -/
inductive Truncated {α : Type} (n : Nat) (scope : ScopeId) (moments : List Moment)
    (outcome : Except Signal α) (m : Machine) : Except Signal α → Machine → Prop
  | finished (h : moments.find? (·.refused n) = none) :
    Truncated n scope moments outcome m outcome (m.withLimit (some n))
  | stopped {p : Moment} (h : moments.find? (·.refused n) = some p) :
    Truncated n scope moments outcome m (.error p.failure)
      { p.machine.withLimit (some n) with current := scope }

namespace Truncated

variable {α β : Type} {n : Nat} {scope : ScopeId} {before moments : List Moment} {outcome o : Except Signal α}
  {m m' : Machine}

private theorem prepend (hbefore : before.find? (·.refused n) = none)
    (h : Truncated n scope moments outcome m o m') :
    Truncated n scope (before ++ moments) outcome m o m' := by
  have hfind : (before ++ moments).find? (·.refused n) = moments.find? (·.refused n) := by
    rw [List.find?_append, hbefore, Option.none_or]
  cases h with
  | finished h => exact .finished (hfind.trans h)
  | stopped h => exact .stopped (hfind.trans h)

private theorem map {ψ : Except Signal α → Except Signal β}
    (hψ : ∀ p : Moment, ψ (.error p.failure) = .error p.failure)
    (h : Truncated n scope moments outcome m o m') :
    Truncated n scope moments (ψ outcome) m (ψ o) m' := by
  cases h with
  | finished h => exact .finished h
  | stopped h =>
    rw [hψ]
    exact .stopped h

end Truncated

/-- What is known of a run from `m` that hands over the given texts. -/
structure Recorded {α : Type} (x : Eval α) (m : Machine) (moments : List Moment) : Prop where
  current : (m.after x).current = m.current
  output : (m.after x).output = m.output.takeAll (moments.map Moment.text)
  inOrder : Moment.InOrder m.output moments
  truncated (n : Nat) : Truncated n m.current moments (m.outcome x) (m.after x)
    ((m.withLimit (some n)).outcome x) ((m.withLimit (some n)).after x)

/-- The action writes the texts of its trace, and is truncated where one of them is refused. -/
def Traced {α : Type} (x : Eval α) (t : Trace) : Prop :=
  ∀ m, m.output.limit = none → Recorded x m (t m)

namespace Machine

variable {α β : Type} {m m' : Machine} {x : Eval α} {f : α → Eval β} {a : α} {e : Signal}

private theorem run_of_outcome_ok (h : m.outcome x = .ok a) : x m = .ok a (m.after x) := by
  unfold outcome at h
  unfold after
  cases hrun : x m with
  | ok b t => rw [hrun] at h; rw [Except.ok.inj h]
  | error e t => rw [hrun] at h; cases h

private theorem run_of_outcome_error (h : m.outcome x = .error e) : x m = .error e (m.after x) := by
  unfold outcome at h
  unfold after
  cases hrun : x m with
  | ok b t => rw [hrun] at h; cases h
  | error e t => rw [hrun] at h; rw [Except.error.inj h]

private theorem bind_of_outcome_ok (h : m.outcome x = .ok a) :
    m.outcome (x >>= f) = (m.after x).outcome (f a) ∧ m.after (x >>= f) = (m.after x).after (f a) := by
  have hrun := Run.bind_of_ok (f := f) (run_of_outcome_ok h)
  exact ⟨congrArg (fun r => match r with | .ok b _ => Except.ok b | .error e _ => .error e) hrun,
    congrArg (fun r => match r with | .ok _ t | .error _ t => t) hrun⟩

private theorem bind_of_outcome_error (h : m.outcome x = .error e) :
    m.outcome (x >>= f) = .error e ∧ m.after (x >>= f) = m.after x := by
  have hrun := Run.bind_of_error (f := f) (run_of_outcome_error h)
  exact ⟨by rw [outcome, hrun], by rw [after, hrun]⟩

end Machine

namespace Traced

open Machine (outcome after withLimit)

variable {α β : Type} {x : Eval α} {t : Trace}

theorem modifyGet {f : Machine → α × Machine}
    (h : ∀ m, (f m).2.current = m.current ∧ (f m).2.output = m.output ∧
      ∀ n, f (m.withLimit (some n)) = ((f m).1, (f m).2.withLimit (some n))) :
    Traced (modifyGet f) .quiet := by
  intro m _
  obtain ⟨hcurrent, houtput, hlimit⟩ := h m
  refine ⟨hcurrent, houtput, trivial, fun n => ?_⟩
  change Truncated n _ _ (.ok (f m).1) (f m).2 (.ok (f (m.withLimit (some n))).1)
    (f (m.withLimit (some n))).2
  rw [hlimit n]
  exact .finished rfl

theorem pure (a : α) : Traced (pure a) .quiet :=
  fun _ _ => ⟨rfl, rfl, trivial, fun _ => .finished rfl⟩

theorem throw (e : Signal) : Traced (throw e : Eval α) .quiet :=
  fun _ _ => ⟨rfl, rfl, trivial, fun _ => .finished rfl⟩

theorem liftFault (r : Except Fault α) : Traced (Eval.liftFault r) .quiet := by
  cases r with
  | ok a => exact pure a
  | error fault => exact throw _

theorem bind {f : α → Eval β} {u : α → Trace} (hx : Traced x t) (hf : ∀ a, Traced (f a) (u a)) :
    Traced (x >>= f) (t.andThen x u) := by
  intro m hm
  have h := hx m hm
  cases hrun : m.outcome x with
  | ok a =>
    have h' := hf a (m.after x) (by rw [h.output, Output.takeAll_limit, hm])
    obtain ⟨houtcome, hafter⟩ := Machine.bind_of_outcome_ok (f := f) hrun
    rw [Trace.andThen_of_ok (Machine.run_of_outcome_ok hrun)]
    refine ⟨?_, ?_, h.inOrder.append (h.output ▸ h'.inOrder), fun n => ?_⟩
    · rw [hafter, h'.current, h.current]
    · rw [hafter, h'.output, h.output, List.map_append, Output.takeAll_append]
    · rw [houtcome, hafter]
      have htruncated := h.truncated n
      rw [hrun] at htruncated
      generalize hlimited : (m.withLimit (some n)).outcome x = o,
        hmachine : (m.withLimit (some n)).after x = m' at htruncated
      cases htruncated with
      | finished hfind =>
        obtain ⟨hlimited, hlimited'⟩ := Machine.bind_of_outcome_ok (f := f) hlimited
        rw [hlimited, hlimited', hmachine, ← h.current]
        exact (h'.truncated n).prepend hfind
      | stopped hfind =>
        obtain ⟨hlimited, hlimited'⟩ := Machine.bind_of_outcome_error (f := f) hlimited
        rw [hlimited, hlimited', hmachine]
        exact .stopped (by rw [List.find?_append, hfind, Option.some_or])
  | error e =>
    obtain ⟨houtcome, hafter⟩ := Machine.bind_of_outcome_error (f := f) hrun
    rw [Trace.andThen_of_error (Machine.run_of_outcome_error hrun)]
    refine ⟨by rw [hafter, h.current], by rw [hafter, h.output], h.inOrder, fun n => ?_⟩
    rw [houtcome, hafter]
    have htruncated := h.truncated n
    rw [hrun] at htruncated
    generalize hlimited : (m.withLimit (some n)).outcome x = o,
      hmachine : (m.withLimit (some n)).after x = m' at htruncated
    cases htruncated with
    | finished hfind =>
      obtain ⟨hlimited, hlimited'⟩ := Machine.bind_of_outcome_error (f := f) hlimited
      rw [hlimited, hlimited', hmachine]
      exact .finished hfind
    | stopped hfind =>
      obtain ⟨hlimited, hlimited'⟩ := Machine.bind_of_outcome_error (f := f) hlimited
      rw [hlimited, hlimited', hmachine]
      exact .stopped hfind

/-- The trace of an action that writes, and then does something else. -/
theorem bind_quiet {f : α → Eval β} (hx : Traced x t) (hf : ∀ a, Traced (f a) .quiet) :
    Traced (x >>= f) t := by
  rw [← t.andThen_quiet x]
  exact hx.bind hf

theorem map (hx : Traced x t) (g : α → β) : Traced (g <$> x) t := by
  rw [map_eq_pure_bind]
  exact hx.bind_quiet fun a => pure (g a)

theorem get_bind {g : Machine → β} {f : β → Eval α} {u : β → Trace}
    (hg : ∀ m n, g (m.withLimit (some n)) = g m) (hf : ∀ b, Traced (f b) (u b)) :
    Traced (get >>= fun m => f (g m)) fun m => u (g m) m := by
  intro m hm
  have h := hf (g m) m hm
  refine ⟨h.current, h.output, h.inOrder, fun n => ?_⟩
  have hsame (m' : Machine) (hm' : g m' = g m) : m'.outcome (get >>= fun m => f (g m)) = m'.outcome (f (g m)) ∧
      m'.after (get >>= fun m => f (g m)) = m'.after (f (g m)) := by
    rw [← hm']
    exact ⟨rfl, rfl⟩
  obtain ⟨houtcome, hafter⟩ := hsame _ (hg m n)
  rw [houtcome, hafter]
  exact h.truncated n

private theorem post {y : Eval β} {ψ : Except Signal α → Except Signal β} (hx : Traced x t)
    (hψ : ∀ p : Moment, ψ (.error p.failure) = .error p.failure)
    (houtcome : ∀ m : Machine, m.outcome y = ψ (m.outcome x))
    (hafter : ∀ m : Machine, m.after y = m.after x) :
    Traced y t := by
  intro m hm
  have h := hx m hm
  refine ⟨by rw [hafter, h.current], by rw [hafter, h.output], h.inOrder, fun n => ?_⟩
  rw [houtcome, houtcome, hafter, hafter]
  exact (h.truncated n).map hψ

theorem locate (line : Nat) (hx : Traced x t) : Traced (Eval.locate line x) t := by
  refine post (ψ := fun o => o.mapError (·.atLine line)) hx (fun _ => rfl) (fun m => ?_) fun m => ?_
  · simp only [Eval.locate, Machine.outcome]
    cases x m <;> rfl
  · simp only [Eval.locate, Machine.after]
    cases x m <;> rfl

private def Signal.caught : Signal → Except Signal Value
  | .returned value => .ok value
  | e => .error e

theorem catchReturn {x : Eval Unit} (hx : Traced x t) : Traced (Eval.catchReturn x) t := by
  refine post (ψ := fun o => (o.map fun _ => Value.null).tryCatch Signal.caught) hx (fun _ => rfl)
    (fun m => ?_) fun m => ?_
  · simp only [Eval.catchReturn, Machine.outcome]
    cases x m with
    | ok a m => rfl
    | error e m => cases e <;> rfl
  · simp only [Eval.catchReturn, Machine.after]
    cases x m with
    | ok a m => rfl
    | error e m => cases e <;> rfl

theorem within (scope : ScopeId) (hx : Traced x t) : Traced (Eval.within scope x) (t.within scope) := by
  have houtcome (m : Machine) : m.outcome (Eval.within scope x) = outcome { m with current := scope } x := by
    simp only [Eval.within, Machine.outcome]
    cases x { m with current := scope } <;> rfl
  have hafter (m : Machine) : m.after (Eval.within scope x) =
      { after { m with current := scope } x with current := m.current } := by
    simp only [Eval.within, Machine.after]
    cases x { m with current := scope } <;> rfl
  intro m hm
  have h := hx { m with current := scope } hm
  refine ⟨by rw [hafter], by rw [hafter]; exact h.output, h.inOrder, fun n => ?_⟩
  rw [houtcome, houtcome, hafter, hafter]
  have htruncated := h.truncated n
  have hscope : { m.withLimit (some n) with current := scope } =
      withLimit (some n) { m with current := scope } := rfl
  rw [hscope]
  generalize outcome (withLimit (some n) { m with current := scope }) x = o,
    after (withLimit (some n) { m with current := scope }) x = m' at htruncated
  cases htruncated with
  | finished hfind => exact .finished hfind
  | stopped hfind => exact .stopped hfind

end Traced
end Copione
