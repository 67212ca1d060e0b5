import Copione.Proofs.WriteTraces
/-!
# Runs on a device that fills up

A device that refuses a text changes nothing about a program but where it ends. Up to that moment the
run is the one on a device that takes everything, and then nothing more is done: the error leaves every
block and every call on its way out.
-/
namespace Copione

namespace Traced

open Eval

private theorem lookup (name : String) : Traced (lookup name) .quiet :=
  get_bind (g := fun m => m.scopes.get m.current name) (fun _ _ => rfl) liftFault

private theorem bindIn (scope : ScopeId) (name : String) (value : Value) :
    Traced (bindIn scope name value) .quiet := .modifyGet fun _ => ⟨rfl, rfl, fun _ => rfl⟩

private theorem newScope (parent : ScopeId) : Traced (newScope parent) .quiet :=
  .modifyGet fun _ => ⟨rfl, rfl, fun _ => rfl⟩

private theorem readClock : Traced readClock .quiet := .modifyGet fun _ => ⟨rfl, rfl, fun _ => rfl⟩

private theorem failAt {α : Type} (line : Nat) (fault : Fault) : Traced
    (failAt line fault : Eval α) .quiet :=
  (throw _).locate line

private theorem failAt_bind {α β : Type} (line : Nat) (fault : Fault) (f : α → Eval β) :
    (Eval.failAt line fault >>= f) = Eval.failAt line fault := rfl

private theorem defineIn (scope : ScopeId) (name : String) (value : Value) :
    Traced (defineIn scope name value) .quiet :=
  (liftFault _).bind_quiet fun _ => bindIn scope name value

private theorem define (name : String) (value : Value) : Traced (define name value) .quiet :=
  get_bind (fun _ _ => rfl) fun scope => defineIn scope name value

private theorem assign (name : String) (value : Value) : Traced (assign name value) .quiet :=
  get_bind (g := fun m => m.scopes.assignee m.current name value) (fun _ _ => rfl) fun owner =>
    (liftFault owner).bind_quiet fun owner => bindIn owner name value

private theorem bindParams (scope : ScopeId) (params : List String) (args : List Value) :
    Traced (bindParams scope params args) .quiet := by
  induction params generalizing args with
  | nil => exact .pure ()
  | cons param params ih =>
    cases args with
    | nil => exact .pure ()
    | cons arg args => exact (defineIn scope param arg).bind_quiet fun _ => ih args

private theorem declareFunction (name : String) (params : List String) (body : List Stmt) :
    Traced (declareFunction name params body) .quiet := by
  have hcount : Traced (MonadState.modifyGet fun m : Machine =>
      ((m.functions, m.current), { m with functions := m.functions + 1 })) .quiet :=
    .modifyGet fun _ => ⟨rfl, rfl, fun _ => rfl⟩
  exact hcount.bind_quiet fun made =>
    define name (.function (.closure ⟨made.1, name, params, body, made.2⟩))

private theorem applyUnary (op : UnaryOp) (v : Value) (line : Nat) : Traced
    (applyUnary op v line) .quiet := by
  cases op with
  | not => exact .pure _
  | negate =>
    unfold Eval.applyUnary
    dsimp only
    split
    · exact .pure _
    · exact failAt _ _

private theorem applyBinary (op : BinaryOp) (a b : Value) (line : Nat) : Traced
    (applyBinary op a b line) .quiet := by
  unfold Eval.applyBinary
  split
  · exact .pure _
  · exact failAt _ _

private theorem expectBool (op : LogicalOp) (line : Nat) (v : Value) : Traced
    (expectBool op line v) .quiet := by
  unfold Eval.expectBool
  split
  · exact .pure _
  · exact failAt _ _

/-- A call that writes, at its line. A text that is refused leaves the machine as it is. -/
private theorem locate_write (line : Nat) (text : String) (m : Machine) :
    Eval.locate line (do write text; return Value.null) m =
      if m.output.hasRoom text then .ok .null { m with output := m.output.take text }
      else .error (Moment.failure ⟨line, text, m⟩) m := by
  have hwrite : write text m = if m.output.hasRoom text then .ok () { m with output := m.output.take text }
      else .error (.error (.ofFault (.outputFailed "device full"))) m := by
    rw [write, Run.bind_of_ok Run.get_apply]
    split <;> rfl
  split at hwrite
  · next hroom => rw [Eval.locate, Run.bind_of_ok hwrite, if_pos hroom]; rfl
  · next hroom => rw [Eval.locate, Run.bind_of_error hwrite, if_neg hroom]; rfl

private theorem write (line : Nat) (text : String) :
    Traced (Eval.locate line (do write text; return Value.null)) fun m => [⟨line, text, m⟩] := by
  intro m hm
  have hfree : m.output.hasRoom text = true := by rw [Output.hasRoom, hm]
  refine ⟨?_, ?_, ⟨rfl, trivial⟩, fun n => ?_⟩
  · rw [Machine.after, locate_write, if_pos hfree]
  · rw [Machine.after, locate_write, if_pos hfree]
    rfl
  · simp only [Machine.after, Machine.outcome, locate_write, if_pos hfree]
    cases hroom : (m.withLimit (some n)).output.hasRoom text with
    | true => exact .finished (by simp [Moment.refused, hroom])
    | false => exact .stopped (p := ⟨line, text, m⟩) (by simp [Moment.refused, hroom])

private theorem callBuiltin (line : Nat) (b : Builtin) (args : List Value) :
    Traced (Eval.locate line (callBuiltin b args)) (builtinTrace line b args) := by
  cases b with
  | scrive => exact write line _
  | scriveLina => exact write line _
  | tipoDiDato => exact (pure _).locate line
  | trasformaInIntero => exact ((liftFault _).bind_quiet fun _ => pure _).locate line
  | trasformaInVirgola => exact ((liftFault _).bind_quiet fun _ => pure _).locate line
  | trasformaInBool => exact ((liftFault _).bind_quiet fun _ => pure _).locate line
  | trasformaInStringa => exact (pure _).locate line
  | tempoMillis => exact (readClock.bind_quiet fun _ => pure _).locate line

section

variable {eval : Expr → Eval Value} {exec : Stmt → Eval Unit} {evalTrace : Expr → Trace}
  {execTrace : Stmt → Trace}

private theorem evalAll (heval : ∀ e, Traced (eval e) (evalTrace e)) (es : List Expr) :
    Traced (evalAll eval es) (evalAllTrace eval evalTrace es) := by
  induction es with
  | nil => exact .pure []
  | cons e es ih => exact (heval e).bind fun v => ih.bind_quiet fun vs => .pure (v :: vs)

private theorem runAll (hexec : ∀ s, Traced (exec s) (execTrace s)) (ss : List Stmt) :
    Traced (runAll exec ss) (runAllTrace exec execTrace ss) := by
  induction ss with
  | nil => exact .pure ()
  | cons s ss ih => exact (hexec s).bind fun _ => ih

private theorem evalOption (heval : ∀ e, Traced (eval e) (evalTrace e)) (e : Option Expr) :
    Traced (evalOption eval e) (evalOptionTrace evalTrace e) := by
  cases e with
  | none => exact .pure _
  | some e => exact heval e

private theorem callClosure (hexec : ∀ s, Traced (exec s) (execTrace s)) (c : Closure)
    (args : List Value) :
    Traced (callClosure exec c args) (closureTrace exec execTrace c args) :=
  (newScope c.scope).bind fun scope => (bindParams scope c.params args).bind fun _ =>
    ((runAll hexec c.body).within scope).catchReturn

private theorem apply (hexec : ∀ s, Traced (exec s) (execTrace s)) (line : Nat) (callee : Value)
    (args : List Value) :
    Traced (apply exec line callee args) (applyTrace exec execTrace line callee args) := by
  cases callee with
  | function f =>
    simp only [Eval.apply, applyTrace]
    split
    · exact failAt _ _
    · cases f with
      | builtin b => exact callBuiltin line b args
      | closure c => exact (callClosure hexec c args).locate line
  | null | bool | int | float | str => exact failAt _ _

private theorem loopTurn (heval : ∀ e, Traced (eval e) (evalTrace e))
    (hexec : ∀ s, Traced (exec s) (execTrace s))
    (condition : Expr) (body : Stmt) : Traced (loopTurn eval exec condition body)
      (loopTurnTrace eval evalTrace execTrace condition body) := by
  refine (heval condition).bind fun value => ?_
  by_cases hnull : (value.type == .null) = true
  · simp only [hnull, if_true, failAt_bind]
    exact failAt _ _
  · simp only [if_neg hnull]
    split
    · exact (hexec body).bind_quiet fun _ => .pure true
    · exact .pure false

end

private theorem repeatWhile {turn : Eval Bool} {trace : Trace} (hturn : Traced turn trace)
    (fuel : Nat) :
    Traced (repeatWhile turn fuel) (repeatWhileTrace turn trace fuel) := by
  induction fuel with
  | zero => exact .throw _
  | succ fuel ih =>
    refine hturn.bind fun again => ?_
    cases again with
    | true => exact ih
    | false => exact .pure ()

private theorem eval_step {fuel : Nat} (heval : ∀ e, Traced (eval fuel e) (evalTrace fuel e))
    (hexec : ∀ s, Traced (exec fuel s) (execTrace fuel s)) (e : Expr) :
    Traced (eval (fuel + 1) e) (evalTrace (fuel + 1) e) := by
  cases e with
  | literal value s => exact .pure _
  | name name s => exact (lookup name).locate _
  | group inner s => exact heval inner
  | unary op operand s => exact (heval operand).bind_quiet fun _ => applyUnary _ _ _
  | binary op left right s =>
    exact (heval left).bind fun _ => (heval right).bind_quiet fun _ => applyBinary _ _ _ _
  | logical op left right s =>
    refine (heval left).bind fun v => (expectBool op s.line v).bind fun a => ?_
    cases shortcut op a with
    | some result => exact .pure _
    | none =>
      exact (heval right).bind_quiet fun w => (expectBool op s.line w).bind_quiet fun b => .pure _
  | assign name value s =>
    exact (heval value).bind_quiet fun v => ((assign name v).locate _).bind_quiet fun _ => .pure v
  | call callee arguments s =>
    exact (heval callee).bind fun f => (evalAll heval arguments).bind fun args => apply hexec _ _ _
  | get object name s => exact (heval object).bind_quiet fun _ => failAt _ _
  | set object name value s => exact (heval object).bind_quiet fun _ => failAt _ _
  | questo s => exact (lookup "questo").locate _
  | super method s => exact (lookup "super").locate _

private theorem exec_step {fuel : Nat} (heval : ∀ e, Traced (eval fuel e) (evalTrace fuel e))
    (hexec : ∀ s, Traced (exec fuel s) (execTrace fuel s)) (stmt : Stmt) :
    Traced (exec (fuel + 1) stmt) (execTrace (fuel + 1) stmt) := by
  cases stmt with
  | expr value s => exact (heval value).map _
  | var name initial s => exact (evalOption heval initial).bind_quiet fun v => (define name v).locate _
  | block body s =>
    exact get_bind (fun _ _ => rfl) fun parent => (newScope parent).bind fun scope =>
      (runAll hexec body).within scope
  | cond condition thenBranch elseBranch s =>
    refine (heval condition).bind fun v => ?_
    split
    · exact hexec thenBranch
    · cases elseBranch with
      | some branch => exact hexec branch
      | none => exact .pure ()
  | loop condition body s => exact (loopTurn heval hexec condition body).repeatWhile fuel
  | function name params body s => exact (declareFunction name params body).locate _
  | ret value s => exact (evalOption heval value).bind_quiet fun v => .throw _

private theorem eval_exec (fuel : Nat) :
    (∀ e, Traced (eval fuel e) (evalTrace fuel e)) ∧ ∀ s, Traced (exec fuel s) (execTrace fuel s) := by
  induction fuel with
  | zero =>
    refine ⟨fun e => ?_, fun s => ?_⟩
    · rw [eval, evalTrace]
      exact .throw _
    · rw [exec, execTrace]
      exact .throw _
  | succ fuel ih => exact ⟨eval_step ih.1 ih.2, exec_step ih.1 ih.2⟩

private theorem interpret (fuel : Nat) (stmts : List Stmt) : Traced (interpret fuel stmts)
    (interpretTrace fuel stmts) :=
  runAll (eval_exec fuel).2 stmts

end Traced

namespace Output

def retained (o : Output) : String := o.capture.getD ""

private theorem accepted_takeAll (o : Output) (texts : List String) :
    (o.takeAll texts).accepted = o.accepted ++ String.join texts := by
  induction texts generalizing o with
  | nil => simp
  | cons text texts ih =>
    have htake : (o.take text).accepted = o.accepted ++ text := by simp [accepted, take]
    rw [takeAll_cons, ih, htake, String.join_cons, String.append_assoc]

private theorem capture_takeAll (o : Output) (texts : List String) :
    (o.takeAll texts).capture = o.capture.map (· ++ String.join texts) := by
  induction texts generalizing o with
  | nil => simp
  | cons text texts ih =>
    rw [takeAll_cons, ih, take, Option.map_map]
    simp [Function.comp_def, String.append_assoc]

/-- Whether a copy is kept does not change, and a copy that is faithful stays so. -/
theorem retained_takeAll (o : Output) (texts : List String) :
    (o.capture = none → (o.takeAll texts).retained = "") ∧
      (o.capture = some o.accepted → (o.takeAll texts).retained = (o.takeAll texts).accepted) := by
  rw [retained, capture_takeAll, accepted_takeAll]
  exact ⟨fun h => by rw [h]; rfl, fun h => by rw [h]; rfl⟩

end Output

namespace Moment

variable {n : Nat} {o : Output} {before after : List Moment} {p : Moment}

/-- The text fits on a device for `n` bytes behind what the device holds and the texts before it. -/
def Fits (n : Nat) (o : Output) (before : List Moment) (p : Moment) : Prop :=
  (o.takeAll (before.map text)).size + p.text.utf8ByteSize ≤ n

private theorem InOrder.output_eq (h : InOrder o (before ++ p :: after)) :
    p.machine.output = o.takeAll (before.map text) := by
  induction before generalizing o with
  | nil => exact h.1
  | cons q before ih => exact ih h.2

private theorem InOrder.refused_iff (h : InOrder o (before ++ p :: after)) :
    p.refused n = true ↔ ¬ p.Fits n o before := by
  rw [refused, Machine.hasRoom_withLimit, h.output_eq]
  simp [Fits]

private theorem InOrder.find?_eq_none {moments : List Moment} (h : InOrder o moments)
    (hfits : ∀ before p after, moments = before ++ p :: after → p.Fits n o before) :
    moments.find? (·.refused n) = none := by
  refine List.find?_eq_none.mpr fun p hp hrefused => ?_
  obtain ⟨before, after, rfl⟩ := List.append_of_mem hp
  exact h.refused_iff.mp hrefused (hfits before p after rfl)

private theorem InOrder.find?_eq_some (h : InOrder o (before ++ p :: after))
    (hfits : ∀ earlier q later, before = earlier ++ q :: later → q.Fits n o earlier)
    (hfull : ¬ p.Fits n o before) : (before ++ p :: after).find? (·.refused n) = some p := by
  refine List.find?_eq_some_iff_append.mpr ⟨h.refused_iff.mpr hfull, before, after, rfl, fun q hq => ?_⟩
  obtain ⟨earlier, later, rfl⟩ := List.append_of_mem hq
  rw [List.append_assoc, List.cons_append] at h
  rw [Bool.not_eq_true', Bool.eq_false_iff]
  exact fun hrefused => h.refused_iff.mp hrefused (hfits earlier q later rfl)

end Moment

private theorem Recorded.output_limited {α : Type} {x : Eval α} {m : Machine} {moments : List Moment}
    (h : Recorded x m moments) (n : Nat) : ∃ texts,
      ((m.withLimit (some n)).after x).output = { m.output.takeAll texts with limit := some n } := by
  have htruncated := h.truncated n
  generalize (m.withLimit (some n)).outcome x = o, (m.withLimit (some n)).after x = m' at htruncated ⊢
  cases htruncated with
  | finished => exact ⟨_, by rw [← h.output]; rfl⟩
  | stopped hfind =>
    obtain ⟨-, before, after, rfl, -⟩ := List.find?_eq_some_iff_append.mp hfind
    exact ⟨_, by rw [← h.inOrder.output_eq]; rfl⟩

namespace Machine

/-- A device that fills up only truncates a run. If every text fits that the program writes on a
device that takes everything, then the two runs end alike. Otherwise the program stops at the call
that writes the first text that does not fit, with the texts before it written and everything as it
is at that moment, but in the scope in which the program began. A copy of the output stays a copy. -/
theorem full_device_truncates (fuel : Nat) (program : List Stmt) (m : Machine) (n : Nat) :
    let run := Eval.interpret fuel program
    let free := m.withLimit none
    let full := m.withLimit (some n)
    let writes := Eval.interpretTrace fuel program free
    ((free.after run).output = free.output.takeAll (writes.map Moment.text) ∧
      ∀ before p after, writes = before ++ p :: after →
        p.machine.output = free.output.takeAll (before.map Moment.text)) ∧
    ((∀ before p after, writes = before ++ p :: after → p.Fits n free.output before) →
      full.outcome run = free.outcome run ∧ full.after run = (free.after run).withLimit (some n)) ∧
    (∀ before p after, writes = before ++ p :: after →
      (∀ earlier q later, before = earlier ++ q :: later → q.Fits n free.output earlier) →
      ¬ p.Fits n free.output before →
      full.outcome run =
          .error (.error ⟨.outputFailed, "failed to write output: device full", some p.line⟩) ∧
        full.after run = { p.machine.withLimit (some n) with current := m.current } ∧
        (full.after run).output.accepted = m.output.accepted ++ String.join (before.map Moment.text)) ∧
    ∀ limit, (m.output.capture = none → ((m.withLimit limit).after run).output.retained = "") ∧
      (m.output.capture = some m.output.accepted →
        ((m.withLimit limit).after run).output.retained = ((m.withLimit limit).after run).output.accepted) := by
  intro run free full writes
  have h : Recorded run free writes := Traced.interpret fuel program free rfl
  have htruncated : Truncated n m.current writes (free.outcome run) (free.after run) (full.outcome run)
      (full.after run) := h.truncated n
  refine ⟨⟨h.output, fun before p after hsplit => (hsplit ▸ h.inOrder).output_eq⟩, fun hfits => ?_,
    fun before p after hsplit hfits hfull => ?_, fun limit => ?_⟩
  · have hfind := h.inOrder.find?_eq_none hfits
    generalize full.outcome run = o, full.after run = m' at htruncated ⊢
    cases htruncated with
    | finished => exact ⟨rfl, rfl⟩
    | stopped hsome => cases hfind.symm.trans hsome
  · have horder : Moment.InOrder free.output (before ++ p :: after) := hsplit ▸ h.inOrder
    have hfind := horder.find?_eq_some hfits hfull
    rw [← hsplit] at hfind
    generalize full.outcome run = o, full.after run = m' at htruncated ⊢
    cases htruncated with
    | finished hnone => cases hfind.symm.trans hnone
    | stopped hsome =>
      obtain rfl := Option.some.inj (hfind.symm.trans hsome)
      refine ⟨rfl, rfl, ?_⟩
      have haccepted := Output.accepted_takeAll free.output (before.map Moment.text)
      rw [← horder.output_eq] at haccepted
      exact haccepted
  · cases limit with
    | none =>
      have hretained := free.output.retained_takeAll (writes.map Moment.text)
      rw [← h.output] at hretained
      exact hretained
    | some k =>
      obtain ⟨texts, houtput⟩ := h.output_limited k
      have hretained := free.output.retained_takeAll texts
      have hsame : (m.withLimit (some k)).after run = (free.withLimit (some k)).after run := rfl
      rw [hsame, houtput]
      exact hretained

/-- Two calls of a function that writes on its second line, and a device for three bytes. -/
theorem full_device_truncates_second_call :
    let call (text : String) : Stmt :=
      .expr (.call (.name "f" ⟨0, 1, 3⟩) [.literal (.str text) ⟨0, 1, 3⟩] ⟨0, 1, 3⟩) ⟨0, 1, 3⟩
    let program : List Stmt :=
      [.function "f" ["x"] [.expr (.call (.name "Scrive" ⟨0, 1, 2⟩) [.name "x" ⟨0, 1, 2⟩] ⟨0, 1, 2⟩) ⟨0, 1, 2⟩]
        ⟨0, 1, 1⟩, call "ab", call "cd"]
    let m := Machine.start (.limited 3) fun _ => 0
    m.outcome (Eval.interpret 9 program) =
        .error (.error ⟨.outputFailed, "failed to write output: device full", some 2⟩) ∧
      (m.after (Eval.interpret 9 program)).output.accepted = "ab" ∧
      (m.after (Eval.interpret 9 program)).current = 0 := by
  intro call program m
  have hwrites : (Eval.interpretTrace 9 program (Machine.start .unlimited fun _ => 0)).map
      (fun p => (p.line, p.text)) = [(2, "ab"), (2, "cd")] := by decide +kernel
  obtain ⟨p, rest, hsplit, hp, hrest⟩ := List.map_eq_cons_iff.mp hwrites
  obtain ⟨q, rest, rfl, hq, hrest⟩ := List.map_eq_cons_iff.mp hrest
  obtain rfl := List.map_eq_nil_iff.mp hrest
  have hptext : p.text = "ab" := congrArg Prod.snd hp
  have hqtext : q.text = "cd" := congrArg Prod.snd hq
  have hqline : q.line = 2 := congrArg Prod.fst hq
  obtain ⟨-, -, hstopped, -⟩ := full_device_truncates 9 program (Machine.start .unlimited fun _ => 0) 3
  have hfits : ∀ earlier other later, [p] = earlier ++ other :: later → other.Fits 3 .unlimited earlier := by
    intro earlier other later hbefore
    obtain ⟨rfl, hcons⟩ | ⟨_, rfl, hnil⟩ := List.cons_eq_append_iff.mp hbefore
    · obtain ⟨rfl, -⟩ := List.cons.inj hcons
      rw [Moment.Fits, hptext]
      decide
    · simp at hnil
  have hfull : ¬ q.Fits 3 .unlimited [p] := by
    rw [Moment.Fits, List.map_cons, hptext, hqtext]
    decide
  obtain ⟨houtcome, hafter, haccepted⟩ := hstopped [p] q [] hsplit hfits hfull
  have hm : Machine.withLimit (some 3) (Machine.start .unlimited fun _ => 0) = m := rfl
  rw [hm] at houtcome hafter haccepted
  rw [hqline] at houtcome
  refine ⟨houtcome, ?_, by rw [hafter]; rfl⟩
  rw [haccepted, List.map_cons, hptext]
  rfl

end Machine
end Copione
