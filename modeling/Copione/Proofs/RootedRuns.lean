import Copione.Proofs.RunCourses
import Copione.Proofs.Sessions
/-!
# Runs keep to a tree of scopes

Whatever programs run, and however they end, the scopes are a tree at every point, functions close over
scopes of it, and no binding is ever lost. So every search for a name ends, the built-in functions are
found from everywhere, and no keyword is.
-/
namespace Copione

namespace Grounded

variable {m : Machine}

private theorem lookup (hm : m.Sound) (name : String) :
    Grounded Value.Anchored .still (Eval.lookup name) m := by
  cases hget : m.scopes.get m.current name with
  | ok v =>
    refine still_of_ok hm ?_ rfl rfl (hm.tree.anchored_get hget)
    rw [Eval.lookup, Run.bind_of_ok Run.get_apply, hget]
    rfl
  | error fault =>
    refine (fail hm fault).congr ?_ rfl
    rw [Eval.lookup, Run.bind_of_ok Run.get_apply, hget]
    rfl

private theorem newScope (hm : m.Sound) {parent : ScopeId} (hparent : parent < m.scopes.next) :
    Grounded (fun s id => id < s.next) (.behind (Eval.newScope parent)) (Eval.newScope parent) m :=
  behind_of_ok hm rfl (.enter hparent) rfl (by simp)

private theorem defineIn (hm : m.Sound) {scope : ScopeId} (hscope : scope < m.scopes.next)
    (name : String)
    {v : Value} (hv : v.Anchored m.scopes) :
    Grounded (fun _ _ => True) (.behind (Eval.defineIn scope name v)) (Eval.defineIn scope name v) m := by
  cases hname : isReserved name with
  | true =>
    refine behind_of_error (e := .error (.ofFault (.reservedWord name))) hm ?_ rfl rfl rfl
    rw [Eval.defineIn, Scopes.checkName, if_pos hname]
    rfl
  | false =>
    refine behind_of_ok (n := { m with scopes := m.scopes.bind scope name v }) (a := ()) hm ?_
      (.bind hscope hname hv) rfl trivial
    rw [Eval.defineIn, Scopes.checkName, if_neg (by simp [hname])]
    rfl

private theorem define (hm : m.Sound) (name : String) {v : Value} (hv : v.Anchored m.scopes) :
    Grounded (fun _ _ => True) (.behind (Eval.define name v)) (Eval.define name v) m := by
  have hdefine : Eval.define name v m = Eval.defineIn m.current name v m := Run.bind_of_ok Run.get_apply
  refine (defineIn hm hm.current_lt name hv).congr hdefine ?_
  rw [Course.behind, Course.behind, Course.ending, Course.ending, hdefine]

private theorem assign (hm : m.Sound) (name : String) {v : Value} (hv : v.Anchored m.scopes) :
    Grounded (fun _ _ => True) (.behind (Eval.assign name v)) (Eval.assign name v) m := by
  cases howner : m.scopes.assignee m.current name v with
  | ok owner =>
    refine behind_of_ok (n := { m with scopes := m.scopes.bind owner name v }) (a := ()) hm ?_
      (hm.tree.change_assign howner hv) rfl trivial
    rw [Eval.assign, Run.bind_of_ok Run.get_apply, howner]
    rfl
  | error fault =>
    refine behind_of_error (e := .error (.ofFault fault)) hm ?_ rfl rfl rfl
    rw [Eval.assign, Run.bind_of_ok Run.get_apply, howner]
    rfl

private theorem declareFunction (hm : m.Sound) (name : String) (params : List String)
    (body : List Stmt) :
    Grounded (fun _ _ => True) (.behind (Eval.declareFunction name params body))
      (Eval.declareFunction name params body) m := by
  let v : Value := .function (.closure ⟨m.functions, name, params, body, m.current⟩)
  have hv : v.Anchored m.scopes := by
    intro c hc
    obtain rfl := Callable.closure.inj (Value.function.inj hc)
    exact hm.current_lt
  have hdeclare : Eval.declareFunction name params body m =
      Eval.define name v { m with functions := m.functions + 1 } := rfl
  cases hname : isReserved name with
  | true =>
    refine behind_of_error (n := { m with functions := m.functions + 1 })
      (e := .error (.ofFault (.reservedWord name))) hm (hdeclare.trans ?_) rfl rfl rfl
    rw [Eval.define, Run.bind_of_ok Run.get_apply, Eval.defineIn, Scopes.checkName, if_pos hname]
    rfl
  | false =>
    refine behind_of_ok
      (n := { m with functions := m.functions + 1, scopes := m.scopes.bind m.current name v })
      (a := ()) hm (hdeclare.trans ?_) (.bind hm.current_lt hname hv) rfl trivial
    rw [Eval.define, Run.bind_of_ok Run.get_apply, Eval.defineIn, Scopes.checkName,
      if_neg (by simp [hname])]
    rfl

private theorem liftFault {α : Type} (hm : m.Sound) (r : Except Fault α) :
    Grounded (fun _ _ => True) .still (Eval.liftFault r) m := by
  cases r with
  | ok a => exact pure hm trivial
  | error fault => exact fail hm fault

private theorem write (hm : m.Sound) (text : String) :
    Grounded (fun _ _ => True) .still (Eval.write text) m := by
  by_cases hroom : m.output.hasRoom text = true
  · refine still_of_ok (n := { m with output := m.output.take text }) (a := ()) hm ?_ rfl rfl trivial
    rw [Eval.write, Run.bind_of_ok Run.get_apply, if_pos hroom]
    rfl
  · refine (fail hm (.outputFailed "device full")).congr ?_ rfl
    rw [Eval.write, Run.bind_of_ok Run.get_apply, if_neg hroom]

private theorem readClock (hm : m.Sound) : Grounded (fun _ _ => True) .still Eval.readClock m :=
  still_of_ok hm rfl rfl rfl trivial

private theorem applyUnary (hm : m.Sound) (op : UnaryOp) (v : Value) (line : Nat) :
    Grounded Value.Anchored .still (Eval.applyUnary op v line) m := by
  unfold Eval.applyUnary
  cases op with
  | not => exact pure hm nofun
  | negate =>
    cases hresult : Eval.negate v with
    | none => exact failAt hm line _
    | some result =>
      refine pure hm ?_
      rintro c rfl
      cases v <;> simp [Eval.negate] at hresult

/-- No operator makes a function: it would be alike itself even if no scopes are. -/
theorem anchored_of_combine {op : BinaryOp} {v v' w : Value} (h : Eval.combine op v v' = some w)
    (s : Scopes) : w.Anchored s := by
  have hself := Value.Alike.combine_self (P := ⟨Eq, fun _ => True, fun _ _ => False⟩) h
  rintro c rfl
  cases hself with
  | closure hc =>
    cases hc with
    | mk _ _ hscope => exact hscope.elim

private theorem applyBinary (hm : m.Sound) (op : BinaryOp) (v v' : Value) (line : Nat) :
    Grounded Value.Anchored .still (Eval.applyBinary op v v' line) m := by
  unfold Eval.applyBinary
  cases hresult : Eval.combine op v v' with
  | some result => exact pure hm (anchored_of_combine hresult m.scopes)
  | none => exact failAt hm line _

private theorem expectBool (hm : m.Sound) (op : LogicalOp) (line : Nat) (v : Value) :
    Grounded (fun _ _ => True) .still (Eval.expectBool op line v) m := by
  cases v with
  | bool b => exact pure hm trivial
  | null | int | float | str | function => exact failAt hm line _

private theorem callBuiltin (hm : m.Sound) (b : Builtin) (args : List Value) :
    Grounded Value.Anchored .still (Eval.callBuiltin b args) m := by
  cases b with
  | scrive | scriveLina => exact (write hm _).bind fun _ _ hn _ => pure hn.sound nofun
  | tipoDiDato | trasformaInStringa => exact pure hm nofun
  | trasformaInIntero | trasformaInVirgola | trasformaInBool =>
    exact (liftFault hm _).bind fun _ _ hn _ => pure hn.sound nofun
  | tempoMillis => exact (readClock hm).bind fun _ _ hn _ => pure hn.sound nofun

/-- Expressions take the course of their evaluation, to values that have a place in the tree. -/
def EvalsGrounded (eval : Expr → Eval Value) (evalCourse : Expr → Course) : Prop :=
  ∀ e m, Machine.Sound m → Grounded Value.Anchored (evalCourse e) (eval e) m

def ExecsGrounded (exec : Stmt → Eval Unit) (execCourse : Stmt → Course) : Prop :=
  ∀ stmt m, Machine.Sound m → Grounded (fun _ _ => True) (execCourse stmt) (exec stmt) m

section

variable {eval : Expr → Eval Value} {exec : Stmt → Eval Unit} {evalCourse : Expr → Course}
  {execCourse : Stmt → Course}

private theorem evalAll (heval : EvalsGrounded eval evalCourse) (hm : m.Sound) (es : List Expr) :
    Grounded (fun s vs => ∀ v ∈ vs, v.Anchored s) (Eval.evalAllCourse eval evalCourse es)
      (Eval.evalAll eval es) m := by
  induction es generalizing m with
  | nil => exact pure hm (by simp)
  | cons e es ih =>
    refine (heval e m hm).andThen fun v n hn hv => ?_
    refine (ih hn.sound).bind fun vs k hk hvs => pure hk.sound ?_
    simpa using ⟨hv.mono hk.extends.next_le, hvs⟩

private theorem runAll (hexec : ExecsGrounded exec execCourse) (hm : m.Sound) (ss : List Stmt) :
    Grounded (fun _ _ => True) (Eval.runAllCourse exec execCourse ss) (Eval.runAll exec ss) m := by
  induction ss generalizing m with
  | nil => exact pure hm trivial
  | cons s ss ih => exact (hexec s m hm).andThen fun _ _ hn _ => ih hn.sound

private theorem bindParams (hm : m.Sound) {scope : ScopeId} (hscope : scope < m.scopes.next)
    (params : List String) {args : List Value} (hargs : ∀ v ∈ args, v.Anchored m.scopes) :
    Grounded (fun _ _ => True) (Eval.bindParamsCourse scope params args)
      (Eval.bindParams scope params args) m := by
  induction params generalizing args m with
  | nil => exact pure hm trivial
  | cons param params ih =>
    cases args with
    | nil => exact pure hm trivial
    | cons arg args =>
      refine (defineIn hm hscope param (hargs arg (by simp))).andThen fun _ n hn _ => ?_
      exact ih hn.sound (Nat.lt_of_lt_of_le hscope hn.extends.next_le)
        fun v hv => (hargs v (by simp [hv])).mono hn.extends.next_le

/-- The body runs in a scope that lies in the one of the function. -/
theorem callClosure (hexec : ExecsGrounded exec execCourse) (hm : m.Sound) {c : Closure}
    (hc : c.scope < m.scopes.next) {args : List Value} (hargs : ∀ v ∈ args, v.Anchored m.scopes) :
    Grounded Value.Anchored (Eval.closureCourse exec execCourse c args)
      (Eval.callClosure exec c args) m := by
  unfold Eval.closureCourse Eval.callClosure Course.step
  refine (newScope hm hc).andThen fun scope n hn hscope => ?_
  have hargs' : ∀ v ∈ args, v.Anchored n.scopes := fun v hv => (hargs v hv).mono hn.extends.next_le
  refine (bindParams hn.sound hscope c.params hargs').andThen fun _ k hk _ => ?_
  have hscope' : scope < k.scopes.next := Nat.lt_of_lt_of_le hscope hk.extends.next_le
  have hbody := runAll (m := { k with current := scope }) hexec ⟨hk.sound.tree, hscope'⟩ c.body
  exact (hbody.within hk.sound hscope').catchReturn

private theorem apply (hexec : ExecsGrounded exec execCourse) (hm : m.Sound) (line : Nat)
    {callee : Value}
    (hcallee : callee.Anchored m.scopes) {args : List Value} (hargs : ∀ v ∈ args, v.Anchored m.scopes) :
    Grounded Value.Anchored (Eval.applyCourse exec execCourse line callee args)
      (Eval.apply exec line callee args) m := by
  refine whole ?_ hm (by simpa using ⟨hcallee, hargs⟩) fun s v hv => by simpa using hv
  unfold Eval.apply
  cases callee with
  | function f =>
    by_cases harity : (args.length != f.arity) = true
    · simp only [harity, if_true]
      exact failAt hm line _
    · simp only [if_neg harity]
      cases f with
      | builtin b => exact (callBuiltin hm b args).locate line
      | closure c => exact (callClosure hexec hm (hcallee c rfl) hargs).locate line
  | null | bool | int | float | str => exact failAt hm line _

private theorem evalOption (heval : EvalsGrounded eval evalCourse) (hm : m.Sound) (e : Option Expr) :
    Grounded Value.Anchored (Eval.evalOptionCourse evalCourse e) (Eval.evalOption eval e) m := by
  cases e with
  | none => exact pure hm nofun
  | some e => exact heval e m hm

private theorem loopTurn (heval : EvalsGrounded eval evalCourse) (hexec : ExecsGrounded exec execCourse)
    (condition : Expr) (body : Stmt) (m : Machine) (hm : m.Sound) :
    Grounded (fun _ _ => True) (Eval.loopTurnCourse eval evalCourse execCourse condition body)
      (Eval.loopTurn eval exec condition body) m := by
  refine (heval condition m hm).andThen fun value n hn _ => ?_
  by_cases hnull : (value.type == .null) = true
  · simp only [hnull, if_true]
    exact failAt hn.sound _ _
  · simp only [if_neg hnull]
    split
    · exact (hexec body n hn.sound).bind fun _ _ hk _ => pure hk.sound trivial
    · exact pure hn.sound trivial

end

private theorem repeatWhile {turn : Eval Bool} {course : Course}
    (hturn : ∀ m, Machine.Sound m → Grounded (fun _ _ => True) course turn m) (hm : m.Sound)
    (fuel : Nat) :
    Grounded (fun _ _ => True) (Eval.repeatWhileCourse turn course fuel) (Eval.repeatWhile turn fuel) m := by
  induction fuel generalizing m with
  | zero => exact throw hm (by simp [Signal.values])
  | succ fuel ih =>
    refine (hturn m hm).andThen fun again n hn _ => ?_
    cases again with
    | true => exact ih hn.sound
    | false => exact pure hn.sound trivial

section

variable {fuel : Nat} {evalCourse : Expr → Course} {execCourse : Stmt → Course}

private theorem grounded_eval
    (heval : EvalsGrounded (Eval.eval fuel) evalCourse) (hexec : ExecsGrounded (Eval.exec fuel) execCourse)
    (hm : m.Sound) (e : Expr) :
    Grounded Value.Anchored (Eval.exprCourse fuel evalCourse execCourse e) (Eval.eval (fuel + 1) e) m := by
  cases e with
  | literal value s => exact pure hm (by cases value <;> exact nofun)
  | name name s => exact (lookup hm name).locate _
  | group inner s => exact heval inner m hm
  | unary op operand s => exact (heval operand m hm).bind fun v n hn _ => applyUnary hn.sound op v _
  | binary op left right s =>
    refine (heval left m hm).andThen fun v n hn _ => ?_
    exact (heval right n hn.sound).bind fun v' k hk _ => applyBinary hk.sound op v v' _
  | logical op left right s =>
    refine (heval left m hm).andThen fun v n hn _ => ?_
    refine (expectBool hn.sound op s.line v).andThen fun a k hk _ => ?_
    cases Eval.shortcut op a with
    | some result => exact pure hk.sound nofun
    | none =>
      refine (heval right k hk.sound).bind fun w l hl _ => ?_
      exact (expectBool hl.sound op s.line w).bind fun b _ hb _ => pure hb.sound nofun
  | assign name value s =>
    refine (heval value m hm).andThen fun v n hn hv => ?_
    refine ((assign hn.sound name hv).behind_locate s.line).bind fun _ k hk _ => ?_
    exact pure hk.sound (hv.mono hk.extends.next_le)
  | call callee arguments s =>
    refine (heval callee m hm).andThen fun f n hn hf => ?_
    refine (evalAll heval hn.sound arguments).andThen fun args k hk hargs => ?_
    exact apply hexec hk.sound s.line (hf.mono hk.extends.next_le) hargs
  | get object name s | set object name value s =>
    exact (heval object m hm).bind fun _ _ hn _ => failAt hn.sound _ _
  | questo s | super method s => exact (lookup hm _).locate _

private theorem grounded_exec
    (heval : EvalsGrounded (Eval.eval fuel) evalCourse) (hexec : ExecsGrounded (Eval.exec fuel) execCourse)
    (hm : m.Sound) (stmt : Stmt) :
    Grounded (fun _ _ => True) (Eval.stmtCourse fuel evalCourse execCourse stmt)
      (Eval.exec (fuel + 1) stmt) m := by
  cases stmt with
  | expr value s => exact (heval value m hm).map _ fun _ _ _ => trivial
  | var name initial s =>
    refine (evalOption heval hm initial).andThen fun v n hn hv => ?_
    exact (define hn.sound name hv).behind_locate s.line
  | block body s =>
    have hblock : Grounded (fun _ _ => True)
        (.step (Eval.newScope m.current)
          fun scope => (Eval.runAllCourse (Eval.exec fuel) execCourse body).within scope)
        (Eval.newScope m.current >>= fun scope => Eval.within scope (Eval.runAll (Eval.exec fuel) body))
        m := by
      refine (newScope hm hm.current_lt).andThen fun scope n hn hscope => ?_
      have hbody := runAll (m := { n with current := scope }) hexec ⟨hn.sound.tree, hscope⟩ body
      exact hbody.within hn.sound hscope
    exact hblock.congr rfl rfl
  | cond condition thenBranch elseBranch s =>
    refine (heval condition m hm).andThen fun v n hn _ => ?_
    split
    · exact hexec thenBranch n hn.sound
    · cases elseBranch with
      | some branch => exact hexec branch n hn.sound
      | none => exact pure hn.sound trivial
  | loop condition body s => exact repeatWhile (loopTurn heval hexec condition body) hm fuel
  | function name params body s => exact (declareFunction hm name params body).behind_locate s.line
  | ret value s =>
    refine (evalOption heval hm value).bind fun v n hn hv => throw hn.sound ?_
    simpa [Signal.values] using hv

end

private theorem eval_exec (fuel : Nat) :
    EvalsGrounded (Eval.eval fuel) (Eval.evalCourse fuel) ∧
      ExecsGrounded (Eval.exec fuel) (Eval.execCourse fuel) := by
  induction fuel with
  | zero =>
    refine ⟨fun e m hm => ?_, fun s m hm => ?_⟩
    · rw [Eval.eval, Eval.evalCourse]
      exact throw hm (by simp [Signal.values])
    · rw [Eval.exec, Eval.execCourse]
      exact throw hm (by simp [Signal.values])
  | succ fuel ih =>
    refine ⟨fun e m hm => ?_, fun s m hm => ?_⟩
    · exact (grounded_eval ih.1 ih.2 hm e).whole hm (by simp) fun s v hv => by simpa using hv
    · exact (grounded_exec ih.1 ih.2 hm s).whole hm (by simp) fun s _ _ => by simp

private theorem interpret (fuel : Nat) (stmts : List Stmt) (hm : m.Sound) :
    Grounded (fun _ _ => True) (Eval.interpretCourse fuel stmts) (Eval.interpret fuel stmts) m :=
  runAll (eval_exec fuel).2 hm stmts

end Grounded

namespace Machine

def afterAll (fuel : Nat) (programs : List (List Stmt)) (m : Machine) : Machine :=
  programs.foldl (fun m stmts => m.after (Eval.interpret fuel stmts)) m

/-- The points that the machine goes through when programs run on it. -/
def history (fuel : Nat) : List (List Stmt) → Machine → List Waypoint
  | [], m => [⟨m, []⟩]
  | stmts :: programs, m =>
    ⟨m, []⟩ :: (Eval.interpretCourse fuel stmts m ++ history fuel programs (m.after (Eval.interpret fuel stmts)))

variable {m : Machine}

private theorem afterAll_lifetime (programs : List (List Stmt)) (m : Machine) :
    m.afterAll Eval.lifetime programs = programs.foldl (fun m stmts => (m.run stmts).2) m := by
  simp only [afterAll, run_machine]

private theorem comes_after_interpret (hm : m.Sound) (fuel : Nat) (stmts : List Stmt) :
    m.Comes (Eval.interpretCourse fuel stmts m) (m.after (Eval.interpret fuel stmts)) := by
  have h := Grounded.interpret fuel stmts hm
  unfold Grounded at h
  unfold after
  cases hrun : Eval.interpret fuel stmts m with
  | ok a n => exact (hrun ▸ h).1
  | error e n => exact (hrun ▸ h).1

private theorem trail_history (hm : m.Sound) (fuel : Nat) (programs : List (List Stmt)) :
    Trail m.scopes (history fuel programs m) (m.afterAll fuel programs).scopes := by
  induction programs generalizing m with
  | nil => exact .one .none ⟨hm, by simp⟩
  | cons stmts programs ih =>
    have hcomes := comes_after_interpret hm fuel stmts
    exact .cons .none ⟨hm, by simp⟩ (hcomes.trail.append (ih hcomes.sound))

end Machine

/-- At every point that programs go through, and not only between them, the scopes are a tree and what
is handed over has its place in it; from point to point the scopes change once at most, and nothing that
was there is ever missing later. From every scope the way out ends at the first one, the search for a
name ends with what lookups and assignments go by, the built-in names are found, and `questo` and
`super` are bound nowhere. -/
theorem history_keeps_tree (output : Output) (clock : Nat → Float) (fuel : Nat)
    (programs : List (List Stmt)) :
    let start := Machine.start output clock
    let points := start.history fuel programs
    start.afterAll Eval.lifetime programs = programs.foldl (fun m stmts => (m.run stmts).2) start ∧
      Trail start.scopes points (start.afterAll fuel programs).scopes ∧
      points.Pairwise (fun k l => k.machine.scopes.Extends l.machine.scopes) ∧
      ∀ k ∈ points, k.Sound ∧ ∀ id < k.machine.scopes.next,
        (k.machine.scopes.chain id).getLast? = some 0 ∧
        (∀ name r, k.machine.scopes.Search name id r ↔ k.machine.scopes.nearest? id name = r) ∧
        (∀ b : Builtin, ∃ v, k.machine.scopes.get id b.name = .ok v) ∧
        k.machine.scopes.bound? id "questo" = none ∧ k.machine.scopes.bound? id "super" = none := by
  intro start points
  have htrail : Trail start.scopes points _ :=
    Machine.trail_history ⟨Scopes.tree_globals, Nat.zero_lt_one⟩ fuel programs
  refine ⟨Machine.afterAll_lifetime programs start, htrail, htrail.pairwise, fun k hk => ?_⟩
  have hsound := htrail.sound k hk
  refine ⟨hsound, fun id hid => ?_⟩
  have htree := hsound.tree
  exact ⟨htree.getLast?_chain hid, fun name r => htree.search_iff hid,
    htree.exists_get_builtin hid, htree.bound?_of_reserved rfl id, htree.bound?_of_reserved rfl id⟩

/-- A counter is made, by a function that returns another one, and called. Then a program fails, and the
counter is called again. -/
private def counting : List (List Stmt) :=
  let s : Span := ⟨0, 0, 1⟩
  let count : Stmt := .expr (.call (.name "c" s) [] s) s
  let up : Expr := .assign "n" (.binary .add (.name "n" s) (.literal (.int 1) s) s) s
  let step : Stmt := .function "su" [] [.expr up s, .ret (some (.name "n" s)) s] s
  [[.function "conta" [] [.var "n" (some (.literal (.int 0) s)) s, step, .ret (some (.name "su" s)) s] s,
      .var "c" (some (.call (.name "conta" s) [] s)) s, count],
    [.expr (.questo s) s], [count]]

/-- The body of the second call runs in the last of four scopes. -/
theorem history_keeps_tree_counting :
    ∃ k ∈ (Machine.start .unlimited fun _ => 0).history 9 counting,
      k.machine.current = 3 ∧ 3 < k.machine.scopes.next ∧ k.Sound ∧
        (k.machine.scopes.chain 3).getLast? = some 0 ∧
        (∃ v, k.machine.scopes.get 3 "Scrive" = .ok v) ∧ k.machine.scopes.bound? 3 "questo" = none := by
  have hfound : (((Machine.start .unlimited fun _ => 0).history 9 counting).find?
      fun k => k.machine.current == 3).isSome = true := by decide +kernel
  obtain ⟨k, hk⟩ := Option.isSome_iff_exists.mp hfound
  have hmem := List.mem_of_find?_eq_some hk
  have hcurrent : k.machine.current = 3 := by simpa using List.find?_some hk
  obtain ⟨-, -, -, hpoints⟩ := history_keeps_tree .unlimited (fun _ => 0) 9 counting
  obtain ⟨hsound, htree⟩ := hpoints k hmem
  have hthree : 3 < k.machine.scopes.next := hcurrent ▸ hsound.current_lt
  obtain ⟨hchain, -, hbuiltin, hquesto, -⟩ := htree 3 hthree
  exact ⟨k, hmem, hcurrent, hthree, hsound, hchain, hbuiltin .scrive, hquesto⟩

end Copione
