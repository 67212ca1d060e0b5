import Copione.Proofs.Coupling
/-!
# Coupled evaluation

Expressions that are alike evaluate alike, and statements that are alike run alike, under every
lawful coupling. Evaluation needs only that the two current scopes correspond for looking names up;
a statement may declare names, for which they have to be homes.
-/
namespace Copione.Coupling

variable {C : Coupling} {i j k l : ScopeId} {inside : Bool} {eval : Expr → Eval Value}
  {exec : Stmt → Eval Unit}

variable (C) in
def EvalsAlike (eval : Expr → Eval Value) : Prop :=
  ∀ ⦃i j : ScopeId⦄ ⦃e e' : Expr⦄, C.scope i j → e.Alike C.span e' →
    C.Coupled i j false false (Value.Alike C.toPairing) (eval e) (eval e')

variable (C) in
def ExecsAlike (exec : Stmt → Eval Unit) : Prop :=
  ∀ ⦃i j : ScopeId⦄ ⦃inside : Bool⦄ ⦃s s' : Stmt⦄, C.home i j →
    Stmt.Alike C.span C.name inside s s' →
    C.Coupled i j false inside (fun _ _ => True) (exec s) (exec s')

private theorem EvalsAlike.evalAll (h : C.EvalsAlike eval) (hscope : C.scope i j) {es es' : List Expr}
    (hes : List.Forall₂ (Expr.Alike C.span) es es') :
    C.Coupled i j false false (List.Forall₂ (Value.Alike C.toPairing)) (Eval.evalAll eval es)
      (Eval.evalAll eval es') := by
  induction hes with
  | nil => exact coupled_pure .nil
  | cons he _ ih =>
    exact (h hscope he).bind fun _ _ hv => ih.bind fun _ _ hvs => coupled_pure (.cons hv hvs)

private theorem EvalsAlike.evalOption (h : C.EvalsAlike eval) (hscope : C.scope i j)
    {e e' : Option Expr}
    (he : Option.Rel (Expr.Alike C.span) e e') :
    C.Coupled i j false inside (Value.Alike C.toPairing) (Eval.evalOption eval e)
      (Eval.evalOption eval e') := by
  cases he with
  | none => exact coupled_pure .null
  | some he => exact (h hscope he).loose

theorem ExecsAlike.runAll (h : C.ExecsAlike exec) (hhome : C.home i j) {ss ss' : List Stmt}
    (hss : Stmt.AllAlike C.span C.name inside ss ss') :
    C.Coupled i j false inside (fun _ _ => True) (Eval.runAll exec ss) (Eval.runAll exec ss') := by
  induction ss generalizing ss' with
  | nil => cases hss; exact coupled_pure trivial
  | cons s ss ih =>
    cases hss with
    | cons hs hss => exact (h hhome hs).bind fun _ _ _ => ih hss

private theorem Lawful.bindParams (hC : C.Lawful) (hhome : C.home k l) {params : List String}
    (hparams : ∀ p ∈ params, C.name p) {args args' : List Value}
    (hargs : List.Forall₂ (Value.Alike C.toPairing) args args') :
    C.Coupled i j true inside (fun _ _ => True) (Eval.bindParams k params args)
      (Eval.bindParams l params args') := by
  induction params generalizing args args' with
  | nil => exact coupled_pure trivial
  | cons p params ih =>
    cases hargs with
    | nil => exact coupled_pure trivial
    | cons hv hargs =>
      have hp := hparams p (by simp)
      have hps : ∀ q ∈ params, C.name q := fun q hq => hparams q (by simp [hq])
      exact (hC.defineIn hhome hp hv).bind fun _ _ _ => ih hps hargs

theorem Lawful.callBody (hC : C.Lawful) (h : C.ExecsAlike exec) (hhome : C.home k l)
    {params : List String} (hparams : ∀ p ∈ params, C.name p) {body body' : List Stmt}
    (hbody : Stmt.AllAlike C.span C.name true body body') {args args' : List Value}
    (hargs : List.Forall₂ (Value.Alike C.toPairing) args args') :
    C.Coupled i j true inside (Value.Alike C.toPairing)
      (do
        Eval.bindParams k params args
        Eval.catchReturn (Eval.within k (Eval.runAll exec body)))
      (do
        Eval.bindParams l params args'
        Eval.catchReturn (Eval.within l (Eval.runAll exec body'))) := by
  refine (hC.bindParams hhome hparams hargs).bind fun _ _ _ => ?_
  have hrun : C.Coupled i j true true (fun _ _ => True) _ _ :=
    (h.runAll hhome hbody).within.mono (by simp) id fun _ _ => id
  exact hrun.catchReturn

/-- A call runs in a scope of its own, inside the one that its function remembers: where it is
called from does not matter. -/
theorem Lawful.callClosure (hC : C.Lawful) (h : C.ExecsAlike exec) {c c' : Closure}
    (hc : c.Alike C.toPairing c') {args args' : List Value}
    (hargs : List.Forall₂ (Value.Alike C.toPairing) args args') :
    C.Coupled i j true inside (Value.Alike C.toPairing) (Eval.callClosure exec c args)
      (Eval.callClosure exec c' args') := by
  cases hc with
  | mk hparams hbody hscope =>
    exact (hC.newScope hscope).bind fun _ _ hhome => hC.callBody h hhome hparams hbody hargs

theorem Lawful.apply (hC : C.Lawful) (h : C.ExecsAlike exec) {s s' : Span} (hs : C.span s s')
    {f g : Value} (hf : f.Alike C.toPairing g) {args args' : List Value}
    (hargs : List.Forall₂ (Value.Alike C.toPairing) args args') :
    C.Coupled i j false inside (Value.Alike C.toPairing) (Eval.apply exec s.line f args)
      (Eval.apply exec s'.line g args') := by
  have hlength : args'.length = args.length := hargs.length_eq.symm
  cases hf with
  | builtin b =>
    unfold Eval.apply
    dsimp only
    rw [hlength]
    split
    · exact coupled_failAt hs (admits_of_ne (by simp)) rfl rfl
    · exact (hC.callBuiltin b hargs).locate hs
  | closure hc =>
    unfold Eval.apply
    dsimp only
    rw [hlength, hc.name_eq, hc.arity_eq]
    split
    · exact coupled_failAt hs (admits_of_ne (by simp)) rfl rfl
    · exact (hC.callClosure h hc hargs).locate hs
  | _ => exact coupled_failAt hs (admits_of_ne (by simp)) rfl rfl

private theorem loopTurn_coupled (heval : C.EvalsAlike eval) (hexec : C.ExecsAlike exec)
    (hC : C.Lawful) (hhome : C.home i j) {e e' : Expr} (he : e.Alike C.span e') {s s' : Stmt}
    (hs : Stmt.Alike C.span C.name inside s s') :
    C.Coupled i j false inside Eq (Eval.loopTurn eval exec e s) (Eval.loopTurn eval exec e' s') := by
  refine (heval (hC.home_scope hhome) he).loose.bind fun v w hv => ?_
  dsimp only
  rw [hv.type_eq, hv.isTruthy_eq]
  have hbody : C.Coupled i j false inside Eq
      (if v.isTruthy = true then do exec s; return true else return false)
      (if v.isTruthy = true then do exec s'; return true else return false) := by
    split
    · exact (hexec hhome hs).bind fun _ _ _ => coupled_pure rfl
    · exact coupled_pure rfl
  split
  · have hfail : C.Coupled i j false inside (fun _ _ => True)
        (Eval.failAt e.span.line .emptyCondition : Eval PUnit)
        (Eval.failAt e'.span.line .emptyCondition : Eval PUnit) :=
      coupled_failAt he.span (admits_of_ne (by simp)) rfl rfl
    exact hfail.bind fun _ _ _ => hbody
  · exact hbody

private theorem repeatWhile_coupled {turn turn' : Eval Bool}
    (h : C.Coupled i j false inside Eq turn turn')
    (fuel : Nat) :
    C.Coupled i j false inside (fun _ _ => True) (Eval.repeatWhile turn fuel)
      (Eval.repeatWhile turn' fuel) := by
  induction fuel with
  | zero => exact coupled_exhausted
  | succ fuel ih =>
    refine h.bind ?_
    rintro b _ rfl
    cases b with
    | false => exact coupled_pure trivial
    | true => exact ih

private theorem Lawful.declareFunction (hC : C.Lawful) (hhome : C.home i j) {name : String}
    (hname : C.name name) {params : List String} (hparams : ∀ p ∈ params, C.name p)
    {body body' : List Stmt} (hbody : Stmt.AllAlike C.span C.name true body body') :
    C.Coupled i j true inside (fun _ _ => True) (Eval.declareFunction name params body)
      (Eval.declareFunction name params body') := by
  intro m n hm
  have hm' : C.Joined i j { m with functions := m.functions + 1 }
      { n with functions := n.functions + 1 } :=
    ⟨hm.left, hm.right, hm.scopes, by simp [hm.functions], hm.output, hm.clock, hm.readings⟩
  have hv : (Value.function (.closure ⟨m.functions, name, params, body, m.current⟩)).Alike C.toPairing
      (.function (.closure ⟨n.functions, name, params, body', n.current⟩)) := by
    rw [hm.functions, hm.left, hm.right]
    exact .closure (.mk hparams hbody (hC.home_scope hhome))
  exact hC.define hhome hname hv hm'

private theorem Lawful.block (hC : C.Lawful) (h : C.ExecsAlike exec) (hscope : C.scope i j)
    {ss ss' : List Stmt} (hss : Stmt.AllAlike C.span C.name inside ss ss') :
    C.Coupled i j false inside (fun _ _ => True)
      (do let scope ← Eval.newScope (← get).current; Eval.within scope (Eval.runAll exec ss))
      (do let scope ← Eval.newScope (← get).current; Eval.within scope (Eval.runAll exec ss')) := by
  intro m n hm
  rw [Run.bind_of_ok Run.get_apply, Run.bind_of_ok Run.get_apply, hm.left, hm.right]
  exact (hC.newScope hscope).bind (fun _ _ hhome => (h.runAll hhome hss).within) hm

private theorem Lawful.eval_step (hC : C.Lawful) {fuel : Nat} (heval : C.EvalsAlike (Eval.eval fuel))
    (hexec : C.ExecsAlike (Eval.exec fuel)) : C.EvalsAlike (Eval.eval (fuel + 1)) := by
  intro i j e e' hscope h
  unfold Eval.eval
  cases h with
  | literal value _ => exact coupled_pure (.ofConstant value)
  | name n hs => exact (hC.lookup hscope n).locate hs
  | group h _ => exact heval hscope h
  | unary op h hs => exact (heval hscope h).bind fun _ _ hv => coupled_applyUnary op hv hs
  | binary op hleft hright hs =>
    exact (heval hscope hleft).bind fun _ _ hv => (heval hscope hright).bind fun _ _ hv' =>
      coupled_applyBinary op hv hv' hs
  | logical op hleft hright hs =>
    refine (heval hscope hleft).bind fun _ _ hv => (coupled_expectBool op hv hs).bind ?_
    rintro a _ rfl
    split
    · exact coupled_pure (.bool _)
    · refine (heval hscope hright).bind fun _ _ hv => (coupled_expectBool op hv hs).bind ?_
      rintro b _ rfl
      exact coupled_pure (.bool _)
  | assign n h hs =>
    exact (heval hscope h).bind fun _ _ hv => ((hC.assign hscope n hv).locate hs).bind fun _ _ _ =>
      coupled_pure hv
  | call hcallee harguments hs =>
    exact (heval hscope hcallee).bind fun _ _ hf => (heval.evalAll hscope harguments).bind
      fun _ _ hargs => hC.apply hexec hs hf hargs
  | get n h hs =>
    refine (heval hscope h).bind fun _ _ hv => ?_
    rw [hv.type_eq]
    exact coupled_failAt hs (admits_of_ne (by simp)) rfl rfl
  | set n hobject _ hs =>
    refine (heval hscope hobject).bind fun _ _ hv => ?_
    rw [hv.type_eq]
    exact coupled_failAt hs (admits_of_ne (by simp)) rfl rfl
  | questo hs => exact (hC.lookup hscope _).locate hs
  | super _ hs => exact (hC.lookup hscope _).locate hs

private theorem Lawful.exec_step (hC : C.Lawful) {fuel : Nat} (heval : C.EvalsAlike (Eval.eval fuel))
    (hexec : C.ExecsAlike (Eval.exec fuel)) : C.ExecsAlike (Eval.exec (fuel + 1)) := by
  intro i j inside s s' hhome h
  have hscope := hC.home_scope hhome
  unfold Eval.exec
  cases h with
  | expr h _ => exact (heval hscope h).loose.discard
  | var hname h hs =>
    exact (heval.evalOption hscope h).bind fun _ _ hv => (hC.define hhome hname hv).locate hs
  | block h _ => exact hC.block hexec hscope h
  | onlyThen hcondition hthen _ =>
    refine (heval hscope hcondition).loose.bind fun _ _ hv => ?_
    dsimp only
    rw [hv.isTruthy_eq]
    split
    · exact hexec hhome hthen
    · exact coupled_pure trivial
  | thenElse hcondition hthen helse _ =>
    refine (heval hscope hcondition).loose.bind fun _ _ hv => ?_
    dsimp only
    rw [hv.isTruthy_eq]
    split
    · exact hexec hhome hthen
    · exact hexec hhome helse
  | loop hcondition hbody _ =>
    exact repeatWhile_coupled (loopTurn_coupled heval hexec hC hhome hcondition hbody) fuel
  | function hname hparams h hs => exact (hC.declareFunction hhome hname hparams h).locate hs
  | ret h _ =>
    refine (heval.evalOption hscope h).bind fun _ _ hv => ?_
    exact fun _ _ hm => .error (.returned rfl hv) hm

/-- Programs that are alike run alike, however deep they go. -/
theorem Lawful.eval_exec (hC : C.Lawful) (fuel : Nat) :
    C.EvalsAlike (Eval.eval fuel) ∧ C.ExecsAlike (Eval.exec fuel) := by
  induction fuel with
  | zero =>
    constructor
    · intro i j e e' _ _
      exact coupled_exhausted
    · intro i j inside s s' _ _
      exact coupled_exhausted
  | succ fuel ih => exact ⟨hC.eval_step ih.1 ih.2, hC.exec_step ih.1 ih.2⟩

theorem Lawful.exec_block (hC : C.Lawful) (hscope : C.scope i j) {body body' : List Stmt}
    (h : Stmt.AllAlike C.span C.name inside body body') (s s' : Span) (fuel : Nat) :
    C.Coupled i j false inside (fun _ _ => True) (Eval.exec fuel (.block body s))
      (Eval.exec fuel (.block body' s')) := by
  cases fuel with
  | zero => exact coupled_exhausted
  | succ fuel => exact hC.block (hC.eval_exec fuel).2 hscope h

end Copione.Coupling
