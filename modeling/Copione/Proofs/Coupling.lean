import Copione.Eval
import Copione.Proofs.Likeness
import Copione.Proofs.Runs
/-!
# Coupled runs

Two runs of the evaluator side by side, on programs that are alike and from machines that
correspond. A coupling says which scopes and which tables of scopes correspond. If what the
evaluator does to scopes keeps to that, then the two runs end alike whatever the programs do.
-/
namespace Copione

/-- The machine that an action leaves behind, however it ends. -/
def Machine.after {α : Type} (m : Machine) (action : Eval α) : Machine :=
  match action m with
  | .ok _ m => m
  | .error _ m => m

def Machine.outcome {α : Type} (m : Machine) (action : Eval α) : Except Signal α :=
  match action m with
  | .ok a _ => .ok a
  | .error e _ => .error e

/-- What may differ between the values of two runs. -/
structure Pairing where
  span : Span → Span → Prop
  /-- The names that may be declared. -/
  name : String → Prop
  /-- Scopes in which names can be looked up. -/
  scope : ScopeId → ScopeId → Prop

structure Coupling extends Pairing where
  /-- Scopes in which names can be declared too. -/
  home : ScopeId → ScopeId → Prop
  scopes : Scopes → Scopes → Prop
  output : Output → Output → Prop

section Values

variable (P : Pairing)

inductive Closure.Alike : Closure → Closure → Prop
  | mk {serial : Nat} {name : String} {params : List String} {body body' : List Stmt}
    {scope scope' : ScopeId} (hparams : ∀ p ∈ params, P.name p)
    (hbody : Stmt.AllAlike P.span P.name true body body') (hscope : P.scope scope scope') :
    Closure.Alike ⟨serial, name, params, body, scope⟩ ⟨serial, name, params, body', scope'⟩

inductive Value.Alike : Value → Value → Prop
  | null : Value.Alike .null .null
  | bool (b : Bool) : Value.Alike (.bool b) (.bool b)
  | int (n : Int64) : Value.Alike (.int n) (.int n)
  | float (x : Float) : Value.Alike (.float x) (.float x)
  | str (s : String) : Value.Alike (.str s) (.str s)
  | builtin (b : Builtin) : Value.Alike (.function (.builtin b)) (.function (.builtin b))
  | closure {c c' : Closure} (h : c.Alike P c') :
    Value.Alike (.function (.closure c)) (.function (.closure c'))

namespace Pairing

def Admits (f : Fault) : Prop := ∀ n, f = .reservedWord n → isReserved n ∧ P.name n

/-- Lines of corresponding spans; if `bare` holds then there may be none yet. -/
inductive Line (bare : Bool) : Option Nat → Option Nat → Prop
  | none (h : bare = true) : Line bare none none
  | some {s s' : Span} (h : P.span s s') : Line bare (some s.line) (some s'.line)

inductive Answers {α β : Type} (rel : α → β → Prop) : Except Fault α → Except Fault β → Prop
  | ok {a : α} {b : β} (h : rel a b) : Answers rel (.ok a) (.ok b)
  | error {f g : Fault} (hf : P.Admits f) (hkind : g.kind = f.kind) (hmessage : g.message = f.message) :
    Answers rel (.error f) (.error g)

end Pairing

/-- Errors that say the same, or values that are returned with, which only happens if `inside`
holds. -/
inductive Signal.Alike (bare inside : Bool) : Signal → Signal → Prop
  | error {f : Fault} {line line' : Option Nat} (hf : P.Admits f) (hline : P.Line bare line line') :
    Signal.Alike bare inside (.error ⟨f.kind, f.message, line⟩) (.error ⟨f.kind, f.message, line'⟩)
  | returned {v w : Value} (h : inside = true) (hv : v.Alike P w) :
    Signal.Alike bare inside (.returned v) (.returned w)
  | exhausted : Signal.Alike bare inside .exhausted .exhausted

end Values

variable (C : Coupling)

namespace Coupling

structure Joined (i j : ScopeId) (m n : Machine) : Prop where
  left : m.current = i
  right : n.current = j
  scopes : C.scopes m.scopes n.scopes
  functions : m.functions = n.functions
  output : C.output m.output n.output
  clock : m.clock = n.clock
  readings : m.readings = n.readings

inductive Ends {α β : Type} (i j : ScopeId) (bare inside : Bool) (rel : α → β → Prop) :
    EStateM.Result Signal Machine α → EStateM.Result Signal Machine β → Prop
  | ok {a : α} {b : β} {m n : Machine} (h : rel a b) (hm : C.Joined i j m n) :
    Ends i j bare inside rel (.ok a m) (.ok b n)
  | error {e e' : Signal} {m n : Machine} (h : e.Alike C.toPairing bare inside e')
    (hm : C.Joined i j m n) :
    Ends i j bare inside rel (.error e m) (.error e' n)

/-- From corresponding machines the two programs end alike. -/
def Coupled {α β : Type} (i j : ScopeId) (bare inside : Bool) (rel : α → β → Prop) (x : Eval α)
    (y : Eval β) : Prop :=
  ∀ ⦃m n : Machine⦄, C.Joined i j m n → C.Ends i j bare inside rel (x m) (y n)

/-- What the evaluator does to scopes and to the output keeps them corresponding. -/
structure Lawful : Prop where
  home_scope {i j : ScopeId} : C.home i j → C.scope i j
  scopes_get {s t : Scopes} {i j : ScopeId} : C.scopes s t → C.scope i j → ∀ name,
    C.Answers (Value.Alike C.toPairing) (s.get i name) (t.get j name)
  scopes_assign {s t : Scopes} {i j : ScopeId} {v w : Value} : C.scopes s t → C.scope i j →
    v.Alike C.toPairing w → ∀ name,
    C.Answers (fun o o' => C.scopes (s.bind o name v) (t.bind o' name w))
      (s.assignee i name v) (t.assignee j name w)
  scopes_bind {s t : Scopes} {i j : ScopeId} {v w : Value} {name : String} : C.scopes s t → C.home i j →
    C.name name → v.Alike C.toPairing w → C.scopes (s.bind i name v) (t.bind j name w)
  scopes_push {s t : Scopes} {i j : ScopeId} : C.scopes s t → C.scope i j →
    C.scopes (s.push (.inside i)) (t.push (.inside j)) ∧ C.home s.next t.next
  output_take {o o' : Output} : C.output o o' → ∀ text,
    o'.hasRoom text = o.hasRoom text ∧ C.output (o.take text) (o'.take text)

end Coupling

namespace Closure.Alike

variable {P : Pairing} {c c' : Closure}

theorem refl (hspan : ∀ s ∈ Stmt.spansAll c.body, P.span s s) (hname : ∀ n, P.name n)
    (hscope : P.scope c.scope c.scope) : c.Alike P c :=
  .mk (fun p _ => hname p) (Stmt.all_alike_of_spans hname c.body hspan) hscope

theorem name_eq (h : c.Alike P c') : (Callable.closure c').name = (Callable.closure c).name := by
  cases h; rfl

theorem arity_eq (h : c.Alike P c') : (Callable.closure c').arity = (Callable.closure c).arity := by
  cases h; rfl

end Closure.Alike

namespace Value.Alike

variable {P : Pairing} {v w v' w' : Value}

theorem type_eq (h : v.Alike P w) : w.type = v.type := by cases h <;> rfl

theorem isTruthy_eq (h : v.Alike P w) : w.isTruthy = v.isTruthy := by cases h <;> rfl

private theorem display_eq (h : v.Alike P w) : w.display = v.display := by
  cases h with
  | closure h => cases h; rfl
  | _ => rfl

private theorem equals_eq (h : v.Alike P w) (h' : v'.Alike P w') : w.equals w' = v.equals v' := by
  cases h <;> cases h' <;> first | rfl | skip
  rename_i h _ _ h'
  cases h
  cases h'
  rfl

private theorem negate (h : v.Alike P w) : Option.Rel (Value.Alike P) (Eval.negate v)
    (Eval.negate w) := by
  cases h <;> constructor <;> constructor

theorem ofConstant (value : Constant) : (Value.ofConstant value).Alike P (.ofConstant value) := by
  cases value <;> constructor

theorem eq (hspan : ∀ s s', P.span s s' → s = s') (hscope : ∀ i j, P.scope i j → i = j)
    (h : v.Alike P w) : v = w := by
  cases h with
  | closure h =>
    cases h with
    | mk _ hbody hs => rw [Stmt.all_eq_of_alike hspan hbody, hscope _ _ hs]
  | _ => rfl

theorem refl (hclosure : ∀ c, v = .function (.closure c) → c.Alike P c) : v.Alike P v := by
  cases v with
  | function f =>
    cases f with
    | builtin b => exact .builtin b
    | closure c => exact .closure (hclosure c rfl)
  | _ => constructor

private theorem combine_eq (op : BinaryOp) (h : v.Alike P w) (h' : v'.Alike P w') :
    Eval.combine op w w' = Eval.combine op v v' := by
  have hequals := equals_eq h h'
  cases h with
  | closure _ => cases op <;> first | rfl | simp only [Eval.combine, hequals]
  | _ =>
    cases h' with
    | closure _ => cases op <;> rfl
    | _ => rfl

theorem combine_self {op : BinaryOp} {r : Value} (h : Eval.combine op v v' = some r) :
    r.Alike P r := by
  unfold Eval.combine at h
  split at h
  · obtain rfl := Option.some.inj h
    exact .bool _
  · obtain rfl := Option.some.inj h
    exact .bool _
  · obtain rfl := Option.some.inj h
    exact .str _
  · cases op <;> cases h <;> constructor
  · cases op <;> cases h <;> constructor
  · cases h

private theorem combine (op : BinaryOp) (h : v.Alike P w) (h' : v'.Alike P w') :
    Option.Rel (Value.Alike P) (Eval.combine op v v') (Eval.combine op w w') := by
  rw [combine_eq op h h']
  cases hr : Eval.combine op v v' with
  | none => exact .none
  | some r => exact .some (combine_self hr)

end Value.Alike

theorem Signal.Alike.eq {P : Pairing} {bare inside : Bool} {e e' : Signal}
    (hspan : ∀ s s', P.span s s' → s = s') (hscope : ∀ i j, P.scope i j → i = j)
    (h : e.Alike P bare inside e') : e = e' := by
  cases h with
  | error _ hline =>
    cases hline with
    | none _ => rfl
    | some hs => rw [hspan _ _ hs]
  | returned _ hv => rw [hv.eq hspan hscope]
  | exhausted => rfl

namespace Coupling

variable {C} {i j k l : ScopeId} {bare inside : Bool} {α β γ δ : Type} {rel : α → β → Prop}
  {rel' : γ → δ → Prop} {x : Eval α} {y : Eval β}

theorem Coupled.after {m n : Machine} (h : C.Coupled i j bare inside rel x y)
    (hm : C.Joined i j m n) : C.Joined i j (m.after x) (n.after y) := by
  have hends := h hm
  unfold Machine.after
  generalize x m = r at hends
  generalize y n = r' at hends
  cases hends with
  | ok _ hm => exact hm
  | error _ hm => exact hm

private theorem Ends.mono {bare' inside' : Bool} {rel' : α → β → Prop}
    {r : EStateM.Result Signal Machine α} {r' : EStateM.Result Signal Machine β}
    (h : C.Ends i j bare inside rel r r') (hbare : bare = true → bare' = true)
    (hinside : inside = true → inside' = true) (hrel : ∀ a b, rel a b → rel' a b) :
    C.Ends i j bare' inside' rel' r r' := by
  cases h with
  | ok hab hm => exact .ok (hrel _ _ hab) hm
  | error he hm =>
    refine .error ?_ hm
    cases he with
    | error hf hline =>
      refine .error hf ?_
      cases hline with
      | none hb => exact .none (hbare hb)
      | some hs => exact .some hs
    | returned hi hv => exact .returned (hinside hi) hv
    | exhausted => exact .exhausted

theorem Coupled.mono {bare' inside' : Bool} {rel' : α → β → Prop}
    (h : C.Coupled i j bare inside rel x y) (hbare : bare = true → bare' = true)
    (hinside : inside = true → inside' = true) (hrel : ∀ a b, rel a b → rel' a b) :
    C.Coupled i j bare' inside' rel' x y := fun _ _ hm => (h hm).mono hbare hinside hrel

theorem Coupled.loose (h : C.Coupled i j false false rel x y) : C.Coupled i j bare inside rel x y :=
  h.mono (by simp) (by simp) fun _ _ => id

theorem Coupled.bind {f : α → Eval γ} {g : β → Eval δ} (hx : C.Coupled i j bare inside rel x y)
    (hf : ∀ a b, rel a b → C.Coupled i j bare inside rel' (f a) (g b)) :
    C.Coupled i j bare inside rel' (x >>= f) (y >>= g) := by
  intro m n hm
  have hends := hx hm
  generalize hxm : x m = r at hends
  generalize hyn : y n = r' at hends
  cases hends with
  | ok hab hm =>
    rw [Run.bind_of_ok hxm, Run.bind_of_ok hyn]
    exact hf _ _ hab hm
  | error he hm =>
    rw [Run.bind_of_error hxm, Run.bind_of_error hyn]
    exact .error he hm

theorem coupled_pure {a : α} {b : β} (h : rel a b) :
    C.Coupled i j bare inside rel (pure a) (pure b) := fun _ _ hm => .ok h hm

theorem Coupled.discard (h : C.Coupled i j bare inside rel x y) :
    C.Coupled i j bare inside (fun _ _ => True) (Functor.discard x) (Functor.discard y) := by
  intro m n hm
  have hends := h hm
  generalize hxm : x m = r at hends
  generalize hyn : y n = r' at hends
  change C.Ends i j bare inside _ (((fun _ => ()) <$> x) m) (((fun _ => ()) <$> y) n)
  cases hends with
  | ok _ hm =>
    rw [Run.map_of_ok hxm, Run.map_of_ok hyn]
    exact .ok trivial hm
  | error he hm =>
    rw [Run.map_of_error hxm, Run.map_of_error hyn]
    exact .error he hm

theorem coupled_exhausted :
    C.Coupled i j bare inside rel (throw .exhausted) (throw .exhausted) :=
  fun _ _ hm => .error .exhausted hm

private theorem coupled_fail {f g : Fault} (hf : C.Admits f) (hkind : g.kind = f.kind)
    (hmessage : g.message = f.message) :
    C.Coupled i j true inside rel (Eval.fail f) (Eval.fail g) := by
  intro m n hm
  refine .error ?_ hm
  rw [RuntimeError.ofFault, RuntimeError.ofFault, hkind, hmessage]
  exact .error hf (.none rfl)

theorem Coupled.locate {s s' : Span} (hs : C.span s s') (h : C.Coupled i j true inside rel x y) :
    C.Coupled i j false inside rel (Eval.locate s.line x) (Eval.locate s'.line y) := by
  intro m n hm
  have hends := h hm
  unfold Eval.locate
  generalize x m = r at hends
  generalize y n = r' at hends
  cases hends with
  | ok hab hm => exact .ok hab hm
  | error he hm =>
    refine .error ?_ hm
    cases he with
    | error hf hline =>
      cases hline with
      | none _ => exact .error hf (.some hs)
      | some hs' => exact .error hf (.some hs')
    | returned hi hv => exact .returned hi hv
    | exhausted => exact .exhausted

theorem coupled_failAt {f g : Fault} {s s' : Span} (hs : C.span s s') (hf : C.Admits f)
    (hkind : g.kind = f.kind) (hmessage : g.message = f.message) :
    C.Coupled i j false inside rel (Eval.failAt s.line f) (Eval.failAt s'.line g) :=
  (coupled_fail hf hkind hmessage).locate hs

private theorem coupled_liftFault {a : Except Fault α} {b : Except Fault β} (h : C.Answers rel a b) :
    C.Coupled i j true inside rel (Eval.liftFault a) (Eval.liftFault b) := by
  cases h with
  | ok hab => exact coupled_pure hab
  | error hf hkind hmessage => exact coupled_fail hf hkind hmessage

theorem Coupled.within (h : C.Coupled k l bare inside rel x y) :
    C.Coupled i j bare inside rel (Eval.within k x) (Eval.within l y) := by
  intro m n hm
  have hends := h (m := { m with current := k }) (n := { n with current := l })
    ⟨rfl, rfl, hm.scopes, hm.functions, hm.output, hm.clock, hm.readings⟩
  unfold Eval.within
  dsimp only
  generalize x { m with current := k } = r at hends
  generalize y { n with current := l } = r' at hends
  cases hends with
  | ok hab hm' =>
    exact .ok hab ⟨hm.left, hm.right, hm'.scopes, hm'.functions, hm'.output, hm'.clock, hm'.readings⟩
  | error he hm' =>
    exact .error he ⟨hm.left, hm.right, hm'.scopes, hm'.functions, hm'.output, hm'.clock, hm'.readings⟩

theorem Coupled.catchReturn {x y : Eval Unit} {rel : Unit → Unit → Prop}
    (h : C.Coupled i j bare true rel x y) :
    C.Coupled i j bare inside (Value.Alike C.toPairing) (Eval.catchReturn x)
      (Eval.catchReturn y) := by
  intro m n hm
  have hends := h hm
  unfold Eval.catchReturn
  generalize x m = r at hends
  generalize y n = r' at hends
  cases hends with
  | ok _ hm => exact .ok .null hm
  | error he hm =>
    cases he with
    | error hf hline => exact .error (.error hf hline) hm
    | returned _ hv => exact .ok hv hm
    | exhausted => exact .error .exhausted hm

theorem Lawful.lookup (hC : C.Lawful) (hscope : C.scope i j) (name : String) :
    C.Coupled i j true inside (Value.Alike C.toPairing) (Eval.lookup name) (Eval.lookup name) := by
  intro m n hm
  have hget := hC.scopes_get hm.scopes hscope name
  rw [← hm.left, ← hm.right] at hget
  exact coupled_liftFault hget hm

private theorem Lawful.bindIn (hC : C.Lawful) (hhome : C.home k l) {name : String} (hname : C.name name)
    {v w : Value} (hv : v.Alike C.toPairing w) :
    C.Coupled i j bare inside (fun _ _ => True) (Eval.bindIn k name v) (Eval.bindIn l name w) :=
  fun _ _ hm => .ok trivial ⟨hm.left, hm.right, hC.scopes_bind hm.scopes hhome hname hv, hm.functions,
    hm.output, hm.clock, hm.readings⟩

theorem Lawful.defineIn (hC : C.Lawful) (hhome : C.home k l) {name : String} (hname : C.name name)
    {v w : Value} (hv : v.Alike C.toPairing w) :
    C.Coupled i j true inside (fun _ _ => True) (Eval.defineIn k name v) (Eval.defineIn l name w) := by
  have hcheck : C.Answers (fun _ _ => True) (Scopes.checkName name) (Scopes.checkName name) := by
    unfold Scopes.checkName
    by_cases hreserved : isReserved name
    · rw [if_pos hreserved]
      refine .error ?_ rfl rfl
      intro n hn
      obtain rfl := Fault.reservedWord.inj hn
      exact ⟨hreserved, hname⟩
    · rw [if_neg hreserved]
      exact .ok trivial
  exact (coupled_liftFault hcheck).bind fun _ _ _ => hC.bindIn hhome hname hv

theorem Lawful.define (hC : C.Lawful) (hhome : C.home i j) {name : String} (hname : C.name name)
    {v w : Value} (hv : v.Alike C.toPairing w) :
    C.Coupled i j true inside (fun _ _ => True) (Eval.define name v) (Eval.define name w) := by
  intro m n hm
  have hdefine : C.Ends i j true inside _ _ _ := hC.defineIn hhome hname hv hm
  rw [← hm.left, ← hm.right] at hdefine ⊢
  exact hdefine

theorem Lawful.assign (hC : C.Lawful) (hscope : C.scope i j) (name : String) {v w : Value}
    (hv : v.Alike C.toPairing w) :
    C.Coupled i j true inside (fun _ _ => True) (Eval.assign name v) (Eval.assign name w) := by
  intro m n hm
  have hassign := hC.scopes_assign hm.scopes hscope hv name
  rw [← hm.left, ← hm.right] at hassign
  have hleft : Eval.assign name v m =
      (Eval.liftFault (m.scopes.assignee m.current name v) >>= fun o => Eval.bindIn o name v) m := rfl
  have hright : Eval.assign name w n =
      (Eval.liftFault (n.scopes.assignee n.current name w) >>= fun o => Eval.bindIn o name w) n := rfl
  rw [hleft, hright]
  generalize m.scopes.assignee m.current name v = a at hassign ⊢
  generalize n.scopes.assignee n.current name w = b at hassign ⊢
  cases hassign with
  | ok hscopes =>
    exact .ok trivial ⟨hm.left, hm.right, hscopes, hm.functions, hm.output, hm.clock, hm.readings⟩
  | error hf hkind hmessage => exact coupled_fail hf hkind hmessage hm

theorem Lawful.newScope (hC : C.Lawful) (hscope : C.scope k l) :
    C.Coupled i j bare inside C.home (Eval.newScope k) (Eval.newScope l) := by
  intro m n hm
  obtain ⟨hscopes, hhome⟩ := hC.scopes_push hm.scopes hscope
  exact .ok hhome ⟨hm.left, hm.right, hscopes, hm.functions, hm.output, hm.clock, hm.readings⟩

private theorem write_apply (text : String) (m : Machine) :
    Eval.write text m = if m.output.hasRoom text then
      .ok () { m with output := m.output.take text }
    else Eval.fail (.outputFailed "device full") m := by
  rw [Eval.write, Run.bind_of_ok Run.get_apply]
  split <;> rfl

private theorem Lawful.write (hC : C.Lawful) (text : String) :
    C.Coupled i j true inside (fun _ _ => True) (Eval.write text) (Eval.write text) := by
  intro m n hm
  obtain ⟨hsame, htake⟩ := hC.output_take hm.output text
  rw [write_apply, write_apply, hsame]
  by_cases hroom : m.output.hasRoom text
  · rw [if_pos hroom, if_pos hroom]
    exact .ok trivial ⟨hm.left, hm.right, hm.scopes, hm.functions, htake, hm.clock, hm.readings⟩
  · rw [if_neg hroom, if_neg hroom]
    exact coupled_fail (fun _ h => by cases h) rfl rfl hm

private theorem coupled_readClock :
    C.Coupled i j bare inside Eq Eval.readClock Eval.readClock := by
  intro m n hm
  refine .ok ?_ ⟨hm.left, hm.right, hm.scopes, hm.functions, hm.output, hm.clock, ?_⟩
  · rw [hm.clock, hm.readings]
  · rw [hm.readings]

theorem admits_of_ne {f : Fault} (h : ∀ n, f ≠ .reservedWord n) : C.Admits f :=
  fun n hn => absurd hn (h n)

theorem coupled_applyUnary (op : UnaryOp) {v w : Value} (hv : v.Alike C.toPairing w) {s s' : Span}
    (hs : C.span s s') :
    C.Coupled i j false inside (Value.Alike C.toPairing) (Eval.applyUnary op v s.line)
      (Eval.applyUnary op w s'.line) := by
  cases op with
  | not =>
    rw [Eval.applyUnary, Eval.applyUnary, hv.isTruthy_eq]
    exact coupled_pure (.bool _)
  | negate =>
    have hnegate := hv.negate
    unfold Eval.applyUnary
    dsimp only
    generalize Eval.negate v = a at hnegate
    generalize Eval.negate w = b at hnegate
    cases hnegate with
    | some h => exact coupled_pure h
    | none =>
      rw [hv.type_eq]
      exact coupled_failAt hs (admits_of_ne (by simp)) rfl rfl

theorem coupled_applyBinary (op : BinaryOp) {v w v' w' : Value} (hv : v.Alike C.toPairing w)
    (hv' : v'.Alike C.toPairing w') {s s' : Span} (hs : C.span s s') :
    C.Coupled i j false inside (Value.Alike C.toPairing) (Eval.applyBinary op v v' s.line)
      (Eval.applyBinary op w w' s'.line) := by
  have hcombine := hv.combine op hv'
  unfold Eval.applyBinary
  generalize Eval.combine op v v' = a at hcombine
  generalize Eval.combine op w w' = b at hcombine
  cases hcombine with
  | some h => exact coupled_pure h
  | none =>
    rw [hv.type_eq, hv'.type_eq]
    exact coupled_failAt hs (admits_of_ne (by simp)) rfl rfl

theorem coupled_expectBool (op : LogicalOp) {v w : Value} (hv : v.Alike C.toPairing w) {s s' : Span}
    (hs : C.span s s') :
    C.Coupled i j false inside Eq (Eval.expectBool op s.line v) (Eval.expectBool op s'.line w) := by
  cases hv with
  | bool b => exact coupled_pure rfl
  | _ => exact coupled_failAt hs (admits_of_ne (by simp)) rfl rfl

private theorem message_cannotConvert {v w : Value} (hv : v.Alike C.toPairing w)
    (target : ValueType) :
    (Fault.cannotConvert w target).message = (Fault.cannotConvert v target).message := by
  have htype := hv.type_eq
  have hdisplay := hv.display_eq
  unfold Fault.message
  dsimp only
  rw [htype, hdisplay]

private theorem answers_convert {convert : Value → Except Fault α} {target : ValueType}
    (hfunction : ∀ f, convert (.function f) = .error (.cannotConvert (.function f) target))
    (herror : ∀ v f, convert v = .error f → f = .cannotConvert v target) {v w : Value}
    (hv : v.Alike C.toPairing w) : C.Answers Eq (convert v) (convert w) := by
  have hself (v : Value) : C.Answers Eq (convert v) (convert v) := by
    cases hconvert : convert v with
    | ok a => exact .ok rfl
    | error f =>
      rw [herror v f hconvert]
      exact .error (admits_of_ne (by simp)) rfl rfl
  have hmessage := message_cannotConvert hv target
  cases hv with
  | closure h =>
    rw [hfunction, hfunction]
    exact .error (admits_of_ne (by simp)) rfl hmessage
  | _ => exact hself _

private theorem answers_toInteger {v w : Value} (hv : v.Alike C.toPairing w) :
    C.Answers Eq v.toInteger w.toInteger := by
  refine answers_convert (fun _ => rfl) (fun v f h => ?_) hv
  unfold Value.toInteger at h
  dsimp only at h
  split at h
  · cases h
  · exact (Except.error.inj h).symm

private theorem answers_toFloat {v w : Value} (hv : v.Alike C.toPairing w) :
    C.Answers Eq v.toFloat w.toFloat := by
  refine answers_convert (fun _ => rfl) (fun v f h => ?_) hv
  unfold Value.toFloat at h
  dsimp only at h
  split at h
  · cases h
  · exact (Except.error.inj h).symm

private theorem answers_toBool {v w : Value} (hv : v.Alike C.toPairing w) :
    C.Answers Eq v.toBool w.toBool := by
  refine answers_convert (fun _ => rfl) (fun v f h => ?_) hv
  unfold Value.toBool at h
  dsimp only at h
  split at h
  · cases h
  · exact (Except.error.inj h).symm

theorem Lawful.callBuiltin (hC : C.Lawful) (b : Builtin) {args args' : List Value}
    (hargs : List.Forall₂ (Value.Alike C.toPairing) args args') :
    C.Coupled i j true inside (Value.Alike C.toPairing) (Eval.callBuiltin b args)
      (Eval.callBuiltin b args') := by
  have harg : (args.headD .null).Alike C.toPairing (args'.headD .null) := by
    cases hargs with
    | nil => exact .null
    | cons h _ => exact h
  unfold Eval.callBuiltin
  cases b with
  | scrive =>
    dsimp only
    rw [harg.display_eq]
    exact (hC.write _).bind fun _ _ _ => coupled_pure .null
  | scriveLina =>
    dsimp only
    rw [harg.display_eq]
    exact (hC.write _).bind fun _ _ _ => coupled_pure .null
  | tipoDiDato =>
    dsimp only
    rw [harg.type_eq]
    exact coupled_pure (.str _)
  | trasformaInIntero =>
    dsimp only
    refine (coupled_liftFault (answers_toInteger harg)).bind ?_
    rintro a _ rfl
    exact coupled_pure (.int a)
  | trasformaInVirgola =>
    dsimp only
    refine (coupled_liftFault (answers_toFloat harg)).bind ?_
    rintro a _ rfl
    exact coupled_pure (.float a)
  | trasformaInBool =>
    dsimp only
    refine (coupled_liftFault (answers_toBool harg)).bind ?_
    rintro a _ rfl
    exact coupled_pure (.bool a)
  | trasformaInStringa =>
    dsimp only
    rw [harg.display_eq]
    exact coupled_pure (.str _)
  | tempoMillis =>
    dsimp only
    refine coupled_readClock.bind ?_
    rintro x _ rfl
    exact coupled_pure (.float x)

end Coupling
end Copione
