import Copione.Proofs.ScopeInvariants
/-!
# Bindings are stable

Whatever is evaluated, the scopes that were there keep their names, and their values keep their
types unless they are `niente`. Only a declaration in a scope itself adds a name to it or gives
one a value of another type.
-/
namespace Copione

/-- What a binding may hold later: `niente` gives way to every value, any other value only to one
of its type. -/
def Value.KeepsType (before after : Value) : Prop := before.type ≠ .null → after.type = before.type

private theorem Value.KeepsType.trans {u v w : Value} (huv : u.KeepsType v) (hvw : v.KeepsType w) :
    u.KeepsType w := by
  intro hu
  have hv := huv hu
  rw [← hv] at hu ⊢
  exact hvw hu

def Scopes.Steady (before after : Scopes) (id : ScopeId) (name : String) : Prop :=
  Option.Rel Value.KeepsType (before.bound? id name) (after.bound? id name)

/-- The machine is in the scope it was in, has the scopes it had, and these bind what they bound:
all but the `redeclared` names in the scope that it is in. -/
structure Machine.Keeps (redeclared : List String) (before after : Machine) : Prop where
  current : after.current = before.current
  grown : before.scopes.next ≤ after.scopes.next
  steady : ∀ id < before.scopes.next, ∀ name, (id = before.current → name ∉ redeclared) →
    before.scopes.Steady after.scopes id name

/-- The names that a statement declares in the scope it runs in, and not in one of its own. -/
def Stmt.declared : Stmt → List String
  | .var name _ _ => [name]
  | .function name _ _ _ => [name]
  | .cond _ thenBranch none _ => thenBranch.declared
  | .cond _ thenBranch (some elseBranch) _ => thenBranch.declared ++ elseBranch.declared
  | .loop _ body _ => body.declared
  | _ => []

namespace Scopes

private theorem steady_of_bound_eq {s t : Scopes} {id : ScopeId} {name : String}
    (h : t.bound? id name = s.bound? id name) : s.Steady t id name := by
  unfold Steady
  rw [h]
  cases s.bound? id name with
  | none => exact .none
  | some v => exact .some fun _ => rfl

private theorem Steady.trans {s t u : Scopes} {id : ScopeId} {name : String} (hst : s.Steady t id name)
    (htu : t.Steady u id name) : s.Steady u id name := by
  unfold Steady at *
  generalize s.bound? id name = a at hst
  generalize t.bound? id name = b at hst htu
  generalize u.bound? id name = c at htu
  cases hst with
  | none => exact htu
  | some hvw =>
    cases htu with
    | some hwu => exact .some (hvw.trans hwu)

private theorem steady_assign {s : Scopes} {i owner : ScopeId} {name : String} {value : Value}
    (h : s.assignee i name value = .ok owner) (id : ScopeId) (n : String) :
    s.Steady (s.bind owner name value) id n := by
  by_cases hsame : owner = id ∧ n = name
  · obtain ⟨rfl, rfl⟩ := hsame
    obtain ⟨held, hheld, htype⟩ := bound_of_assignee h
    unfold Steady
    rw [bound?_bind_self value hheld, hheld]
    exact .some htype
  · refine steady_of_bound_eq (bound?_bind_of_ne s value ?_)
    by_cases hid : owner = id
    · exact .inr fun hn => hsame ⟨hid, hn⟩
    · exact .inl hid

end Scopes

namespace Machine.Keeps

variable {names names' : List String} {m n k : Machine}

private theorem refl (m : Machine) : m.Keeps names m :=
  ⟨rfl, Nat.le_refl _, fun _ _ _ _ => Scopes.steady_of_bound_eq rfl⟩

private theorem trans (hmn : m.Keeps names n) (hnk : n.Keeps names k) : m.Keeps names k := by
  refine ⟨hnk.current.trans hmn.current, Nat.le_trans hmn.grown hnk.grown, ?_⟩
  intro id hid name hname
  refine (hmn.steady id hid name hname).trans ?_
  exact hnk.steady id (Nat.lt_of_lt_of_le hid hmn.grown) name (by rwa [hmn.current])

private theorem mono (h : m.Keeps names n) (hnames : names ⊆ names') : m.Keeps names' n :=
  ⟨h.current, h.grown, fun id hid name hname =>
    h.steady id hid name fun hcurrent hmem => hname hcurrent (hnames hmem)⟩

end Machine.Keeps

/-- What was there is steady as long as names are declared only in scopes that were not there. -/
theorem Scopes.steady_invariant (base : Scopes) :
    Invariant (fun s => base.next ≤ s.next ∧ ∀ id < base.next, ∀ name, base.Steady s id name)
      (base.next ≤ ·) where
  assign := by
    rintro s i owner name value ⟨hnext, hbase⟩ hassign
    refine ⟨by simpa using hnext, fun id hid n => ?_⟩
    exact (hbase id hid n).trans (steady_assign hassign id n)
  declare := by
    rintro s i name value ⟨hnext, hbase⟩ hi
    refine ⟨by simpa using hnext, fun id hid n => (hbase id hid n).trans ?_⟩
    have hne : i ≠ id := Nat.ne_of_gt (Nat.lt_of_lt_of_le hid hi)
    exact steady_of_bound_eq (bound?_bind_of_ne s value (.inl hne))
  enter := by
    rintro s i ⟨hnext, hbase⟩
    refine ⟨⟨by simpa using Nat.le_succ_of_le hnext, fun id hid n => ?_⟩, hnext⟩
    exact (hbase id hid n).trans (steady_of_bound_eq (bound?_push s i id n))

private theorem Scopes.steady_self (s : Scopes) :
    s.next ≤ s.next ∧ ∀ id < s.next, ∀ name, s.Steady s id name :=
  ⟨Nat.le_refl _, fun _ _ _ => steady_of_bound_eq rfl⟩

namespace Eval

open Scopes

private theorem keeps_eval (m : Machine) (fuel : Nat) (e : Expr) : m.Keeps []
    (m.after (eval fuel e)) := by
  obtain ⟨hcurrent, hgrown, hsteady⟩ :=
    (steady_invariant m.scopes).eval m.scopes.steady_self fuel e
  exact ⟨hcurrent, hgrown, fun id hid name _ => hsteady id hid name⟩

private theorem keeps_block (m : Machine) (fuel : Nat) (body : List Stmt) (span : Span) :
    m.Keeps [] (m.after (exec fuel (.block body span))) := by
  obtain ⟨hcurrent, hgrown, hsteady⟩ :=
    (steady_invariant m.scopes).block m.scopes.steady_self fuel body span
  exact ⟨hcurrent, hgrown, fun id hid name _ => hsteady id hid name⟩

private theorem keeps_apply (m : Machine) (fuel line : Nat) (callee : Value) (args : List Value) :
    m.Keeps [] (m.after (apply (exec fuel) line callee args)) := by
  obtain ⟨hcurrent, hgrown, hsteady⟩ :=
    (steady_invariant m.scopes).apply m.scopes.steady_self fuel line callee args
  exact ⟨hcurrent, hgrown, fun id hid name _ => hsteady id hid name⟩

def Keeping {α : Type} (names : List String) (x : Eval α) : Prop :=
  ∀ m : Machine, m.Keeps names (m.after x)

variable {α β : Type} {names names' : List String} {x : Eval α}

private theorem Keeping.mono (h : Keeping names x) (hnames : names ⊆ names') : Keeping names' x :=
  fun m => (h m).mono hnames

private theorem keeping_pure (a : α) : Keeping names (pure a : Eval α) := fun m => .refl m

private theorem keeping_throw (e : Signal) : Keeping names (throw e : Eval α) := fun m => .refl m

private theorem Keeping.bind {f : α → Eval β} (hx : Keeping names x) (hf : ∀ a, Keeping names (f a)) :
    Keeping names (x >>= f) := by
  intro m
  have hm := hx m
  unfold Machine.after at hm ⊢
  cases hxm : x m with
  | ok a n =>
    rw [Run.bind_of_ok hxm]
    rw [hxm] at hm
    exact hm.trans (hf a n)
  | error e n =>
    rw [Run.bind_of_error hxm]
    rw [hxm] at hm
    exact hm

private theorem Keeping.discard (h : Keeping names x) : Keeping names (Functor.discard x) := by
  intro m
  have hm := h m
  change m.Keeps names (m.after ((fun _ => ()) <$> x))
  unfold Machine.after at hm ⊢
  cases hxm : x m with
  | ok a n => simpa only [Run.map_of_ok hxm, hxm] using hm
  | error e n => simpa only [Run.map_of_error hxm, hxm] using hm

private theorem Keeping.locate (h : Keeping names x) (line : Nat) : Keeping names (locate line x) := by
  intro m
  have hm := h m
  unfold Machine.after Eval.locate at *
  cases hxm : x m with
  | ok a n => simpa only [hxm] using hm
  | error e n => simpa only [hxm] using hm

private theorem keeping_define (name : String) (value : Value) : Keeping [name]
    (define name value) := by
  intro m
  have hcheck : m.after (define name value) =
      if isReserved name then m else { m with scopes := m.scopes.bind m.current name value } := by
    unfold define defineIn Machine.after
    rw [Run.bind_of_ok Run.get_apply, Scopes.checkName]
    by_cases hreserved : isReserved name <;> simp only [hreserved] <;> rfl
  rw [hcheck]
  split
  · exact .refl m
  · refine ⟨rfl, by simp, fun id _ n hn => Scopes.steady_of_bound_eq ?_⟩
    refine Scopes.bound?_bind_of_ne m.scopes value ?_
    by_cases hid : m.current = id
    · exact .inr fun hname => hn hid.symm (by simp [hname])
    · exact .inl hid

private theorem keeping_declareFunction (name : String) (params : List String) (body : List Stmt) :
    Keeping [name] (declareFunction name params body) := by
  intro m
  -- the count of functions is no part of the scopes
  have hdefine := keeping_define name
    (.function (.closure ⟨m.functions, name, params, body, m.current⟩))
    { m with functions := m.functions + 1 }
  exact ⟨hdefine.current, hdefine.grown, hdefine.steady⟩

private theorem keeping_evalOption (fuel : Nat) (e : Option Expr) :
    Keeping [] (evalOption (eval fuel) e) := by
  cases e with
  | none => exact keeping_pure _
  | some e => exact fun m => keeps_eval m fuel e

private theorem Keeping.repeatWhile {turn : Eval Bool} (h : Keeping names turn) (fuel : Nat) :
    Keeping names (repeatWhile turn fuel) := by
  induction fuel with
  | zero => exact keeping_throw _
  | succ fuel ih =>
    refine h.bind fun again => ?_
    cases again with
    | false => exact keeping_pure _
    | true => exact ih

private theorem keeping_loopTurn {fuel : Nat} {body : Stmt} (hbody : Keeping names (exec fuel body))
    (condition : Expr) : Keeping names (loopTurn (eval fuel) (exec fuel) condition body) := by
  have hcondition : Keeping names (eval fuel condition) :=
    fun m => (keeps_eval m fuel condition).mono (by simp)
  refine hcondition.bind fun value => ?_
  have hturn : Keeping names (if value.isTruthy then do exec fuel body; return true
      else return false) := by
    split
    · exact hbody.bind fun _ => keeping_pure _
    · exact keeping_pure _
  dsimp only
  split
  · exact (keeping_throw _).locate _ |>.bind fun _ => hturn
  · exact hturn

/-- A statement redeclares no more than it says. -/
theorem keeping_exec (fuel : Nat) (stmt : Stmt) : Keeping stmt.declared (exec fuel stmt) := by
  induction fuel generalizing stmt with
  | zero => exact keeping_throw _
  | succ fuel ih =>
    have heval (names : List String) (e : Expr) : Keeping names (eval fuel e) :=
      fun m => (keeps_eval m fuel e).mono (by simp)
    cases stmt with
    | block body span => exact fun m => keeps_block m (fuel + 1) body span
    | expr value span => exact (heval _ value).discard
    | var name initial span =>
      exact ((keeping_evalOption fuel initial).mono (by simp)).bind fun v =>
        (keeping_define name v).locate _
    | cond condition thenBranch elseBranch span =>
      refine (heval _ condition).bind fun v => ?_
      cases elseBranch with
      | none =>
        dsimp only
        split
        · exact (ih thenBranch).mono (by simp [Stmt.declared])
        · exact keeping_pure _
      | some branch =>
        dsimp only
        split
        · exact (ih thenBranch).mono (by simp [Stmt.declared])
        · exact (ih branch).mono (by simp [Stmt.declared])
    | loop condition body span =>
      exact (keeping_loopTurn ((ih body).mono (by simp [Stmt.declared])) condition).repeatWhile fuel
    | function name params body span => exact (keeping_declareFunction name params body).locate _
    | ret value span =>
      exact ((keeping_evalOption fuel value).mono (by simp)).bind fun v => keeping_throw _

private theorem keeping_runAll (fuel : Nat) (stmts : List Stmt) :
    Keeping (stmts.flatMap Stmt.declared) (runAll (exec fuel) stmts) := by
  induction stmts with
  | nil => exact keeping_pure _
  | cons stmt rest ih =>
    rw [List.flatMap_cons]
    refine ((keeping_exec fuel stmt).mono (by simp)).bind fun _ => ih.mono (by simp)

end Eval

/-- Bindings are stable on every machine and however things end. Evaluation, blocks and calls come
back to the current scope and leave every binding of every scope that was there, but for its value,
which keeps its type unless it is `niente`. Programs do the same to all but the names that they
declare in the scope they run in. -/
theorem bindings_stable (m : Machine) (fuel : Nat) :
    (∀ e, m.Keeps [] (m.after (Eval.eval fuel e))) ∧
      (∀ body span, m.Keeps [] (m.after (Eval.exec fuel (.block body span)))) ∧
      (∀ line callee args, m.Keeps [] (m.after (Eval.apply (Eval.exec fuel) line callee args))) ∧
      ∀ stmts, m.Keeps (stmts.flatMap Stmt.declared) (m.after (Eval.interpret fuel stmts)) :=
  ⟨Eval.keeps_eval m fuel, Eval.keeps_block m fuel, Eval.keeps_apply m fuel,
    fun stmts => Eval.keeping_runAll fuel stmts m⟩

end Copione
