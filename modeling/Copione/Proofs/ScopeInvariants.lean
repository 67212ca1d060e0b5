import Copione.Proofs.CoupledEvaluation
import Copione.Proofs.ScopeTables
/-!
# Invariants of the scopes

Evaluation changes a table of scopes in three ways only: it assigns to a binding, it declares a name,
it adds a scope. What these keep, every run keeps, however it ends.
-/
namespace Copione

/-- A property of tables that evaluation keeps as long as names are declared only in the scopes that
`home` names, to which new scopes belong. -/
structure Scopes.Invariant (inv : Scopes → Prop) (home : ScopeId → Prop) : Prop where
  assign {s : Scopes} {i owner : ScopeId} {name : String} {value : Value} :
    inv s → s.assignee i name value = .ok owner → inv (s.bind owner name value)
  declare {s : Scopes} {i : ScopeId} (name : String) (value : Value) :
    inv s → home i → inv (s.bind i name value)
  enter {s : Scopes} (i : ScopeId) : inv s → inv (s.push (.inside i)) ∧ home s.next

namespace Coupling

variable {inv : Scopes → Prop} {home : ScopeId → Prop}

def self (inv : Scopes → Prop) (home : ScopeId → Prop) : Coupling where
  span := Eq
  name _ := True
  scope := Eq
  home i j := i = j ∧ home i
  scopes s t := s = t ∧ inv s
  output := Eq

private theorem self_value (v : Value) : v.Alike (self inv home).toPairing v :=
  .refl fun _ _ => .refl (fun _ _ => rfl) (fun _ => trivial) rfl

theorem self_lawful (h : Scopes.Invariant inv home) : (self inv home).Lawful where
  home_scope := And.left
  scopes_get := by
    rintro s _ i _ ⟨rfl, _⟩ rfl name
    unfold Scopes.get
    split
    · exact .ok (self_value _)
    · exact .error (admits_of_ne (by simp)) rfl rfl
  scopes_assign := by
    rintro s _ i _ v w ⟨rfl, hs⟩ rfl hv name
    obtain rfl := hv.eq (fun _ _ => id) (fun _ _ => id)
    cases hassign : s.assignee i name v with
    | ok owner => exact .ok ⟨rfl, h.assign hs hassign⟩
    | error f =>
      refine .error (admits_of_ne fun n hn => ?_) rfl rfl
      exact Scopes.assignee_ne_reservedWord (hn ▸ hassign)
  scopes_bind := by
    rintro s _ i _ v w name ⟨rfl, hs⟩ ⟨rfl, hi⟩ _ hv
    obtain rfl := hv.eq (fun _ _ => id) (fun _ _ => id)
    exact ⟨rfl, h.declare name v hs hi⟩
  scopes_push := by
    rintro s _ i _ ⟨rfl, hs⟩ rfl
    exact ⟨⟨rfl, (h.enter i hs).1⟩, rfl, (h.enter i hs).2⟩
  output_take := by
    rintro o _ rfl text
    exact ⟨rfl, rfl⟩

private theorem joined_self {m : Machine} (h : inv m.scopes) :
    (self inv home).Joined m.current m.current m m := ⟨rfl, rfl, ⟨rfl, h⟩, rfl, rfl, rfl, rfl⟩

end Coupling

namespace Scopes.Invariant

open Coupling

variable {inv : Scopes → Prop} {home : ScopeId → Prop} {m : Machine}

theorem eval (h : Invariant inv home) (hm : inv m.scopes) (fuel : Nat) (e : Expr) :
    (m.after (Eval.eval fuel e)).current = m.current ∧ inv (m.after (Eval.eval fuel e)).scopes := by
  have he : e.Alike (self inv home).span e := Expr.alike_self (fun _ => rfl) e
  have hafter := (((self_lawful h).eval_exec fuel).1 rfl he).after (joined_self hm)
  exact ⟨hafter.left, hafter.scopes.2⟩

theorem block (h : Invariant inv home) (hm : inv m.scopes) (fuel : Nat) (body : List Stmt)
    (span : Span) : (m.after (Eval.exec fuel (.block body span))).current = m.current ∧
      inv (m.after (Eval.exec fuel (.block body span))).scopes := by
  have hbody : Stmt.AllAlike (self inv home).span (self inv home).name true body body :=
    Stmt.all_alike_self (fun _ => rfl) (fun _ => trivial) body
  have hafter := ((self_lawful h).exec_block rfl hbody span span fuel).after (joined_self hm)
  exact ⟨hafter.left, hafter.scopes.2⟩

theorem apply (h : Invariant inv home) (hm : inv m.scopes) (fuel line : Nat) (callee : Value)
    (args : List Value) : (m.after (Eval.apply (Eval.exec fuel) line callee args)).current = m.current ∧
      inv (m.after (Eval.apply (Eval.exec fuel) line callee args)).scopes := by
  have hC := self_lawful h
  have hargs : List.Forall₂ (Value.Alike (self inv home).toPairing) args args :=
    List.forall₂_same.2 fun v _ => self_value v
  have hspan : (self inv home).span ⟨0, 0, line⟩ ⟨0, 0, line⟩ := rfl
  have happly : (self inv home).Coupled m.current m.current false false _ _ _ :=
    hC.apply (hC.eval_exec fuel).2 hspan (self_value callee) hargs
  have hafter := happly.after (joined_self hm)
  exact ⟨hafter.left, hafter.scopes.2⟩

theorem callBody (h : Invariant inv home) (hm : inv m.scopes) {k : ScopeId} (hk : home k)
    (fuel : Nat) (c : Closure) (args : List Value) :
    inv (m.after (do
      Eval.bindParams k c.params args
      Eval.catchReturn (Eval.within k (Eval.runAll (Eval.exec fuel) c.body)))).scopes := by
  have hC := self_lawful h
  have hparams : ∀ p ∈ c.params, (self inv home).name p := fun _ _ => trivial
  have hbody : Stmt.AllAlike (self inv home).span (self inv home).name true c.body c.body :=
    Stmt.all_alike_self (fun _ => rfl) (fun _ => trivial) c.body
  have hargs : List.Forall₂ (Value.Alike (self inv home).toPairing) args args :=
    List.forall₂_same.2 fun v _ => self_value v
  have hcall : (self inv home).Coupled m.current m.current true false _ _ _ :=
    hC.callBody (hC.eval_exec fuel).2 ⟨rfl, hk⟩ hparams hbody hargs
  exact (hcall.after (joined_self hm)).scopes.2

theorem runAll (h : Invariant inv home) (hm : inv m.scopes) (hhome : home m.current) (fuel : Nat)
    (stmts : List Stmt) :
    (m.after (Eval.runAll (Eval.exec fuel) stmts)).current = m.current ∧
      inv (m.after (Eval.runAll (Eval.exec fuel) stmts)).scopes := by
  have hC := self_lawful h
  have hstmts : Stmt.AllAlike (self inv home).span (self inv home).name true stmts stmts :=
    Stmt.all_alike_self (fun _ => rfl) (fun _ => trivial) stmts
  have hafter := ((hC.eval_exec fuel).2.runAll ⟨rfl, hhome⟩ hstmts).after (joined_self hm)
  exact ⟨hafter.left, hafter.scopes.2⟩

end Scopes.Invariant
end Copione
