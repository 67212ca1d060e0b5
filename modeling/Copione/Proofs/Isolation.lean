import Mathlib.Logic.Relation
import Copione.Proofs.AlignedScopes
import Copione.Proofs.ScopeInvariants
/-!
# Scopes that cannot be reached are isolated

A run reaches the scopes around its current one and around the functions that are bound in what it
reaches. It changes no other scope that was there, and what those hold makes no difference to it. A
call reaches no more than what its function and its arguments close over.
-/
namespace Copione

/-- The scopes that can be reached from the roots: along the links to the scopes around them, and
through the functions bound in them. -/
inductive Scopes.Reach (s : Scopes) (roots : ScopeId → Prop) : ScopeId → Prop
  | root {id : ScopeId} (h : roots id) : Reach s roots id
  | enclosing {id parent : ScopeId} {scope : Scope} (h : Reach s roots id)
    (hscope : s.table[id]? = some scope) (hparent : scope.enclosing = some parent) :
    Reach s roots parent
  | function {id : ScopeId} {scope : Scope} {name : String} {c : Closure} (h : Reach s roots id)
    (hscope : s.table[id]? = some scope)
    (hbound : (name, .function (.closure c)) ∈ scope.bindings) : Reach s roots c.scope

def Value.Closes (values : List Value) (id : ScopeId) : Prop :=
  ∃ c, .function (.closure c) ∈ values ∧ c.scope = id

/-- Machines that differ at most in where they are and in the scopes out of reach. -/
structure Machine.AgreesOn (reach : ScopeId → Prop) (m n : Machine) : Prop where
  next : n.scopes.next = m.scopes.next
  scopes : ∀ id, reach id → n.scopes.table[id]? = m.scopes.table[id]?
  functions : n.functions = m.functions
  output : n.output = m.output
  clock : n.clock = m.clock
  readings : n.readings = m.readings

/-- An action that changes nothing out of reach, and does the same on two machines: it ends the same
way, and leaves the same output and the same scopes in reach, those it made included. -/
structure Eval.Confined {α : Type} (reach : ScopeId → Prop) (action : Eval α) (m n : Machine) :
    Prop where
  frame : ∀ id < m.scopes.next, ¬reach id →
    (m.after action).scopes.table[id]? = m.scopes.table[id]?
  outcome : n.outcome action = m.outcome action
  agrees : (m.after action).AgreesOn (fun id => reach id ∨ m.scopes.next ≤ id) (n.after action)

private theorem Scope.Alike.eq {P : Pairing} {a b : Scope} (hspan : ∀ s s', P.span s s' → s = s')
    (hscope : ∀ i j, P.scope i j → i = j) (h : a.Alike P b) : a = b := by
  obtain ⟨bs, parent⟩ := a
  obtain ⟨cs, parent'⟩ := b
  obtain ⟨hbindings, henclosing⟩ := h
  dsimp only at hbindings henclosing
  have hbindings : bs = cs := by
    induction hbindings with
    | nil => rfl
    | cons hpq _ ih => rw [ih, Prod.ext hpq.1 (hpq.2.eq hspan hscope)]
  have henclosing : parent = parent' := by
    cases henclosing with
    | none => rfl
    | some h => rw [hscope _ _ h]
  rw [hbindings, henclosing]

namespace Coupling

variable {m n : Machine} {roots : ScopeId → Prop} {i j : ScopeId} {bare inside : Bool} {α : Type}

def reaching (roots : ScopeId → Prop) (m n : Machine) : Coupling :=
  aligned Eq (fun _ => True) (fun id => m.scopes.Reach roots id ∨ m.scopes.next ≤ id) m.scopes n.scopes

private theorem reaching_lawful (roots : ScopeId → Prop) (m n : Machine) :
    (reaching roots m n).Lawful :=
  aligned_lawful Eq _ n.scopes fun _ => .inr

private theorem reaching_closure {c : Closure} (h : m.scopes.Reach roots c.scope) :
    c.Alike (reaching roots m n).toPairing c :=
  .refl (fun _ _ => rfl) (fun _ => trivial) ⟨rfl, .inl h⟩

private theorem joined_reaching (h : m.AgreesOn (m.scopes.Reach roots) n) :
    (reaching roots m n).Joined m.current n.current m n := by
  refine ⟨rfl, rfl, ?_, h.functions.symm, h.output.symm, h.clock.symm, h.readings.symm⟩
  refine ⟨h.next.symm, Nat.le_refl _, fun id hid => ?_, fun _ _ => rfl, fun _ _ => rfl⟩
  obtain hreach | hnew := hid
  · rw [h.scopes id hreach]
    cases hscope : m.scopes.table[id]? with
    | none => exact .none
    | some scope =>
      refine .some (.refl (fun name c hc => ?_) fun i hi => ?_)
      · exact reaching_closure (n := n) (.function hreach hscope hc)
      · exact ⟨rfl, .inl (.enclosing hreach hscope hi)⟩
  · rw [m.scopes.table_eq_none hnew, n.scopes.table_eq_none (h.next.symm ▸ hnew)]
    exact .none

private theorem Coupled.confined {rel : α → α → Prop} {x : Eval α} (hrel : ∀ a b, rel a b → a = b)
    (h : (reaching roots m n).Coupled m.current n.current bare inside rel x x)
    (hm : m.AgreesOn (m.scopes.Reach roots) n) :
    Eval.Confined (m.scopes.Reach roots) x m n := by
  have hafter := h.after (joined_reaching hm)
  have houtcome : n.outcome x = m.outcome x := by
    have hends := h (joined_reaching hm)
    unfold Machine.outcome
    generalize x m = r at hends
    generalize x n = r' at hends
    cases hends with
    | ok hab _ => simp only [hrel _ _ hab]
    | error he _ => simp only [he.eq (fun _ _ => id) fun _ _ => And.left]
  refine ⟨fun id hid hreach => hafter.scopes.left id ?_, houtcome, ?_⟩
  · exact fun hor => hor.elim hreach (Nat.not_le.2 hid)
  · refine ⟨hafter.scopes.next.symm, fun k hk => ?_, hafter.functions.symm, hafter.output.symm,
      hafter.clock.symm, hafter.readings.symm⟩
    have hscope := hafter.scopes.alike k hk
    generalize (m.after x).scopes.table[k]? = a at hscope
    generalize (n.after x).scopes.table[k]? = b at hscope
    cases hscope with
    | none => rfl
    | some hab => rw [hab.eq (fun _ _ => id) fun _ _ => And.left]

end Coupling

namespace Eval

open Coupling

variable {m n : Machine}

private theorem confined_eval (fuel : Nat) (hcurrent : n.current = m.current)
    (h : m.AgreesOn (m.scopes.Reach (· = m.current)) n) (e : Expr) :
    Confined (m.scopes.Reach (· = m.current)) (eval fuel e) m n := by
  have hC := reaching_lawful (· = m.current) m n
  have hscope : (reaching (· = m.current) m n).scope m.current n.current :=
    ⟨hcurrent.symm, .inl (.root rfl)⟩
  have he : e.Alike (reaching (· = m.current) m n).span e := Expr.alike_self (fun _ => rfl) e
  have heval := (hC.eval_exec fuel).1 hscope he
  exact heval.confined (fun _ _ hv => hv.eq (fun _ _ => id) fun _ _ => And.left) h

private theorem confined_exec (fuel : Nat) (hcurrent : n.current = m.current)
    (h : m.AgreesOn (m.scopes.Reach (· = m.current)) n) (stmt : Stmt) :
    Confined (m.scopes.Reach (· = m.current)) (exec fuel stmt) m n := by
  have hC := reaching_lawful (· = m.current) m n
  have hhome : (reaching (· = m.current) m n).home m.current n.current :=
    ⟨hcurrent.symm, .inl (.root rfl)⟩
  have hstmt : Stmt.Alike (reaching (· = m.current) m n).span (reaching (· = m.current) m n).name
      true stmt stmt := Stmt.alike_self (fun _ => rfl) (fun _ => trivial) stmt
  exact ((hC.eval_exec fuel).2 hhome hstmt).confined (fun _ _ _ => rfl) h

private theorem confined_apply (fuel line : Nat) (callee : Value) (args : List Value)
    (h : m.AgreesOn (m.scopes.Reach (Value.Closes (callee :: args))) n) :
    Confined (m.scopes.Reach (Value.Closes (callee :: args)))
      (apply (exec fuel) line callee args) m n := by
  have hC := reaching_lawful (Value.Closes (callee :: args)) m n
  have hvalue (v : Value) (hv : v ∈ callee :: args) :
      v.Alike (reaching (Value.Closes (callee :: args)) m n).toPairing v :=
    .refl fun c hc => reaching_closure (.root ⟨c, hc ▸ hv, rfl⟩)
  have hargs : List.Forall₂ (Value.Alike (reaching (Value.Closes (callee :: args)) m n).toPairing)
      args args := List.forall₂_same.2 fun v hv => hvalue v (by simp [hv])
  have hspan : (reaching (Value.Closes (callee :: args)) m n).span ⟨0, 0, line⟩ ⟨0, 0, line⟩ := rfl
  have happly : (reaching (Value.Closes (callee :: args)) m n).Coupled m.current n.current false false
      _ _ _ := hC.apply (hC.eval_exec fuel).2 hspan (hvalue callee (by simp)) hargs
  exact happly.confined (fun _ _ hv => hv.eq (fun _ _ => id) fun _ _ => And.left) h

end Eval

namespace Scopes

def Inside (s : Scopes) : ScopeId → ScopeId → Prop :=
  Relation.ReflTransGen fun i j => s.parent? i = some j

def Stands (s : Scopes) (id : ScopeId) : Prop := ∀ outer, s.Inside id outer → outer < s.next

/-- The scopes of `s` are still there, each inside the same one. -/
structure Grows (s t : Scopes) : Prop where
  next : s.next ≤ t.next
  parent : ∀ id < s.next, t.parent? id = s.parent? id

private theorem Grows.trans {s t u : Scopes} (hst : s.Grows t) (htu : t.Grows u) : s.Grows u :=
  ⟨Nat.le_trans hst.next htu.next, fun id hid =>
    (htu.parent id (Nat.lt_of_lt_of_le hid hst.next)).trans (hst.parent id hid)⟩

private theorem grows_push (s : Scopes) (parent : ScopeId) : s.Grows (s.push (.inside parent)) :=
  ⟨by simp, fun id hid => by rw [parent?_push, if_neg (Nat.ne_of_lt hid)]⟩

private theorem grows_bind (s : Scopes) (owner : ScopeId) (name : String) (value : Value) :
    s.Grows (s.bind owner name value) := ⟨by simp, fun id _ => parent?_bind s owner id name value⟩

private theorem grows_invariant (base : Scopes) : Invariant base.Grows fun _ => True where
  assign h _ := h.trans (grows_bind _ _ _ _)
  declare name value h _ := h.trans (grows_bind _ _ name value)
  enter i h := ⟨h.trans (grows_push _ i), trivial⟩

private theorem Stands.inside {s t : Scopes} {id outer : ScopeId} (h : s.Stands id) (hst : s.Grows t)
    (hinside : t.Inside id outer) : s.Inside id outer := by
  induction hinside with
  | refl => exact .refl
  | @tail i j _ hij ih => exact ih.tail ((hst.parent i (h i ih)).symm.trans hij)

private theorem Stands.not_inside {s t : Scopes} {id later : ScopeId} (h : s.Stands id)
    (hst : s.Grows t)
    (hlater : s.next ≤ later) : ¬t.Inside id later :=
  fun hinside => absurd (h later (h.inside hst hinside)) (Nat.not_lt.2 hlater)

/-- Of two scopes made one after the other inside scopes that stood before both, none lies in the
other, and so nothing lies in both. -/
theorem Stands.apart {s t : Scopes} {outer outer' first second : ScopeId} (h : s.Stands outer)
    (h' : s.Stands outer') (hst : s.Grows t) (hfirst : s.next ≤ first) (hsecond : first < second)
    (hparent : t.parent? first = some outer) (hparent' : t.parent? second = some outer')
    (id : ScopeId) : ¬(t.Inside id first ∧ t.Inside id second) := by
  rintro ⟨hin, hin'⟩
  have hunique : Relator.RightUnique fun i j => t.parent? i = some j :=
    fun _ _ _ hj hk => Option.some.inj (hj.symm.trans hk)
  obtain hin | hin := Relation.ReflTransGen.total_of_right_unique hunique hin hin'
  · obtain heq | ⟨j, hj, hin⟩ := hin.cases_head
    · exact absurd heq (Nat.ne_of_lt hsecond)
    · obtain rfl := Option.some.inj (hparent.symm.trans hj)
      exact h.not_inside hst (Nat.le_trans hfirst (Nat.le_of_lt hsecond)) hin
  · obtain heq | ⟨j, hj, hin⟩ := hin.cases_head
    · exact absurd heq (Nat.ne_of_gt hsecond)
    · obtain rfl := Option.some.inj (hparent'.symm.trans hj)
      exact h'.not_inside hst hfirst hin

end Scopes

namespace Eval

/-- A call makes its scope first, inside the one that its function closes over. -/
theorem grows_callClosure (m : Machine) (fuel : Nat) (c : Closure) (args : List Value) :
    (m.scopes.push (.inside c.scope)).Grows (m.after (callClosure (exec fuel) c args)).scopes := by
  have hgrows : (m.scopes.push (.inside c.scope)).Grows (m.scopes.push (.inside c.scope)) :=
    ⟨Nat.le_refl _, fun _ _ => rfl⟩
  exact (Scopes.grows_invariant (m.scopes.push (.inside c.scope))).callBody
    (m := { m with scopes := m.scopes.push (.inside c.scope) }) hgrows trivial fuel c args

end Eval

open Eval in
/-- What a run cannot reach is isolated from it. Evaluating and executing reach what can be reached
from the current scope; a call only what its function and its arguments close over, wherever it is
called from. And calls share no locals: their scopes are made inside those that their functions close
over, and whatever runs between the two calls, no scope lies in both of them. -/
theorem unreachable_isolated (m : Machine) (fuel : Nat) :
    (∀ n, n.current = m.current → m.AgreesOn (m.scopes.Reach (· = m.current)) n →
      (∀ e, Confined (m.scopes.Reach (· = m.current)) (eval fuel e) m n) ∧
        ∀ stmt, Confined (m.scopes.Reach (· = m.current)) (exec fuel stmt) m n) ∧
    (∀ line callee args n, m.AgreesOn (m.scopes.Reach (Value.Closes (callee :: args))) n →
      Confined (m.scopes.Reach (Value.Closes (callee :: args)))
        (apply (exec fuel) line callee args) m n) ∧
    ∀ c c' args args' between here, m.scopes.Stands c.scope → m.scopes.Stands c'.scope →
      let called := m.after (callClosure (exec fuel) c args)
      let later := { called with current := here }.after (runAll (exec fuel) between)
      let final := (later.after (callClosure (exec fuel) c' args')).scopes
      final.parent? m.scopes.next = some c.scope ∧ final.parent? later.scopes.next = some c'.scope ∧
        ∀ id, ¬(final.Inside id m.scopes.next ∧ final.Inside id later.scopes.next) := by
  refine ⟨fun n hcurrent h => ⟨confined_eval fuel hcurrent h, confined_exec fuel hcurrent h⟩,
    fun line callee args n h => confined_apply fuel line callee args h, ?_⟩
  intro c c' args args' between here hc hc' called later final
  have hfirst : (m.scopes.push (.inside c.scope)).Grows called.scopes := grows_callClosure m fuel c args
  have hbetween : called.scopes.Grows later.scopes := by
    have hgrows : called.scopes.Grows called.scopes := ⟨Nat.le_refl _, fun _ _ => rfl⟩
    exact ((Scopes.grows_invariant called.scopes).runAll (m := { called with current := here }) hgrows
      trivial fuel between).2
  have hsecond : (later.scopes.push (.inside c'.scope)).Grows final :=
    grows_callClosure later fuel c' args'
  have hlater := (hfirst.trans hbetween).trans ((later.scopes.grows_push c'.scope).trans hsecond)
  have hlt : m.scopes.next < later.scopes.next := by
    have hle := (hfirst.trans hbetween).next
    rwa [Scopes.next_push] at hle
  have hparent : final.parent? m.scopes.next = some c.scope := by
    rw [hlater.parent _ (by simp), Scopes.parent?_push, if_pos rfl]
    rfl
  have hparent' : final.parent? later.scopes.next = some c'.scope := by
    rw [hsecond.parent _ (by simp), Scopes.parent?_push, if_pos rfl]
    rfl
  have hgrown := (m.scopes.grows_push c.scope).trans hlater
  exact ⟨hparent, hparent', hc.apart hc' hgrown (Nat.le_refl _) hlt hparent hparent'⟩

/-- Two machines that differ in what a scope binds that the outermost one does not lead to. -/
theorem unreachable_isolated_hidden_scope :
    let m : Machine := ⟨⟨#[.globals, ⟨[("x", .int 1)], some 0⟩]⟩, 0, 0, .unlimited, fun _ => 0, 0⟩
    let n : Machine := { m with scopes := ⟨#[.globals, ⟨[("x", .int 2)], some 0⟩]⟩ }
    (m.scopes.bound? 1 "x").isSome ∧ n.scopes.bound? 1 "x" ≠ m.scopes.bound? 1 "x" ∧
      m.AgreesOn (m.scopes.Reach (· = m.current)) n ∧
      ∀ fuel stmt, Eval.Confined (m.scopes.Reach (· = m.current)) (Eval.exec fuel stmt) m n := by
  intro m n
  have hreach (id : ScopeId) (h : m.scopes.Reach (· = m.current) id) : id = 0 := by
    induction h with
    | root h => exact h
    | enclosing _ hscope hparent ih =>
      obtain rfl := ih
      obtain rfl := Option.some.inj hscope
      cases hparent
    | function _ hscope hbound ih =>
      obtain rfl := ih
      obtain rfl := Option.some.inj hscope
      obtain ⟨b, -, hb⟩ := List.mem_map.1 hbound
      cases hb
  have hagrees : m.AgreesOn (m.scopes.Reach (· = m.current)) n :=
    ⟨rfl, fun id hid => by rw [hreach id hid]; rfl, rfl, rfl, rfl, rfl⟩
  refine ⟨rfl, ?_, hagrees, fun fuel => ((unreachable_isolated m fuel).1 n rfl hagrees).2⟩
  intro heq
  have hvalue : Value.int 2 = .int 1 := Option.some.inj heq
  exact absurd (Value.int.inj hvalue) (by decide)

end Copione
