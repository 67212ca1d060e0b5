import Copione.Proofs.CoupledEvaluation
import Copione.Proofs.ScopeTables
/-!
# Aligned tables of scopes

Two tables in which scopes of the same number are alike, among those that can be reached. What the
evaluator does keeps them aligned and leaves alone the scopes that cannot be reached.
-/
namespace Copione

def Pairing.aligned (span : Span → Span → Prop) (name : String → Prop) (reach : ScopeId → Prop) :
    Pairing where
  span := span
  name := name
  scope i j := i = j ∧ reach i

structure Scope.Alike (P : Pairing) (a b : Scope) : Prop where
  bindings : List.Forall₂ (fun p q => p.1 = q.1 ∧ p.2.Alike P q.2) a.bindings b.bindings
  enclosing : Option.Rel P.scope a.enclosing b.enclosing

/-- The scopes in `reach` are alike, and all others are what they were at first. -/
structure Scopes.Aligned (P : Pairing) (reach : ScopeId → Prop) (base base' s t : Scopes) : Prop where
  next : s.next = t.next
  grown : base.next ≤ s.next
  alike : ∀ id, reach id → Option.Rel (Scope.Alike P) s.table[id]? t.table[id]?
  left : ∀ id, ¬reach id → s.table[id]? = base.table[id]?
  right : ∀ id, ¬reach id → t.table[id]? = base'.table[id]?

def Coupling.aligned (span : Span → Span → Prop) (name : String → Prop) (reach : ScopeId → Prop)
    (base base' : Scopes) : Coupling where
  toPairing := .aligned span name reach
  home i j := i = j ∧ reach i
  scopes := Scopes.Aligned (.aligned span name reach) reach base base'
  output := Eq

namespace Scope.Alike

variable {P : Pairing} {a b : Scope}

theorem refl (hclosure : ∀ name c, (name, .function (.closure c)) ∈ a.bindings → c.Alike P c)
    (henclosing : ∀ i, a.enclosing = some i → P.scope i i) : a.Alike P a := by
  refine ⟨List.forall₂_same.2 fun p hp => ⟨rfl, .refl fun c hc => ?_⟩, ?_⟩
  · obtain ⟨name, v⟩ := p
    obtain rfl : v = .function (.closure c) := hc
    exact hclosure name c hp
  · cases hparent : a.enclosing with
    | none => exact .none
    | some i => exact .some (henclosing i hparent)

private theorem find? (h : a.Alike P b) (name : String) :
    Option.Rel (Value.Alike P) (a.find? name) (b.find? name) := by
  have hbindings := h.bindings
  unfold Scope.find?
  generalize a.bindings = bs at hbindings
  generalize b.bindings = cs at hbindings
  induction hbindings with
  | nil => exact .none
  | @cons p q _ _ hpq _ ih =>
    obtain ⟨key, v⟩ := p
    obtain ⟨_, w⟩ := q
    obtain ⟨rfl, hv⟩ := hpq
    rw [List.lookup_cons, List.lookup_cons]
    cases name == key with
    | true => exact .some hv
    | false => exact ih

private theorem insertBinding {v w : Value} (hv : v.Alike P w) (name : String)
    {bs cs : List (String × Value)}
    (h : List.Forall₂ (fun p q => p.1 = q.1 ∧ p.2.Alike P q.2) bs cs) :
    List.Forall₂ (fun p q => p.1 = q.1 ∧ p.2.Alike P q.2) (insertBinding name v bs)
      (Scope.insertBinding name w cs) := by
  induction h with
  | nil => exact .cons ⟨rfl, hv⟩ .nil
  | @cons p q bs cs hpq hrest ih =>
    obtain ⟨key, held⟩ := p
    obtain ⟨_, held'⟩ := q
    obtain ⟨rfl, hheld⟩ := hpq
    unfold Scope.insertBinding
    split
    · exact .cons ⟨rfl, hv⟩ hrest
    · exact .cons ⟨rfl, hheld⟩ ih

private theorem insert (h : a.Alike P b) {v w : Value} (hv : v.Alike P w) (name : String) :
    (a.insert name v).Alike P (b.insert name w) :=
  ⟨insertBinding hv name h.bindings, h.enclosing⟩

private theorem inside {i j : ScopeId} (h : P.scope i j) : (Scope.inside i).Alike P (.inside j) :=
  ⟨.nil, .some h⟩

end Scope.Alike

namespace Scopes.Aligned

variable {span : Span → Span → Prop} {name : String → Prop} {reach : ScopeId → Prop}
  {base base' s t : Scopes} {id : ScopeId}

private theorem chainUpTo (h : Aligned (.aligned span name reach) reach base base' s t) (fuel : Nat)
    (hid : reach id) :
    t.chainUpTo fuel id = s.chainUpTo fuel id ∧ ∀ i ∈ s.chainUpTo fuel id, reach i := by
  induction fuel generalizing id with
  | zero => simp [Scopes.chainUpTo]
  | succ fuel ih =>
    have hscope := h.alike id hid
    unfold Scopes.chainUpTo
    generalize s.table[id]? = a at hscope
    generalize t.table[id]? = b at hscope
    cases hscope with
    | none => simp
    | @some a b hab =>
      have henclosing := hab.enclosing
      dsimp only
      generalize a.enclosing = c at henclosing
      generalize b.enclosing = d at henclosing
      cases henclosing with
      | none => simpa using hid
      | some hcd =>
        obtain ⟨rfl, hparent⟩ := hcd
        obtain ⟨heq, hall⟩ := ih hparent
        exact ⟨by simp [heq], by simpa [hid] using hall⟩

private theorem bound? (h : Aligned (.aligned span name reach) reach base base' s t) (hid : reach id)
    (n : String) :
    Option.Rel (Value.Alike (.aligned span name reach)) (s.bound? id n) (t.bound? id n) := by
  have hscope := h.alike id hid
  unfold Scopes.bound?
  generalize s.table[id]? = a at hscope
  generalize t.table[id]? = b at hscope
  cases hscope with
  | none => exact .none
  | some hab => exact hab.find? n

private theorem nearest? (h : Aligned (.aligned span name reach) reach base base' s t) (hid : reach id)
    (n : String) :
    Option.Rel (fun p q => (p.1 = q.1 ∧ reach p.1) ∧ p.2.Alike (.aligned span name reach) q.2)
      (s.nearest? id n) (t.nearest? id n) := by
  obtain ⟨hchain, hall⟩ := h.chainUpTo (id + 1) hid
  unfold Scopes.nearest? Scopes.chain
  rw [hchain]
  generalize s.chainUpTo (id + 1) id = ids at hall
  induction ids with
  | nil => exact .none
  | cons i ids ih =>
    have hi := hall i (by simp)
    have hbound := h.bound? hi n
    rw [List.findSome?_cons, List.findSome?_cons]
    generalize s.bound? i n = a at hbound
    generalize t.bound? i n = b at hbound
    cases hbound with
    | none => exact ih fun k hk => hall k (by simp [hk])
    | some hvw => exact .some ⟨⟨rfl, hi⟩, hvw⟩

private theorem bind (h : Aligned (.aligned span name reach) reach base base' s t) (hid : reach id)
    (n : String) {v w : Value} (hv : v.Alike (.aligned span name reach) w) :
    Aligned (.aligned span name reach) reach base base' (s.bind id n v) (t.bind id n w) where
  next := by simpa using h.next
  grown := by simpa using h.grown
  alike k hk := by
    have hscope := h.alike k hk
    rw [table_bind, table_bind]
    split
    · generalize s.table[k]? = a at hscope
      generalize t.table[k]? = b at hscope
      cases hscope with
      | none => exact .none
      | some hab => exact .some (hab.insert hv n)
    · exact hscope
  left k hk := by
    have hne : id ≠ k := fun heq => hk (heq ▸ hid)
    rw [table_bind, if_neg hne, h.left k hk]
  right k hk := by
    have hne : id ≠ k := fun heq => hk (heq ▸ hid)
    rw [table_bind, if_neg hne, h.right k hk]

private theorem push (hfresh : ∀ i, base.next ≤ i → reach i)
    (h : Aligned (.aligned span name reach) reach base base' s t) (hid : reach id) :
    Aligned (.aligned span name reach) reach base base' (s.push (.inside id))
      (t.push (.inside id)) where
  next := by simpa using h.next
  grown := by simpa using Nat.le_succ_of_le h.grown
  alike k hk := by
    rw [table_push, table_push, ← h.next]
    split
    · exact .some (.inside ⟨rfl, hid⟩)
    · exact h.alike k hk
  left k hk := by
    have hne : k ≠ s.next := fun heq => hk (heq ▸ hfresh s.next h.grown)
    rw [table_push, if_neg hne, h.left k hk]
  right k hk := by
    have hne : k ≠ t.next := fun heq => hk (heq ▸ h.next ▸ hfresh s.next h.grown)
    rw [table_push, if_neg hne, h.right k hk]

end Scopes.Aligned

namespace Coupling

theorem aligned_lawful (span : Span → Span → Prop) (name : String → Prop) {reach : ScopeId → Prop}
    {base : Scopes} (base' : Scopes) (hfresh : ∀ i, base.next ≤ i → reach i) :
    (aligned span name reach base base').Lawful where
  home_scope := id
  scopes_get := by
    rintro s t i _ h ⟨rfl, hi⟩ n
    have hnearest := h.nearest? hi n
    unfold Scopes.get
    generalize s.nearest? i n = a at hnearest
    generalize t.nearest? i n = b at hnearest
    cases hnearest with
    | none => exact .error (admits_of_ne (by simp)) rfl rfl
    | some hpq => exact .ok hpq.2
  scopes_assign := by
    rintro s t i _ v w h ⟨rfl, hi⟩ hv n
    have hnearest := h.nearest? hi n
    unfold Scopes.assignee
    generalize s.nearest? i n = a at hnearest
    generalize t.nearest? i n = b at hnearest
    cases hnearest with
    | none => exact .error (admits_of_ne (by simp)) rfl rfl
    | @some p q hpq =>
      obtain ⟨owner, held⟩ := p
      obtain ⟨_, held'⟩ := q
      obtain ⟨⟨rfl, howner⟩, hheld⟩ := hpq
      dsimp only at hheld ⊢
      rw [hheld.type_eq, Value.sameType, Value.sameType, hheld.type_eq, hv.type_eq]
      split
      · exact .ok (h.bind howner n hv)
      · exact .error (admits_of_ne (by simp)) rfl rfl
  scopes_bind := by
    rintro s t i _ v w n h ⟨rfl, hi⟩ _ hv
    exact h.bind hi n hv
  scopes_push := by
    rintro s t i _ h ⟨rfl, hi⟩
    exact ⟨h.push hfresh hi, h.next, hfresh s.next h.grown⟩
  output_take := by
    rintro o _ rfl text
    exact ⟨rfl, rfl⟩

end Coupling
end Copione
