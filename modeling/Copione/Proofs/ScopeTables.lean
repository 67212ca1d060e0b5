import Copione.Scope
/-!
# Tables of scopes

What a table holds after a scope was added to it or a name was bound in one of its scopes, and
where an assignment finds the binding it changes.
-/
namespace Copione

namespace Scope

private theorem lookup_insertBinding (name other : String) (value : Value)
    (bindings : List (String × Value)) :
    (insertBinding name value bindings).lookup other =
      if other = name then some value else bindings.lookup other := by
  induction bindings with
  | nil =>
    by_cases h : other = name
    · simp [insertBinding, h]
    · simp [insertBinding, List.lookup_cons, h, beq_eq_false_iff_ne.2 h]
  | cons binding rest ih =>
    obtain ⟨key, held⟩ := binding
    by_cases hkey : key = name
    · by_cases h : other = name
      · simp [insertBinding, hkey, h]
      · simp [insertBinding, List.lookup_cons, hkey, h, beq_eq_false_iff_ne.2 h]
    · by_cases h : other = key
      · simp [insertBinding, hkey, h]
      · simp [insertBinding, List.lookup_cons, hkey, ih, beq_eq_false_iff_ne.2 h]

@[simp] theorem find?_insert (s : Scope) (name other : String) (value : Value) :
    (s.insert name value).find? other = if other = name then some value else s.find? other :=
  lookup_insertBinding name other value s.bindings

end Scope

namespace Scopes

@[simp] theorem next_push (s : Scopes) (scope : Scope) : (s.push scope).next = s.next + 1 := by
  simp [push, next]

@[simp] theorem next_bind (s : Scopes) (id : ScopeId) (name : String) (value : Value) :
    (s.bind id name value).next = s.next := by
  simp [bind, next]

theorem table_push (s : Scopes) (scope : Scope) (id : ScopeId) :
    (s.push scope).table[id]? = if id = s.next then some scope else s.table[id]? := by
  exact Array.getElem?_push

theorem table_bind (s : Scopes) (id other : ScopeId) (name : String) (value : Value) :
    (s.bind id name value).table[other]? =
      if id = other then s.table[other]?.map (·.insert name value) else s.table[other]? := by
  simp [bind, Array.getElem?_modify]

theorem table_eq_none (s : Scopes) {id : ScopeId} (h : s.next ≤ id) : s.table[id]? = none := by
  simpa [next] using h

def parent? (s : Scopes) (id : ScopeId) : Option ScopeId := s.table[id]?.bind Scope.enclosing

theorem parent?_push (s : Scopes) (scope : Scope) (id : ScopeId) :
    (s.push scope).parent? id = if id = s.next then scope.enclosing else s.parent? id := by
  unfold parent?
  rw [table_push]
  split <;> rfl

theorem parent?_bind (s : Scopes) (owner id : ScopeId) (name : String) (value : Value) :
    (s.bind owner name value).parent? id = s.parent? id := by
  unfold parent?
  rw [table_bind]
  split
  · cases s.table[id]? <;> rfl
  · rfl

theorem bound?_push (s : Scopes) (parent id : ScopeId) (name : String) :
    (s.push (.inside parent)).bound? id name = s.bound? id name := by
  unfold bound?
  rw [table_push]
  by_cases h : id = s.next
  · rw [if_pos h, s.table_eq_none (Nat.le_of_eq h.symm)]
    rfl
  · rw [if_neg h]

theorem bound?_bind_of_ne (s : Scopes) {id other : ScopeId} {name n : String} (value : Value)
    (h : id ≠ other ∨ n ≠ name) : (s.bind id name value).bound? other n = s.bound? other n := by
  unfold bound?
  rw [table_bind]
  by_cases hid : id = other
  · rw [if_pos hid]
    have hn : n ≠ name := h.resolve_left fun hne => hne hid
    cases s.table[other]? with
    | none => rfl
    | some scope => simp [hn]
  · rw [if_neg hid]

theorem bound?_bind_self {s : Scopes} {id : ScopeId} {name : String} {held : Value} (value : Value)
    (h : s.bound? id name = some held) : (s.bind id name value).bound? id name = some value := by
  unfold bound? at h ⊢
  rw [table_bind, if_pos rfl]
  cases hscope : s.table[id]? with
  | none => simp [hscope] at h
  | some scope => simp

theorem bound_of_nearest {s : Scopes} {id owner : ScopeId} {name : String} {held : Value}
    (h : s.nearest? id name = some (owner, held)) : s.bound? owner name = some held := by
  obtain ⟨i, _, hi⟩ := List.exists_of_findSome?_eq_some h
  obtain ⟨v, hv, heq⟩ := Option.map_eq_some_iff.1 hi
  obtain ⟨rfl, rfl⟩ := Prod.mk.inj heq
  exact hv

/-- An assignment goes to a binding, and changes its type only if it holds `niente`. -/
theorem bound_of_assignee {s : Scopes} {id owner : ScopeId} {name : String} {value : Value}
    (h : s.assignee id name value = .ok owner) :
    ∃ held, s.bound? owner name = some held ∧ (held.type ≠ .null → value.type = held.type) := by
  unfold assignee at h
  split at h
  · rename_i o held hnearest
    split at h
    · rename_i hgives
      obtain rfl := Except.ok.inj h
      refine ⟨held, bound_of_nearest hnearest, fun hnull => ?_⟩
      simp only [Value.sameType, Bool.or_eq_true, beq_iff_eq] at hgives
      exact (hgives.resolve_left hnull).symm
    · cases h
  · cases h

theorem assignee_ne_reservedWord {s : Scopes} {id : ScopeId} {name n : String} {value : Value}
    (h : s.assignee id name value = .error (.reservedWord n)) : False := by
  unfold assignee at h
  split at h
  · split at h <;> cases h
  · cases h

end Scopes
end Copione
