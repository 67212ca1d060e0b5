import Copione.Proofs.ScopeTables
/-!
# Nearest bindings

A table of scopes comes about by requests: to make a scope, to define a name or to assign to one.
Definitions change one binding of the scope they name, assignments the nearest binding of the name on
the way out from there, and lookups answer the nearest binding. So an assignment is seen from the
scopes that share this binding, and from no others.
-/
namespace Copione

inductive ScopeRequest where
  | new
  | globals
  | child (parent : ScopeId)
  | define (id : ScopeId) (name : String) (value : Value)
  | assign (id : ScopeId) (name : String) (value : Value)

namespace ScopeRequest

def Addresses (s : Scopes) : ScopeRequest → Prop
  | .new | .globals => True
  | .child id | .define id _ _ | .assign id _ _ => id < s.next

instance (s : Scopes) : (r : ScopeRequest) → Decidable (r.Addresses s)
  | .new | .globals => .isTrue trivial
  | .child id | .define id _ _ | .assign id _ _ => inferInstanceAs (Decidable (id < s.next))

def outcome (s : Scopes) : ScopeRequest → Except Fault Scopes
  | .new => .ok (s.push .empty)
  | .globals => .ok (s.push .globals)
  | .child parent => .ok (s.push (.inside parent))
  | .define id name value => s.define id name value
  | .assign id name value => s.assign id name value

end ScopeRequest

namespace Scopes

/-- The table after a request. One that is refused leaves the table as it is. -/
def after (s : Scopes) (r : ScopeRequest) : Scopes :=
  match r.outcome s with
  | .ok t => t
  | .error _ => s

/-- The tables that requests lead to, granted or refused ones. -/
inductive Made : Scopes → Prop
  | empty : Made ⟨#[]⟩
  | after {s : Scopes} {r : ScopeRequest} (h : Made s) (hr : r.Addresses s) : Made (s.after r)

/-- The first scope that binds the name, on the way out from a scope, and what it is bound to. -/
inductive Nearest (s : Scopes) (name : String) : ScopeId → ScopeId → Value → Prop
  | here {id : ScopeId} {value : Value} (h : s.bound? id name = some value) :
    Nearest s name id id value
  | outer {id parent owner : ScopeId} {value : Value} (hunbound : s.bound? id name = none)
    (hparent : s.parent? id = some parent) (h : Nearest s name parent owner value) :
    Nearest s name id owner value

/-- Only the binding of the name in the scope `owner` differs in `t`: there it is `value`. -/
structure Rebinds (s : Scopes) (owner : ScopeId) (name : String) (value : Value) (t : Scopes) :
    Prop where
  next : t.next = s.next
  parent : ∀ id, t.parent? id = s.parent? id
  bound : t.bound? owner name = some value
  others : ∀ id n, ¬(id = owner ∧ n = name) → t.bound? id n = s.bound? id n

variable {s t : Scopes} {id other owner : ScopeId} {name n : String} {value held : Value}

def Nested (s : Scopes) : Prop := ∀ id parent, s.parent? id = some parent → parent < id

theorem Nested.push (h : s.Nested) {scope : Scope}
    (hscope : ∀ parent, scope.enclosing = some parent → parent < s.next) : (s.push scope).Nested := by
  intro id parent hparent
  rw [parent?_push] at hparent
  split at hparent
  · next hid => exact hid ▸ hscope parent hparent
  · exact h id parent hparent

theorem Nested.bind (h : s.Nested) (id : ScopeId) (name : String) (value : Value) :
    (s.bind id name value).Nested := by
  intro other parent hparent
  rw [parent?_bind] at hparent
  exact h other parent hparent

private theorem eq_bind_of_define (h : s.define id name value = .ok t) : t = s.bind id name value := by
  unfold define at h
  cases hname : checkName name with
  | error f => simp [hname, Except.map] at h
  | ok => simpa [hname, Except.map, eq_comm] using h

private theorem eq_bind_of_assign (h : s.assign id name value = .ok t) :
    ∃ owner, s.assignee id name value = .ok owner ∧ t = s.bind owner name value := by
  unfold assign at h
  cases howner : s.assignee id name value with
  | error f => simp [howner, Except.map] at h
  | ok owner => exact ⟨owner, rfl, by simpa [howner, Except.map, eq_comm] using h⟩

private theorem Nested.after (h : s.Nested) {r : ScopeRequest} (hr : r.Addresses s) :
    (s.after r).Nested := by
  unfold Scopes.after
  split
  · next t ht =>
    cases r with
    | new =>
      obtain rfl := Except.ok.inj ht
      exact h.push (by simp [Scope.empty])
    | globals =>
      obtain rfl := Except.ok.inj ht
      exact h.push (by simp [Scope.globals])
    | child parent =>
      obtain rfl := Except.ok.inj ht
      exact h.push fun outer houter => Option.some.inj houter ▸ hr
    | define id name value =>
      rw [eq_bind_of_define ht]
      exact h.bind id name value
    | assign id name value =>
      obtain ⟨owner, -, rfl⟩ := eq_bind_of_assign ht
      exact h.bind owner name value
  · exact h

private theorem Made.nested (h : s.Made) : s.Nested := by
  induction h with
  | empty =>
    intro id parent hparent
    simp [parent?] at hparent
  | after _ hr ih => exact ih.after hr

theorem chainUpTo_succ (s : Scopes) (fuel : Nat) (id : ScopeId) :
    s.chainUpTo (fuel + 1) id =
      if id < s.next then id :: (s.parent? id).elim [] (s.chainUpTo fuel) else [] := by
  unfold chainUpTo
  by_cases hid : id < s.next
  · have hscope : s.table[id]? = some s.table[id] := Array.getElem?_eq_getElem hid
    rw [if_pos hid, parent?, hscope]
    simp only [Option.bind_some]
    cases s.table[id].enclosing <;> rfl
  · rw [if_neg hid, s.table_eq_none (Nat.le_of_not_lt hid)]

/-- The scopes that a lookup goes through, as far as it takes to find the name. -/
private theorem findSome?_chainUpTo (h : s.Nested) {fuel : Nat} (hid : id < fuel) :
    ((s.chainUpTo fuel id).findSome? fun i => (s.bound? i name).map (i, ·)) = some (owner, value) ↔
      s.Nearest name id owner value := by
  induction fuel generalizing id with
  | zero => exact absurd hid (Nat.not_lt_zero id)
  | succ fuel ih =>
    rw [chainUpTo_succ]
    by_cases hthere : id < s.next
    · rw [if_pos hthere, List.findSome?_cons]
      cases hbound : s.bound? id name with
      | some v =>
        constructor
        · intro heq
          obtain ⟨rfl, rfl⟩ := Prod.mk.inj (Option.some.inj heq)
          exact .here hbound
        · intro hnearest
          cases hnearest with
          | here hv => simpa [hbound] using hv
          | outer hunbound => simp [hbound] at hunbound
      | none =>
        cases hparent : s.parent? id with
        | none =>
          simp only [Option.map_none, Option.elim_none, List.findSome?_nil, reduceCtorEq, false_iff]
          intro hnearest
          cases hnearest with
          | here hv => simp [hbound] at hv
          | outer _ houter => simp [hparent] at houter
        | some parent =>
          have hlt := h id parent hparent
          simp only [Option.map_none, Option.elim_some]
          rw [ih (Nat.lt_of_lt_of_le hlt (Nat.le_of_lt_succ hid))]
          constructor
          · exact .outer hbound hparent
          · intro hnearest
            cases hnearest with
            | here hv => simp [hbound] at hv
            | outer _ houter hrest => rwa [Option.some.inj (hparent.symm.trans houter)]
    · have hnone := s.table_eq_none (Nat.le_of_not_lt hthere)
      rw [if_neg hthere]
      simp only [List.findSome?_nil, reduceCtorEq, false_iff]
      intro hnearest
      cases hnearest with
      | here hv => simp [bound?, hnone] at hv
      | outer _ houter => simp [parent?, hnone] at houter

theorem nearest?_eq_some_iff (h : s.Nested) :
    s.nearest? id name = some (owner, value) ↔ s.Nearest name id owner value :=
  findSome?_chainUpTo h (Nat.lt_succ_self id)

theorem nearest?_eq_none_iff (h : s.Nested) :
    s.nearest? id name = none ↔ ∀ owner value, ¬s.Nearest name id owner value := by
  simp only [Option.eq_none_iff_forall_ne_some, Prod.forall, ne_eq, nearest?_eq_some_iff h]

private theorem get_of_nearest (h : s.Nested) (hnearest : s.Nearest name id owner value) :
    s.get id name = .ok value := by
  rw [get, (nearest?_eq_some_iff h).mpr hnearest]

private theorem get_of_not_nearest (h : s.Nested)
    (hnone : ∀ owner value, ¬s.Nearest name id owner value) :
    s.get id name = .error (.undefinedVariable name) := by
  rw [get, (nearest?_eq_none_iff h).mpr hnone]

theorem rebinds_bind (hid : id < s.next) (name : String) (value : Value) :
    s.Rebinds id name value (s.bind id name value) where
  next := next_bind s id name value
  parent other := parent?_bind s id other name value
  bound := by
    have hscope : s.table[id]? = some s.table[id] := Array.getElem?_eq_getElem hid
    rw [bound?, table_bind, if_pos rfl, hscope]
    simp
  others other n hother := by
    refine bound?_bind_of_ne s value ?_
    by_cases hsame : id = other
    · exact .inr fun hn => hother ⟨hsame.symm, hn⟩
    · exact .inl hsame

namespace Rebinds

private theorem symm (h : s.Rebinds owner name value t) (hheld : s.bound? owner name = some held) :
    t.Rebinds owner name held s where
  next := h.next.symm
  parent id := (h.parent id).symm
  bound := hheld
  others id n hother := (h.others id n hother).symm

private theorem nested (h : s.Rebinds owner name value t) (hs : s.Nested) : t.Nested := by
  intro id parent hparent
  rw [h.parent] at hparent
  exact hs id parent hparent

variable {bound : Value}

private theorem nearest (h : s.Rebinds owner name value t) (hheld : s.bound? owner name = some held)
    {o : ScopeId} (hnearest : s.Nearest n id o bound) :
    t.Nearest n id o (if o = owner ∧ n = name then value else bound) := by
  induction hnearest with
  | @here id bound hbound =>
    split
    · next hsame =>
      obtain ⟨rfl, rfl⟩ := hsame
      exact .here h.bound
    · next hother => exact .here ((h.others id n hother).trans hbound)
  | @outer id parent o bound hunbound hparent _ ih =>
    have hother : ¬(id = owner ∧ n = name) := by
      rintro ⟨rfl, rfl⟩
      simp [hheld] at hunbound
    exact .outer ((h.others id n hother).trans hunbound) ((h.parent id).trans hparent) ih

/-- From every scope whose nearest binding is the changed one, lookups answer its new value. -/
theorem get_changed (h : s.Rebinds owner name value t) (hs : s.Nested)
    (hnearest : s.Nearest name other owner held) (hheld : s.bound? owner name = some held) :
    t.get other name = .ok value := by
  have hthere := h.nearest hheld hnearest
  rw [if_pos ⟨rfl, rfl⟩] at hthere
  exact get_of_nearest (h.nested hs) hthere

/-- All other lookups answer what they did. -/
theorem get_unchanged (h : s.Rebinds owner name value t) (hs : s.Nested)
    (hheld : s.bound? owner name = some held)
    (hother : n = name → ∀ v, ¬s.Nearest n other owner v) : t.get other n = s.get other n := by
  cases hfound : s.nearest? other n with
  | some found =>
    obtain ⟨o, v⟩ := found
    have hnearest := (nearest?_eq_some_iff hs).mp hfound
    have hthere := h.nearest hheld hnearest
    have hne : ¬(o = owner ∧ n = name) := by
      rintro ⟨rfl, hn⟩
      exact hother hn v hnearest
    rw [if_neg hne] at hthere
    rw [get_of_nearest hs hnearest, get_of_nearest (h.nested hs) hthere]
  | none =>
    have hnone := (nearest?_eq_none_iff hs).mp hfound
    have hthere : ∀ o v, ¬t.Nearest n other o v := fun o v hv =>
      hnone o _ ((h.symm hheld).nearest h.bound hv)
    rw [get_of_not_nearest hs hnone, get_of_not_nearest (h.nested hs) hthere]

end Rebinds

private theorem define_effect (hid : id < s.next) (name : String) (value : Value) :
    if isReserved name then
      s.define id name value = .error (.reservedWord name) ∧ s.after (.define id name value) = s
    else
      ∃ t, s.define id name value = .ok t ∧ s.after (.define id name value) = t ∧
        s.Rebinds id name value t := by
  unfold Scopes.after ScopeRequest.outcome define checkName
  by_cases hname : isReserved name
  · simp [hname, Except.map]
  · simpa [hname, Except.map] using rebinds_bind hid name value

private theorem owner_lt_next (h : s.Nearest name id owner held) : owner < s.next := by
  induction h with
  | @here id v hv =>
    refine Nat.lt_of_not_le fun hid => ?_
    simp [bound?, s.table_eq_none hid] at hv
  | outer _ _ _ ih => exact ih

private theorem bound_owner (h : s.Nearest name id owner held) : s.bound? owner name = some held := by
  induction h with
  | here hv => exact hv
  | outer _ _ _ ih => exact ih

private theorem type_eq_null_iff (value : Value) : value.type = .null ↔ value = .null := by
  cases value <;> simp [Value.type]

/-- The nearest binding of a name takes a value if it holds `niente` or a value of the same type. -/
theorem assignee_eq_ok_iff (h : s.Nested) :
    s.assignee id name value = .ok owner ↔
      ∃ held, s.Nearest name id owner held ∧ (held = .null ∨ held.type = value.type) := by
  simp only [← nearest?_eq_some_iff h, ← type_eq_null_iff]
  unfold assignee
  cases s.nearest? id name with
  | none => simp
  | some found =>
    obtain ⟨o, v⟩ := found
    by_cases htype : v.type = .null ∨ v.type = value.type
    · have hgives : (v.type == .null || v.sameType value) = true := by simpa [Value.sameType] using htype
      simp only [hgives, if_true, Except.ok.injEq, Option.some.injEq, Prod.mk.injEq]
      constructor
      · rintro rfl
        exact ⟨v, ⟨rfl, rfl⟩, htype⟩
      · rintro ⟨_, ⟨ho, _⟩, _⟩
        exact ho
    · have hkeeps : ¬(v.type == .null || v.sameType value) = true := by
        simpa [Value.sameType] using htype
      simp only [hkeeps, Bool.false_eq_true, if_false, reduceCtorEq, false_iff, Option.some.injEq,
        Prod.mk.injEq, not_exists]
      rintro _ ⟨⟨_, rfl⟩, hgives⟩
      exact htype hgives

private theorem assign_eq_ok_iff (h : s.Nested) :
    s.assign id name value = .ok t ↔
      ∃ owner held, s.Nearest name id owner held ∧ (held = .null ∨ held.type = value.type) ∧
        t = s.bind owner name value := by
  constructor
  · intro hok
    obtain ⟨owner, howner, rfl⟩ := eq_bind_of_assign hok
    obtain ⟨held, hnearest, hgives⟩ := (assignee_eq_ok_iff h).mp howner
    exact ⟨owner, held, hnearest, hgives, rfl⟩
  · rintro ⟨owner, held, hnearest, hgives, rfl⟩
    rw [assign, (assignee_eq_ok_iff h).mpr ⟨held, hnearest, hgives⟩]
    rfl

private theorem lookups_of_rebinds (hs : s.Nested) (hheld : s.bound? owner name = some held)
    (h : s.Rebinds owner name value t) :
    (∀ other, t.get other name = .ok value ↔
      (∃ v, s.Nearest name other owner v) ∨ s.get other name = .ok value) ∧
    ∀ other n, ¬(n = name ∧ ∃ v, s.Nearest name other owner v) → t.get other n = s.get other n := by
  have hunchanged : ∀ other n, ¬(n = name ∧ ∃ v, s.Nearest name other owner v) →
      t.get other n = s.get other n := by
    intro other n hother
    refine h.get_unchanged hs hheld ?_
    rintro rfl v hv
    exact hother ⟨rfl, v, hv⟩
  refine ⟨fun other => ?_, hunchanged⟩
  by_cases hshares : ∃ v, s.Nearest name other owner v
  · obtain ⟨v, hv⟩ := hshares
    have hsame := Option.some.inj ((bound_owner hv).symm.trans hheld)
    exact iff_of_true (h.get_changed hs (hsame ▸ hv) hheld) (.inl ⟨v, hv⟩)
  · rw [hunchanged other name fun hother => hshares hother.2]
    exact ⟨.inr, fun hget => hget.resolve_left hshares⟩

/-- In every table that requests lead to: a definition is refused for reserved names, and changes one
binding of the scope it names; an assignment is granted when the nearest binding of the name takes
the value, and changes that binding; requests that are refused change nothing. A lookup answers the
nearest binding, so after an assignment the scopes with the changed binding nearest answer the new
value, and all other lookups answer what they did. -/
theorem requests_change_one_binding (hs : s.Made) (hid : id < s.next) (name : String) (value : Value) :
    (∀ other n v, s.get other n = .ok v ↔ ∃ owner, s.Nearest n other owner v) ∧
    (if isReserved name then
      s.define id name value = .error (.reservedWord name) ∧ s.after (.define id name value) = s
    else
      ∃ t, s.define id name value = .ok t ∧ s.after (.define id name value) = t ∧
        s.Rebinds id name value t) ∧
    ((∃ t, s.assign id name value = .ok t) ↔
      ∃ owner held, s.Nearest name id owner held ∧ (held = .null ∨ held.type = value.type)) ∧
    (∀ fault, s.assign id name value = .error fault → s.after (.assign id name value) = s) ∧
    ∀ t, s.assign id name value = .ok t →
      s.after (.assign id name value) = t ∧
      ∃ owner held, s.Nearest name id owner held ∧ s.Rebinds owner name value t ∧
        (∀ other, t.get other name = .ok value ↔
          (∃ v, s.Nearest name other owner v) ∨ s.get other name = .ok value) ∧
        ∀ other n, ¬(n = name ∧ ∃ v, s.Nearest name other owner v) →
          t.get other n = s.get other n := by
  have hnested := hs.nested
  refine ⟨fun other n v => ?_, define_effect hid name value, ?_, fun fault hfault => ?_, fun t ht => ?_⟩
  · simp only [← nearest?_eq_some_iff hnested, get]
    cases s.nearest? other n with
    | none => simp
    | some found => simp [Prod.ext_iff]
  · simp only [assign_eq_ok_iff hnested]
    constructor
    · rintro ⟨_, owner, held, hnearest, hgives, _⟩
      exact ⟨owner, held, hnearest, hgives⟩
    · rintro ⟨owner, held, hnearest, hgives⟩
      exact ⟨_, owner, held, hnearest, hgives, rfl⟩
  · simp [Scopes.after, ScopeRequest.outcome, hfault]
  · refine ⟨by simp [Scopes.after, ScopeRequest.outcome, ht], ?_⟩
    obtain ⟨owner, held, hnearest, -, rfl⟩ := (assign_eq_ok_iff hnested).mp ht
    have hrebinds := rebinds_bind (owner_lt_next hnearest) name value
    exact ⟨owner, held, hnearest, hrebinds, lookups_of_rebinds hnested (bound_owner hnearest) hrebinds⟩

private def family : Scopes :=
  [.globals, .child 0, .define 1 "x" (.int 1), .child 1, .child 1, .child 1, .define 4 "x" (.str "y"),
    .define 4 "se" .null].foldl after ⟨#[]⟩

private theorem family_made : family.Made := by
  have hglobals := Made.empty.after (r := .globals) trivial
  have hscope := (hglobals.after (r := .child 0) (by decide)).after (r := .define 1 "x" (.int 1)) (by decide)
  have hpair := (hscope.after (r := .child 1) (by decide)).after (r := .child 1) (by decide)
  have hhiding := (hpair.after (r := .child 1) (by decide)).after (r := .define 4 "x" (.str "y")) (by decide)
  exact hhiding.after (r := .define 4 "se" .null) (by decide)

/-- Two scopes share the binding that one of them assigns to, and a third one hides it. -/
theorem family_shares_one_binding :
    family.Made ∧ 2 < family.next ∧ ∃ t, family.assign 2 "x" (.int 5) = .ok t ∧
      t.get 3 "x" = .ok (.int 5) ∧ t.get 4 "x" = family.get 4 "x" := by
  have hthere : 2 < family.next := by decide
  obtain ⟨-, -, -, -, hassigned⟩ := requests_change_one_binding family_made hthere "x" (.int 5)
  have hnearest : ∀ {id owner held}, family.nearest? id "x" = some (owner, held) ↔
      family.Nearest "x" id owner held := nearest?_eq_some_iff family_made.nested
  obtain ⟨t, ht⟩ : ∃ t, family.assign 2 "x" (.int 5) = .ok t := ⟨_, rfl⟩
  obtain ⟨-, owner, held, howner, -, hread, hothers⟩ := hassigned t ht
  obtain rfl : 1 = owner := congrArg Prod.fst (Option.some.inj (hnearest.mpr howner))
  refine ⟨family_made, hthere, t, ht, (hread 3).mpr (.inl ⟨.int 1, hnearest.mp rfl⟩), hothers 4 "x" ?_⟩
  rintro ⟨-, v, hv⟩
  have howners : (4 : ScopeId) = 1 := congrArg Prod.fst (Option.some.inj (hnearest.mpr hv))
  exact absurd howners (by decide)

end Scopes
end Copione
