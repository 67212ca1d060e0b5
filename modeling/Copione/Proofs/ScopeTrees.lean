import Copione.Proofs.NearestBindings
/-!
# Trees of scopes

The scopes of a run form a tree: each lies in an older one, and all of them in the first, which binds
the built-in functions. Functions that are bound close over scopes of the same tree. What the evaluator
does to a tree, one change at a time, leaves a tree that has everything the first one had.
-/
namespace Copione

def Value.Anchored (s : Scopes) (v : Value) : Prop :=
  ∀ c, v = .function (.closure c) → c.scope < s.next

namespace Scopes

/-- The scopes lie in one another like the nodes of a tree, the first one outermost. -/
structure Tree (s : Scopes) : Prop where
  nested : s.Nested
  root : 0 < s.next
  inner : ∀ id < s.next, id ≠ 0 → ∃ parent, s.parent? id = some parent
  unreserved : ∀ id name value, s.bound? id name = some value → isReserved name = false
  anchored : ∀ id name value, s.bound? id name = some value → value.Anchored s
  builtins : ∀ b : Builtin, (s.bound? 0 b.name).isSome

/-- What the evaluator does to a table of scopes at once: it adds a scope, or sets a binding. -/
inductive Change (s : Scopes) : Scopes → Prop
  | none : Change s s
  | enter {parent : ScopeId} (h : parent < s.next) : Change s (s.push (.inside parent))
  | bind {id : ScopeId} {name : String} {value : Value} (hid : id < s.next)
    (hname : isReserved name = false) (hvalue : value.Anchored s) : Change s (s.bind id name value)

structure Extends (s t : Scopes) : Prop where
  next_le : s.next ≤ t.next
  parent_eq : ∀ id < s.next, t.parent? id = s.parent? id
  bound : ∀ id name, (s.bound? id name).isSome → (t.bound? id name).isSome

/-- How the search for a name goes from scope to scope: it ends with the first one that binds the name,
or with none behind the outermost one. -/
inductive Search (s : Scopes) (name : String) : ScopeId → Option (ScopeId × Value) → Prop
  | found {id : ScopeId} {value : Value} (h : s.bound? id name = some value) :
    Search s name id (some (id, value))
  | missing {id : ScopeId} (hunbound : s.bound? id name = none) (hroot : s.parent? id = none) :
    Search s name id none
  | outwards {id parent : ScopeId} {r : Option (ScopeId × Value)} (hunbound : s.bound? id name = none)
    (hparent : s.parent? id = some parent) (h : Search s name parent r) : Search s name id r

end Scopes

variable {s t u : Scopes} {id parent : ScopeId} {name : String} {v : Value}

theorem Value.Anchored.mono (hv : v.Anchored s) (h : s.next ≤ t.next) : v.Anchored t :=
  fun c hc => Nat.lt_of_lt_of_le (hv c hc) h

namespace Scopes

theorem Extends.refl (s : Scopes) : s.Extends s := ⟨Nat.le_refl _, fun _ _ => rfl, fun _ _ => id⟩

theorem Extends.trans (h : s.Extends t) (h' : t.Extends u) : s.Extends u :=
  ⟨Nat.le_trans h.next_le h'.next_le,
    fun id hid => (h'.parent_eq id (Nat.lt_of_lt_of_le hid h.next_le)).trans (h.parent_eq id hid),
    fun id name hbound => h'.bound id name (h.bound id name hbound)⟩

theorem Change.extends (h : s.Change t) : s.Extends t := by
  cases h with
  | none => exact .refl s
  | @enter parent h =>
    refine ⟨by simp, fun id hid => ?_, fun id name hbound => ?_⟩
    · rw [parent?_push, if_neg (Nat.ne_of_lt hid)]
    · rwa [bound?_push]
  | @bind id name value hid hname hvalue =>
    have h := rebinds_bind hid name value
    refine ⟨Nat.le_of_eq h.next.symm, fun other _ => h.parent other, fun other n hbound => ?_⟩
    by_cases hsame : other = id ∧ n = name
    · rw [hsame.1, hsame.2, h.bound]
      rfl
    · rwa [h.others other n hsame]

private theorem Tree.enter (h : s.Tree) (hparent : parent < s.next) :
    (s.push (.inside parent)).Tree where
  nested := h.nested.push fun outer houter => Option.some.inj houter ▸ hparent
  root := by simp
  inner id hid hne := by
    rw [parent?_push]
    split
    · exact ⟨parent, rfl⟩
    · next hold =>
      rw [next_push] at hid
      exact h.inner id (Nat.lt_of_le_of_ne (Nat.le_of_lt_succ hid) hold) hne
  unreserved id name value hbound := h.unreserved id name value (bound?_push s parent id name ▸ hbound)
  anchored id name value hbound :=
    (h.anchored id name value (bound?_push s parent id name ▸ hbound)).mono (by simp)
  builtins b := by
    rw [bound?_push]
    exact h.builtins b

private theorem Tree.bind (h : s.Tree) (hid : id < s.next) (hname : isReserved name = false)
    (hv : v.Anchored s) : (s.bind id name v).Tree := by
  have hbind := rebinds_bind hid name v
  have hextends := (Change.bind hid hname hv).extends
  -- a binding is the one that was set, or it was there
  have hcases : ∀ other n value, (s.bind id name v).bound? other n = some value →
      n = name ∧ value = v ∨ s.bound? other n = some value := by
    intro other n value hbound
    by_cases hsame : other = id ∧ n = name
    · obtain ⟨rfl, rfl⟩ := hsame
      rw [hbind.bound] at hbound
      exact .inl ⟨rfl, (Option.some.inj hbound).symm⟩
    · exact .inr (hbind.others other n hsame ▸ hbound)
  exact {
    nested := h.nested.bind id name v
    root := hbind.next ▸ h.root
    inner := fun other hother hne => by
      rw [hbind.parent]
      exact h.inner other (hbind.next ▸ hother) hne
    unreserved := fun other n value hbound => by
      obtain ⟨rfl, -⟩ | hthere := hcases other n value hbound
      · exact hname
      · exact h.unreserved other n value hthere
    anchored := fun other n value hbound => by
      obtain ⟨-, rfl⟩ | hthere := hcases other n value hbound
      · exact hv.mono hextends.next_le
      · exact (h.anchored other n value hthere).mono hextends.next_le
    builtins := fun b => hextends.bound 0 b.name (h.builtins b) }

theorem Tree.change (h : s.Tree) (hchange : s.Change t) : t.Tree := by
  cases hchange with
  | none => exact h
  | enter hparent => exact h.enter hparent
  | bind hid hname hvalue => exact h.bind hid hname hvalue

theorem tree_globals : Tree ⟨#[Scope.globals]⟩ := by
  have hbound : ∀ id name value, bound? ⟨#[Scope.globals]⟩ id name = some value →
      ∃ b : Builtin, name = b.name ∧ value = .function (.builtin b) := by
    intro id name value h
    have hid : id < 1 := Nat.lt_of_not_le fun hid => by
      have hnone : (#[Scope.globals])[id]? = none := table_eq_none ⟨#[Scope.globals]⟩ hid
      simp [bound?, hnone] at h
    obtain rfl : id = 0 := Nat.lt_one_iff.mp hid
    have hlookup : Scope.globals.bindings.lookup name = some value := h
    obtain ⟨before, behind, hbindings, -⟩ := List.lookup_eq_some_iff.1 hlookup
    have hmem : (name, value) ∈ Scope.globals.bindings := by simp [hbindings]
    obtain ⟨b, -, hb⟩ := List.mem_map.1 hmem
    obtain ⟨rfl, rfl⟩ := Prod.mk.inj hb
    exact ⟨b, rfl, rfl⟩
  exact {
    nested := fun id parent hparent => by
      cases id with
      | zero => cases hparent
      | succ id => simp [parent?] at hparent
    root := by decide
    inner := fun id hid hne => absurd (Nat.lt_one_iff.mp hid) hne
    unreserved := fun id name value h => by
      obtain ⟨b, rfl, -⟩ := hbound id name value h
      cases b <;> rfl
    anchored := fun id name value h c hc => by
      obtain ⟨b, -, rfl⟩ := hbound id name value h
      cases hc
    builtins := fun b => by cases b <;> rfl }

variable {r r' : Option (ScopeId × Value)}

private theorem Search.unique (h : s.Search name id r) (h' : s.Search name id r') : r = r' := by
  induction h with
  | found hv =>
    cases h' with
    | found hw => rw [Option.some.inj (hv.symm.trans hw)]
    | missing hunbound | outwards hunbound => simp [hv] at hunbound
  | missing hunbound hroot =>
    cases h' with
    | found hw => simp [hunbound] at hw
    | missing => rfl
    | outwards _ hparent => simp [hroot] at hparent
  | outwards hunbound hparent _ ih =>
    cases h' with
    | found hw => simp [hunbound] at hw
    | missing _ hroot => simp [hparent] at hroot
    | outwards _ hparent' h' => exact ih (Option.some.inj (hparent'.symm.trans hparent) ▸ h')

private theorem search_some_iff {owner : ScopeId} :
    s.Search name id (some (owner, v)) ↔ s.Nearest name id owner v := by
  constructor
  · intro h
    generalize hr : some (owner, v) = r at h
    induction h with
    | found hv =>
      obtain ⟨rfl, rfl⟩ := Prod.mk.inj (Option.some.inj hr)
      exact .here hv
    | missing => cases hr
    | outwards hunbound hparent _ ih => exact .outer hunbound hparent (ih hr)
  · intro h
    induction h with
    | here hv => exact .found hv
    | outer hunbound hparent _ ih => exact .outwards hunbound hparent ih

namespace Tree

variable (h : s.Tree)
include h

private theorem parent?_root : s.parent? 0 = none := by
  cases hparent : s.parent? 0 with
  | none => rfl
  | some parent => exact absurd (h.nested 0 parent hparent) (Nat.not_lt_zero parent)

private theorem parent_lt (hid : id < s.next) (hparent : s.parent? id = some parent) :
    parent < s.next :=
  Nat.lt_trans (h.nested id parent hparent) hid

private theorem getLast?_chainUpTo {fuel : Nat} (hfuel : id < fuel) (hid : id < s.next) :
    (s.chainUpTo fuel id).getLast? = some 0 := by
  induction fuel generalizing id with
  | zero => exact absurd hfuel (Nat.not_lt_zero id)
  | succ fuel ih =>
    rw [chainUpTo_succ, if_pos hid]
    by_cases hroot : id = 0
    · subst hroot
      rw [h.parent?_root]
      rfl
    · obtain ⟨parent, hparent⟩ := h.inner id hid hroot
      have hlt := h.nested id parent hparent
      have hlast := ih (Nat.lt_of_lt_of_le hlt (Nat.le_of_lt_succ hfuel)) (h.parent_lt hid hparent)
      rw [hparent, Option.elim_some, List.getLast?_cons, hlast]
      rfl

theorem getLast?_chain (hid : id < s.next) : (s.chain id).getLast? = some 0 :=
  h.getLast?_chainUpTo (Nat.lt_succ_self id) hid

/-- The search for a name ends, wherever it begins. -/
theorem exists_search (hid : id < s.next) (name : String) : ∃ r, s.Search name id r := by
  induction id using Nat.strongRecOn with
  | ind id ih =>
    cases hbound : s.bound? id name with
    | some value => exact ⟨_, .found hbound⟩
    | none =>
      cases hparent : s.parent? id with
      | none => exact ⟨_, .missing hbound hparent⟩
      | some parent =>
        obtain ⟨r, hr⟩ := ih parent (h.nested id parent hparent) (h.parent_lt hid hparent)
        exact ⟨r, .outwards hbound hparent hr⟩

/-- What lookups and assignments go by is what the search finds. -/
theorem search_iff (hid : id < s.next) : s.Search name id r ↔ s.nearest? id name = r := by
  obtain ⟨found, hfound⟩ := h.exists_search hid name
  have hnearest : s.nearest? id name = found := by
    cases found with
    | some p => exact (nearest?_eq_some_iff h.nested).mpr (search_some_iff.mp hfound)
    | none =>
      refine (nearest?_eq_none_iff h.nested).mpr fun owner value hnearest => ?_
      cases hfound.unique (search_some_iff.mpr hnearest)
  rw [hnearest]
  exact ⟨hfound.unique, fun hr => hr ▸ hfound⟩

private theorem unbound_root_of_search (hid : id < s.next) (hsearch : s.Search name id none) :
    s.bound? 0 name = none := by
  generalize hr : none = r at hsearch
  induction hsearch with
  | found => cases hr
  | @missing id hunbound hroot =>
    by_cases hzero : id = 0
    · exact hzero ▸ hunbound
    · obtain ⟨parent, hparent⟩ := h.inner id hid hzero
      simp [hroot] at hparent
  | outwards hunbound hparent _ ih => exact ih (h.parent_lt hid hparent) hr

theorem exists_get_builtin (hid : id < s.next) (b : Builtin) : ∃ value, s.get id b.name = .ok value := by
  cases hnearest : s.nearest? id b.name with
  | some p => exact ⟨p.2, by rw [get, hnearest]⟩
  | none =>
    have hroot := h.unbound_root_of_search hid ((h.search_iff hid).mpr hnearest)
    have hbuiltin := h.builtins b
    simp [hroot] at hbuiltin

theorem anchored_get (hget : s.get id name = .ok v) : v.Anchored s := by
  unfold get at hget
  cases hnearest : s.nearest? id name with
  | none => simp [hnearest] at hget
  | some p =>
    simp only [hnearest, Except.ok.injEq] at hget
    exact hget ▸ h.anchored p.1 name p.2 (bound_of_nearest hnearest)

theorem change_assign {owner : ScopeId} (howner : s.assignee id name v = .ok owner)
    (hv : v.Anchored s) : s.Change (s.bind owner name v) := by
  obtain ⟨held, hheld, -⟩ := bound_of_assignee howner
  have hlt : owner < s.next := Nat.lt_of_not_le fun hle => by
    simp [bound?, s.table_eq_none hle] at hheld
  exact .bind hlt (h.unreserved owner name held hheld) hv

theorem bound?_of_reserved (hname : isReserved name) (id : ScopeId) : s.bound? id name = none := by
  cases hbound : s.bound? id name with
  | none => rfl
  | some value => simp [h.unreserved id name value hbound] at hname

end Tree
end Scopes
end Copione
