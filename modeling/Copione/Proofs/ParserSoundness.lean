import Copione.Proofs.ParserSteps
import Copione.Proofs.WindowedScan
/-!
# The parser accepts nothing else

A program that is read without an error is well-formed, and written out it is what was read:
no token is lost.
-/
namespace Copione

namespace Parser

variable {α : Type} {p q : Parser} {n fuel : Nat} {expr : Parse Expr}

/-- With at most `n` tokens to come, what `x` gives is good and is what it passes. -/
def Reads (n : Nat) (x : Parse α) (words : α → List Word) (good : α → Prop) : Prop :=
  ∀ ⦃p q : Parser⦄ ⦃a : α⦄, p.rest.length ≤ n → x p = .ok a q → Passes p (words a) q ∧ good a

private theorem Reads.mono {m : Nat} {x : Parse α} {words : α → List Word} {good : α → Prop}
    (h : Reads n x words good) (hm : m ≤ n) : Reads m x words good :=
  fun _ _ _ hp hx => h (Nat.le_trans hp hm) hx

private theorem foldPairs_passes {ops : List PairOp} {k : Nat} {operand : Parse Expr}
    (hops : ∀ op, op ∈ ops ↔ op.level = k)
    (hoperand : Reads n operand Expr.words fun e => e.WellFormed ∧ k + 1 ≤ e.level)
    {left a : Expr} (hleft : left.WellFormed) (hlevel : k ≤ left.level) (hp : p.rest.length ≤ n)
    (h : foldPairs ops operand fuel left p = .ok a q) :
    ∃ ws, a.words = left.words ++ ws ∧ Passes p ws q ∧ a.WellFormed ∧ k ≤ a.level := by
  induction fuel generalizing left p with
  | zero =>
    obtain ⟨rfl, rfl⟩ := EStateM.Result.ok.inj h
    exact ⟨[], by simp, .refl p, hleft, hlevel⟩
  | succ fuel ih =>
    obtain ⟨kind, p', y, hpeek, hy, h⟩ := Run.of_bind_ok_choice h
    obtain ⟨rfl, rfl⟩ := EStateM.Result.ok.inj hpeek
    split at hy
    · subst hy
      obtain ⟨rfl, rfl⟩ := EStateM.Result.ok.inj h
      exact ⟨[], by simp, .refl p, hleft, hlevel⟩
    · next op hop =>
      have hkind : op.kind = p.current.kind := by simpa using List.find?_some hop
      have hk : op.level = k := (hops op).mp (List.mem_of_find?_eq_some hop)
      have hnext := passes_mark hkind.symm op.isMark_kind
      subst hy
      rw [Run.bind_of_ok (Run.modify_apply next)] at h
      obtain ⟨right, p₁, hright, h⟩ := Run.of_bind_ok h
      obtain ⟨hpassed, hwell, hrightLevel⟩ := hoperand (Nat.le_trans hnext.length_le hp) hright
      have hp₁ := Nat.le_trans (hnext.trans hpassed).length_le hp
      have hjoin : (op.join left right).WellFormed :=
        PairOp.join_wellFormed hleft hwell (by omega) (by omega)
      obtain ⟨ws, hwords, hrest, ha, hak⟩ := ih hjoin (by simp [hk]) hp₁ h
      refine ⟨.mark op.kind :: right.words ++ ws, ?_, ?_, ha, hak⟩
      · rw [hwords, PairOp.join_words, List.append_assoc]
      · exact (hnext.trans hpassed).trans hrest

private theorem pairs_reads {levels : List (List PairOp)} {k : Nat} {operand : Parse Expr}
    (hlevels : Ranked k levels)
    (hoperand : Reads n operand Expr.words fun e => e.WellFormed ∧ 9 ≤ e.level) :
    Reads n (pairs fuel operand levels) Expr.words fun e => e.WellFormed ∧ k ≤ e.level := by
  induction levels generalizing k with
  | nil =>
    obtain rfl : k = 9 := hlevels
    exact hoperand
  | cons ops tighter ih =>
    have htighter := ih hlevels.2
    intro p q a hp h
    obtain ⟨left, p₁, hleft, h⟩ := Run.of_bind_ok h
    obtain ⟨hpassed, hwell, hlevel⟩ := htighter hp hleft
    obtain ⟨ws, hwords, hrest, ha, hak⟩ := foldPairs_passes hlevels.1 htighter hwell
      (Nat.le_of_succ_le hlevel) (Nat.le_trans hpassed.length_le hp) h
    rw [hwords]
    exact ⟨hpassed.trans hrest, ha, hak⟩

private theorem commaSeparated_reads {item : Parse α} {words : α → List Word} {good : α → Prop}
    {count : Nat} (hitem : Reads n item words good) (hcount : n < count) :
    Reads n (commaSeparated item count) (fun as => commas (as.map words)) fun as =>
      as ≠ [] ∧ ∀ a ∈ as, good a := by
  induction count generalizing n with
  | zero => exact absurd hcount (Nat.not_lt_zero n)
  | succ count ih =>
    intro p q as hp h
    rw [commaSeparated] at h
    obtain ⟨first, p₁, hfirst, h⟩ := Run.of_bind_ok h
    obtain ⟨hpassed, hgood⟩ := hitem hp hfirst
    obtain ⟨more, p₂, haccept, h⟩ := Run.of_bind_ok h
    rw [accept_apply] at haccept
    split at haccept
    · next hcomma =>
      obtain ⟨rfl, rfl⟩ := EStateM.Result.ok.inj haccept
      obtain ⟨others, p₃, hothers, h⟩ := Run.of_bind_ok h
      obtain ⟨rfl, rfl⟩ := EStateM.Result.ok.inj h
      have hmark := passes_mark hcomma rfl
      have hlength := (hpassed.trans hmark).length_eq
      rw [List.length_append, List.length_singleton] at hlength
      obtain ⟨hrest, hsome, hall⟩ :=
        ih (hitem.mono (Nat.sub_le n 1)) (by omega) (by omega) hothers
      refine ⟨?_, List.cons_ne_nil _ _, ?_⟩
      · simp only [List.map_cons]
        rw [commas_cons _ (by simpa using hsome)]
        exact hpassed.trans (hmark.trans hrest)
      · exact List.forall_mem_cons.mpr ⟨hgood, hall⟩
    · obtain ⟨rfl, rfl⟩ := EStateM.Result.ok.inj haccept
      obtain ⟨rfl, rfl⟩ := EStateM.Result.ok.inj h
      exact ⟨hpassed, List.cons_ne_nil _ _, by simpa using hgood⟩

theorem listed_reads {item : Parse α} {words : α → List Word} {good : α → Prop}
    {count : Nat} (hitem : Reads n item words good) (hcount : n < count) :
    Reads n (listed count item) (fun as => commas (as.map words)) fun as => ∀ a ∈ as, good a := by
  intro p q as hp h
  rw [listed, Run.bind_of_ok (check_apply _ p)] at h
  split at h
  · obtain ⟨rfl, rfl⟩ := EStateM.Result.ok.inj h
    exact ⟨.refl p, by simp⟩
  · obtain ⟨hpassed, -, hall⟩ := commaSeparated_reads hitem hcount hp h
    exact ⟨hpassed, hall⟩

private theorem primary_reads (hexpr : Reads n expr Expr.words Expr.WellFormed) :
    Reads (n + 1) (primary expr) Expr.words fun e => e.WellFormed ∧ 10 ≤ e.level := by
  intro p q a hp h
  obtain ⟨s, p', y, hget, hy, h⟩ := Run.of_bind_ok_choice h
  obtain ⟨rfl, rfl⟩ := EStateM.Result.ok.inj hget
  dsimp only at hy
  split at hy
  · next value hvalue =>
    subst hy
    obtain ⟨rfl, rfl⟩ := EStateM.Result.ok.inj h
    exact ⟨passes_constant (constant?_eq_some.mp hvalue), .literal _ _, Nat.le_succ 10⟩
  split at hy
  · next hkind =>
    subst hy
    obtain ⟨rfl, rfl⟩ := EStateM.Result.ok.inj h
    exact ⟨passes_mark hkind rfl, .questo _, Nat.le_succ 10⟩
  · next hkind =>
    subst hy
    rw [Run.bind_of_ok (Run.modify_apply next)] at h
    obtain ⟨_, p₁, hdot, h⟩ := Run.of_bind_ok h
    obtain ⟨method, p₂, hname, h⟩ := Run.of_bind_ok h
    obtain ⟨rfl, rfl⟩ := EStateM.Result.ok.inj h
    have hpassed := (passes_mark hkind rfl).trans (passes_of_consume hdot rfl)
    exact ⟨hpassed.trans (passes_of_expectName hname), .super _ _, Nat.le_succ 10⟩
  · next hkind =>
    subst hy
    obtain ⟨rfl, rfl⟩ := EStateM.Result.ok.inj h
    exact ⟨passes_name hkind, .name _ _, Nat.le_succ 10⟩
  · next hkind =>
    subst hy
    rw [Run.bind_of_ok (Run.modify_apply next)] at h
    obtain ⟨inner, p₁, hinner, h⟩ := Run.of_bind_ok h
    obtain ⟨_, p₂, hclose, h⟩ := Run.of_bind_ok h
    obtain ⟨rfl, rfl⟩ := EStateM.Result.ok.inj h
    have hopen := passes_mark hkind rfl
    obtain ⟨hpassed, hwell⟩ := hexpr (hopen.length_le_pred hp) hinner
    exact ⟨(hopen.trans hpassed).trans (passes_of_consume hclose rfl), .group hwell _, Nat.le_succ 10⟩
  · subst hy
    cases h

private theorem trailers_passes {count : Nat} (hexpr : Reads n expr Expr.words Expr.WellFormed)
    (hfuel : n ≤ fuel) {object a : Expr} (hobject : object.WellFormed) (hlevel : 10 ≤ object.level)
    (hp : p.rest.length ≤ n) (h : trailers fuel expr count object p = .ok a q) :
    ∃ ws, a.words = object.words ++ ws ∧ Passes p ws q ∧ a.WellFormed ∧ 10 ≤ a.level := by
  induction count generalizing object p with
  | zero =>
    obtain ⟨rfl, rfl⟩ := EStateM.Result.ok.inj h
    exact ⟨[], by simp, .refl p, hobject, hlevel⟩
  | succ count ih =>
    obtain ⟨opened, p₁, hopened, h⟩ := Run.of_bind_ok h
    rw [accept_apply] at hopened
    split at hopened
    · next hkind =>
      obtain ⟨rfl, rfl⟩ := EStateM.Result.ok.inj hopened
      obtain ⟨arguments, p₂, harguments, h⟩ := Run.of_bind_ok h
      obtain ⟨_, p₃, hclose, h⟩ := Run.of_bind_ok h
      have hopen := passes_mark hkind rfl
      have hlength := hopen.length_lt
      obtain ⟨hpassed, hall⟩ :=
        listed_reads (hexpr.mono (Nat.sub_le n 1)) (by omega) (by omega) harguments
      have hcall := (hopen.trans hpassed).trans (passes_of_consume hclose rfl)
      obtain ⟨ws, hwords, hrest, ha⟩ :=
        ih (.call hobject hlevel hall _) (Nat.le_refl 10) (Nat.le_trans hcall.length_le hp) h
      refine ⟨_, ?_, hcall.trans hrest, ha⟩
      rw [hwords, Expr.words, Expr.wordsOfAll_eq]
      simp
    obtain ⟨rfl, rfl⟩ := EStateM.Result.ok.inj hopened
    obtain ⟨dotted, p₂, hdotted, h⟩ := Run.of_bind_ok h
    rw [accept_apply] at hdotted
    split at hdotted
    · next hkind =>
      obtain ⟨rfl, rfl⟩ := EStateM.Result.ok.inj hdotted
      obtain ⟨name, p₃, hname, h⟩ := Run.of_bind_ok h
      have hget := (passes_mark hkind rfl).trans (passes_of_expectName hname)
      obtain ⟨ws, hwords, hrest, ha⟩ :=
        ih (.get hobject hlevel _ _) (Nat.le_refl 10) (Nat.le_trans hget.length_le hp) h
      refine ⟨_, ?_, hget.trans hrest, ha⟩
      rw [hwords, Expr.words, List.append_assoc]
      rfl
    · obtain ⟨rfl, rfl⟩ := EStateM.Result.ok.inj hdotted
      obtain ⟨rfl, rfl⟩ := EStateM.Result.ok.inj h
      exact ⟨[], by simp, .refl p, hobject, hlevel⟩

private theorem call_reads (hexpr : Reads n expr Expr.words Expr.WellFormed) (hfuel : n ≤ fuel) :
    Reads (n + 1) (call fuel expr) Expr.words fun e => e.WellFormed ∧ 10 ≤ e.level := by
  intro p q a hp h
  obtain ⟨object, p₁, hobject, h⟩ := Run.of_bind_ok h
  obtain ⟨hpassed, hwell, hlevel⟩ := primary_reads hexpr hp hobject
  obtain ⟨w, ws, hfirst, -⟩ := object.words_eq_cons
  have hp₁ := (hfirst ▸ hpassed).length_le_pred hp
  obtain ⟨ws', hwords, hrest, ha⟩ := trailers_passes hexpr hfuel hwell hlevel hp₁ h
  rw [hwords]
  exact ⟨hpassed.trans hrest, ha⟩

private theorem expression_succ_reads
    (hunary : Reads n (unary fuel) Expr.words fun e => e.WellFormed ∧ 9 ≤ e.level)
    (hexpression : Reads (n - 1) (expression fuel) Expr.words Expr.WellFormed) :
    Reads n (expression (fuel + 1)) Expr.words Expr.WellFormed := by
  intro p q a hp h
  obtain ⟨target, p₁, htarget, h⟩ := Run.of_bind_ok h
  obtain ⟨hpassed, hwell, -⟩ := pairs_reads PairOp.ranked_levels hunary hp htarget
  rw [Run.bind_of_ok (check_apply _ p₁)] at h
  split at h
  · obtain ⟨rfl, rfl⟩ := EStateM.Result.ok.inj h
    exact ⟨hpassed, hwell⟩
  · next hkind =>
    replace hkind : p₁.current.kind = .equal := by simpa using hkind
    rw [Run.bind_of_ok (advance_of_mark hkind rfl)] at h
    obtain ⟨value, p₂, y, hvalue, hy, h⟩ := Run.of_bind_ok_choice h
    have hsign := passes_mark hkind rfl
    have hlength := hsign.length_lt
    have hlength' := hpassed.length_le
    obtain ⟨hrest, hvalueWell⟩ := hexpression (by omega) hvalue
    have hall := hpassed.trans (hsign.trans hrest)
    dsimp only at hy
    split at hy
    · subst hy
      obtain ⟨rfl, rfl⟩ := EStateM.Result.ok.inj h
      rw [Expr.words] at hall
      exact ⟨hall, .assign hvalueWell _ _⟩
    · subst hy
      obtain ⟨rfl, rfl⟩ := EStateM.Result.ok.inj h
      cases hwell with
      | get hobject hlevel =>
        rw [Expr.words] at hall
        refine ⟨?_, .set hobject hlevel hvalueWell _ _⟩
        rw [Expr.words]
        simpa using hall
    · subst hy
      cases h

private theorem unary_succ_reads (hfuel : n - 1 ≤ fuel)
    (hexpression : Reads (n - 1) (expression fuel) Expr.words Expr.WellFormed)
    (hunary : Reads (n - 1) (unary fuel) Expr.words fun e => e.WellFormed ∧ 9 ≤ e.level) :
    Reads n (unary (fuel + 1)) Expr.words fun e => e.WellFormed ∧ 9 ≤ e.level := by
  intro p q a hp h
  obtain ⟨kind, p', y, hpeek, hy, h⟩ := Run.of_bind_ok_choice h
  obtain ⟨rfl, rfl⟩ := EStateM.Result.ok.inj hpeek
  split at hy
  · subst hy
    have hp' : p.rest.length ≤ n - 1 + 1 := by omega
    obtain ⟨hpassed, hwell, hlevel⟩ := call_reads hexpression hfuel hp' h
    exact ⟨hpassed, hwell, Nat.le_of_succ_le hlevel⟩
  · next op hop =>
    subst hy
    have hkind : p.current.kind = op.kind := UnaryOp.kind_of_ofKind? hop
    have hmark := passes_mark hkind op.isMark_kind
    rw [Run.bind_of_ok (advance_of_mark hkind op.isMark_kind)] at h
    obtain ⟨operand, p₁, hoperand, h⟩ := Run.of_bind_ok h
    obtain ⟨rfl, rfl⟩ := EStateM.Result.ok.inj h
    have hlength := hmark.length_lt
    obtain ⟨hpassed, hwell, hlevel⟩ := hunary (by omega) hoperand
    exact ⟨hmark.trans hpassed, .unary hwell hlevel _ _, Nat.le_refl 9⟩

/-- Two steps for each token are enough. -/
private theorem expression_unary_reads (fuel : Nat) :
    (∀ n, 2 * n ≤ fuel → Reads n (expression fuel) Expr.words Expr.WellFormed) ∧
      ∀ n, 2 * n ≤ fuel + 1 →
        Reads n (unary fuel) Expr.words fun e => e.WellFormed ∧ 9 ≤ e.level := by
  induction fuel with
  | zero => exact ⟨fun n _ p q a _ h => (by cases h), fun n _ p q a _ h => (by cases h)⟩
  | succ fuel ih =>
    obtain ⟨hexpression, hunary⟩ := ih
    constructor
    · intro n hn
      exact expression_succ_reads (hunary n (by omega)) (hexpression (n - 1) (by omega))
    · intro n hn
      exact unary_succ_reads (by omega) (hexpression (n - 1) (by omega)) (hunary (n - 1) (by omega))

theorem expression_reads (h : 2 * n ≤ fuel) :
    Reads n (expression fuel) Expr.words Expr.WellFormed :=
  (expression_unary_reads fuel).1 n h

/-- Between `p` and `q` there is the statement `s`, and it is well-formed there. -/
structure HasStmt (p : Parser) (s : Stmt) (q : Parser) : Prop where
  passes : Passes p s.words q
  wellFormed : s.WellFormed (decide (0 < p.functionDepth))
  closed : s.endsOpen → q.current.kind ≠ .oppure

def ReadsStmt (n : Nat) (x : Parse Stmt) (good : Stmt → Prop) : Prop :=
  ∀ ⦃p q : Parser⦄ ⦃s : Stmt⦄, p.rest.length ≤ n → x p = .ok s q →
    q.errors.size ≤ p.errors.size → HasStmt p s q ∧ good s

variable {decl stmt : Parse Stmt} {s : Stmt} {ss : List Stmt}

theorem of_recovering_ok (hgrows : Grows decl) {r : Option Stmt}
    (h : recovering decl p = .ok r q) (hclean : q.errors.size ≤ p.errors.size) :
    ∃ s, r = some s ∧ decl p = .ok s q := by
  unfold recovering at h
  cases hdecl : decl p with
  | ok s p₁ =>
    rw [hdecl] at h
    obtain ⟨rfl, rfl⟩ := EStateM.Result.ok.inj h
    exact ⟨s, rfl, rfl⟩
  | error e p₁ =>
    rw [hdecl] at h
    obtain ⟨-, rfl⟩ := EStateM.Result.ok.inj h
    have hp₁ := hgrows.of_error hdecl
    simp only [synchronize_errors, Array.size_push] at hclean
    omega

theorem declarations_passes {stop : Parser → Bool} {count : Nat} {good : Stmt → Prop}
    (hstop : ∀ p : Parser, p.rest = [] → stop p) (hgrows : Grows decl)
    (hdecl : ReadsStmt n decl good) (h : declarations stop decl count p = .ok ss q)
    (hcount : p.rest.length ≤ count) (hp : p.rest.length ≤ n)
    (hclean : q.errors.size ≤ p.errors.size) :
    Passes p (Stmt.wordsOfAll ss) q ∧ (∀ s ∈ ss, s.WellFormed (decide (0 < p.functionDepth))) ∧
      stop q := by
  induction count generalizing p ss with
  | zero =>
    obtain ⟨rfl, rfl⟩ := EStateM.Result.ok.inj h
    exact ⟨.refl p, by simp, hstop p (List.length_eq_zero_iff.mp (Nat.le_zero.mp hcount))⟩
  | succ count ih =>
    rw [declarations, Run.bind_of_ok Run.get_apply] at h
    split at h
    · next hstopped =>
      obtain ⟨rfl, rfl⟩ := EStateM.Result.ok.inj h
      exact ⟨.refl p, by simp, hstopped⟩
    obtain ⟨first, p₁, hfirst, h⟩ := Run.of_bind_ok h
    obtain ⟨others, p₂, hothers, h⟩ := Run.of_bind_ok h
    obtain ⟨rfl, rfl⟩ := EStateM.Result.ok.inj h
    have hgrows₂ := (grows_declarations hgrows stop count).of_ok hothers
    obtain ⟨s, rfl, hs⟩ := of_recovering_ok hgrows hfirst (by omega)
    obtain ⟨hthere, -⟩ := hdecl hp hs (by omega)
    have hgrows₁ := hgrows.of_ok hs
    obtain ⟨w, ws, hfirstWord, -⟩ := s.words_eq_cons
    have hlength := (hfirstWord ▸ hthere.passes).length_le_pred hcount
    obtain ⟨hrest, hall, hstopped⟩ :=
      ih hothers hlength (Nat.le_trans hthere.passes.length_le hp) (by omega)
    refine ⟨hthere.passes.trans hrest, ?_, hstopped⟩
    rw [hthere.passes.functionDepth_eq] at hall
    exact List.forall_mem_cons.mpr ⟨hthere.wellFormed, hall⟩

private theorem blockBody_passes {good : Stmt → Prop} (hgrows : Grows decl)
    (hdecl : ReadsStmt n decl good) (hfuel : n ≤ fuel) (h : blockBody fuel decl p = .ok ss q)
    (hp : p.rest.length ≤ n) (hclean : q.errors.size ≤ p.errors.size) :
    Passes p (Stmt.wordsOfAll ss ++ [.mark .rightBrace]) q ∧
      ∀ s ∈ ss, s.WellFormed (decide (0 < p.functionDepth)) := by
  obtain ⟨_, p₁, hopen, h⟩ := Run.of_bind_ok h
  obtain ⟨-, rfl⟩ := EStateM.Result.ok.inj hopen
  obtain ⟨body, p₂, hbody, h⟩ := Run.of_bind_ok h
  obtain ⟨_, p₃, hclose, h⟩ := Run.of_bind_ok h
  obtain ⟨-, rfl⟩ := EStateM.Result.ok.inj hclose
  obtain ⟨_, p₄, hbrace, h⟩ := Run.of_bind_ok h
  obtain ⟨rfl, rfl⟩ := EStateM.Result.ok.inj h
  have hmark := passes_of_consume hbrace rfl
  have herrors := congrArg Array.size hmark.errors_eq
  have hstop (p : Parser) (h : p.rest = []) : (p.current.kind == .rightBrace || p.isAtEnd) := by
    rw [isAtEnd, current, h]
    rfl
  obtain ⟨hpassed, hall, -⟩ := declarations_passes hstop hgrows hdecl hbody (Nat.le_trans hp hfuel) hp
    (Nat.le_trans (Nat.le_of_eq herrors.symm) hclean)
  exact ⟨hpassed.closed.trans hmark, hall⟩

theorem of_inFunction_ok {body : Parse α} {a : α} (h : inFunction body p = .ok a q) :
    ∃ q', body { p with functionDepth := p.functionDepth + 1 } = .ok a q' ∧
      q = { q' with functionDepth := q'.functionDepth - 1 } := by
  cases hbody : body { p with functionDepth := p.functionDepth + 1 } with
  | ok b q' =>
    rw [inFunction_of_ok hbody] at h
    obtain ⟨rfl, rfl⟩ := EStateM.Result.ok.inj h
    exact ⟨q', rfl, rfl⟩
  | error e q' =>
    rw [inFunction_of_error hbody] at h
    cases h

private theorem varDeclaration_has (hexpr : Reads n expr Expr.words Expr.WellFormed)
    (hkind : p.current.kind = .variabile) (hp : p.rest.length ≤ n + 1)
    (h : varDeclaration expr p = .ok s q) : HasStmt p s q := by
  rw [varDeclaration, Run.bind_of_ok (advance_of_mark hkind rfl)] at h
  obtain ⟨name, p₁, hname, h⟩ := Run.of_bind_ok h
  obtain ⟨initialized, p₂, haccept, h⟩ := Run.of_bind_ok h
  have hbegin := (passes_mark hkind rfl).trans (passes_of_expectName hname)
  rw [accept_apply] at haccept
  split at haccept
  · next hequal =>
    obtain ⟨rfl, rfl⟩ := EStateM.Result.ok.inj haccept
    obtain ⟨_, p₃, hsome, h⟩ := Run.of_bind_ok h
    obtain ⟨initial, hinitial, rfl⟩ := Run.of_map_ok hsome
    obtain ⟨_, p₄, hend, h⟩ := Run.of_bind_ok h
    obtain ⟨rfl, rfl⟩ := EStateM.Result.ok.inj h
    have hsign := hbegin.trans (passes_mark hequal rfl)
    obtain ⟨hpassed, hwell⟩ := hexpr (hsign.length_le_pred hp) hinitial
    refine ⟨?_, .var (by simpa using hwell) _ _, by simp [Stmt.endsOpen]⟩
    simpa [Stmt.words] using (hsign.trans hpassed).trans (passes_of_consume hend rfl)
  · obtain ⟨rfl, rfl⟩ := EStateM.Result.ok.inj haccept
    obtain ⟨_, p₃, hnone, h⟩ := Run.of_bind_ok h
    obtain ⟨rfl, rfl⟩ := EStateM.Result.ok.inj hnone
    obtain ⟨_, p₄, hend, h⟩ := Run.of_bind_ok h
    obtain ⟨rfl, rfl⟩ := EStateM.Result.ok.inj h
    refine ⟨?_, .var (by simp) _ _, by simp [Stmt.endsOpen]⟩
    simpa [Stmt.words] using hbegin.trans (passes_of_consume hend rfl)

private theorem functionDeclaration_has {good : Stmt → Prop} (hgrows : Grows decl)
    (hdecl : ReadsStmt n decl good) (hfuel : n < fuel) (hkind : p.current.kind = .funzione)
    (hp : p.rest.length ≤ n + 1) (h : functionDeclaration fuel decl p = .ok s q)
    (hclean : q.errors.size ≤ p.errors.size) : HasStmt p s q := by
  rw [functionDeclaration, Run.bind_of_ok (advance_of_mark hkind rfl)] at h
  obtain ⟨name, p₁, hname, h⟩ := Run.of_bind_ok h
  obtain ⟨_, p₂, hopen, h⟩ := Run.of_bind_ok h
  obtain ⟨params, p₃, hparams, h⟩ := Run.of_bind_ok h
  obtain ⟨_, p₄, hclose, h⟩ := Run.of_bind_ok h
  obtain ⟨_, p₅, hbrace, h⟩ := Run.of_bind_ok h
  obtain ⟨body, p₆, hbody, h⟩ := Run.of_bind_ok h
  obtain ⟨rfl, rfl⟩ := EStateM.Result.ok.inj h
  obtain ⟨p₇, hinner, rfl⟩ := of_inFunction_ok hbody
  have hbegin := ((passes_mark hkind rfl).trans (passes_of_expectName hname)).trans
    (passes_of_consume hopen rfl)
  have hparam : Reads n (expectName "parameter name") (fun name => [.name name]) fun _ => True :=
    fun _ _ _ _ h => ⟨passes_of_expectName h, trivial⟩
  obtain ⟨hparamsPassed, -⟩ := listed_reads hparam hfuel (hbegin.length_le_pred hp) hparams
  have hhead := ((hbegin.trans hparamsPassed).trans (passes_of_consume hclose rfl)).trans
    (passes_of_consume hbrace rfl)
  have herrors := congrArg Array.size hhead.errors_eq
  obtain ⟨hpassed, hall⟩ := blockBody_passes hgrows hdecl (Nat.le_of_lt hfuel) hinner
    (hhead.length_le_pred hp) (Nat.le_trans hclean (Nat.le_of_eq herrors.symm))
  refine ⟨?_, .function (by simpa using hall) _ _ _, by simp [Stmt.endsOpen]⟩
  simpa [Stmt.words] using hhead.trans hpassed.left

private theorem blockStatement_has {good : Stmt → Prop} (hgrows : Grows decl)
    (hdecl : ReadsStmt n decl good) (hfuel : n ≤ fuel) (hkind : p.current.kind = .leftBrace)
    (hp : p.rest.length ≤ n + 1) (h : blockStatement fuel decl p = .ok s q)
    (hclean : q.errors.size ≤ p.errors.size) : HasStmt p s q ∧ s.isDeclaration = false := by
  rw [blockStatement, Run.bind_of_ok (advance_of_mark hkind rfl)] at h
  obtain ⟨body, p₁, hbody, h⟩ := Run.of_bind_ok h
  obtain ⟨rfl, rfl⟩ := EStateM.Result.ok.inj h
  have hbrace := passes_mark hkind rfl
  obtain ⟨hpassed, hall⟩ := blockBody_passes hgrows hdecl hfuel hbody (hbrace.length_le_pred hp)
    (by rwa [hbrace.errors_eq])
  rw [hbrace.functionDepth_eq] at hall
  refine ⟨⟨?_, .block hall _, by simp [Stmt.endsOpen]⟩, rfl⟩
  simpa [Stmt.words] using hbrace.trans hpassed

private theorem returnStatement_has (hexpr : Reads n expr Expr.words Expr.WellFormed)
    (hkind : p.current.kind = .ritorna) (hp : p.rest.length ≤ n + 1)
    (h : returnStatement expr p = .ok s q) : HasStmt p s q ∧ s.isDeclaration = false := by
  rw [returnStatement, Run.bind_of_ok Run.get_apply] at h
  split at h
  · cases h
  · next hdepth =>
    have hinside : decide (0 < p.functionDepth) = true := by
      have : p.functionDepth ≠ 0 := by simpa using hdepth
      simpa using Nat.pos_of_ne_zero this
    have hbegin := passes_mark hkind rfl
    obtain ⟨_, p', hadvance, h⟩ := Run.of_bind_ok h
    rw [advance_of_mark hkind rfl] at hadvance
    obtain ⟨rfl, rfl⟩ := EStateM.Result.ok.inj hadvance
    rw [Run.bind_of_ok (check_apply _ p.next)] at h
    split at h
    · obtain ⟨_, p₁, hnone, h⟩ := Run.of_bind_ok h
      obtain ⟨rfl, rfl⟩ := EStateM.Result.ok.inj hnone
      obtain ⟨_, p₂, hend, h⟩ := Run.of_bind_ok h
      obtain ⟨rfl, rfl⟩ := EStateM.Result.ok.inj h
      refine ⟨⟨?_, hinside ▸ .ret (by simp) _, by simp [Stmt.endsOpen]⟩, rfl⟩
      simpa [Stmt.words] using hbegin.trans (passes_of_consume hend rfl)
    · obtain ⟨_, p₁, hsome, h⟩ := Run.of_bind_ok h
      obtain ⟨value, hvalue, rfl⟩ := Run.of_map_ok hsome
      obtain ⟨_, p₂, hend, h⟩ := Run.of_bind_ok h
      obtain ⟨rfl, rfl⟩ := EStateM.Result.ok.inj h
      obtain ⟨hpassed, hwell⟩ := hexpr (hbegin.length_le_pred hp) hvalue
      refine ⟨⟨?_, hinside ▸ .ret (by simpa using hwell) _, by simp [Stmt.endsOpen]⟩, rfl⟩
      simpa [Stmt.words] using (hbegin.trans hpassed).trans (passes_of_consume hend rfl)

private theorem expressionStatement_has (hexpr : Reads n expr Expr.words Expr.WellFormed)
    (hp : p.rest.length ≤ n) (h : expressionStatement expr p = .ok s q) :
    HasStmt p s q ∧ s.isDeclaration = false := by
  obtain ⟨value, p₁, hvalue, h⟩ := Run.of_bind_ok h
  obtain ⟨_, p₂, hend, h⟩ := Run.of_bind_ok h
  obtain ⟨rfl, rfl⟩ := EStateM.Result.ok.inj h
  obtain ⟨hpassed, hwell⟩ := hexpr hp hvalue
  refine ⟨⟨?_, .expr hwell _, by simp [Stmt.endsOpen]⟩, rfl⟩
  rw [Stmt.words]
  exact hpassed.trans (passes_of_consume hend rfl)

private theorem whileStatement_has (hexpr : Reads n expr Expr.words Expr.WellFormed)
    (hstmt : ReadsStmt n stmt fun s => s.isDeclaration = false) (hkind : p.current.kind = .mentre)
    (hp : p.rest.length ≤ n + 1) (h : whileStatement expr stmt p = .ok s q)
    (hclean : q.errors.size ≤ p.errors.size) : HasStmt p s q ∧ s.isDeclaration = false := by
  rw [whileStatement, Run.bind_of_ok (advance_of_mark hkind rfl)] at h
  obtain ⟨_, p₁, hopen, h⟩ := Run.of_bind_ok h
  rw [Run.bind_of_ok (check_apply _ p₁)] at h
  split at h
  · cases h
  obtain ⟨condition, p₂, hcondition, h⟩ := Run.of_bind_ok h
  obtain ⟨_, p₃, hclose, h⟩ := Run.of_bind_ok h
  obtain ⟨body, p₄, hbody, h⟩ := Run.of_bind_ok h
  obtain ⟨rfl, rfl⟩ := EStateM.Result.ok.inj h
  have hbegin := (passes_mark hkind rfl).trans (passes_of_consume hopen rfl)
  obtain ⟨hpassed, hwell⟩ := hexpr (hbegin.length_le_pred hp) hcondition
  have hhead := (hbegin.trans hpassed).trans (passes_of_consume hclose rfl)
  obtain ⟨hthere, hbodyKind⟩ := hstmt (hhead.length_le_pred hp) hbody (by rwa [hhead.errors_eq])
  have hbodyWell := hthere.wellFormed
  rw [hhead.functionDepth_eq] at hbodyWell
  refine ⟨⟨?_, .loop hwell hbodyWell hbodyKind _, hthere.closed⟩, rfl⟩
  simpa [Stmt.words] using hhead.trans hthere.passes

private theorem ifStatement_has (hexpr : Reads n expr Expr.words Expr.WellFormed)
    (hgrows : Grows stmt) (hstmt : ReadsStmt n stmt fun s => s.isDeclaration = false)
    (hkind : p.current.kind = .se) (hp : p.rest.length ≤ n + 1)
    (h : ifStatement expr stmt p = .ok s q) (hclean : q.errors.size ≤ p.errors.size) :
    HasStmt p s q ∧ s.isDeclaration = false := by
  rw [ifStatement, Run.bind_of_ok (advance_of_mark hkind rfl)] at h
  obtain ⟨_, p₁, hopen, h⟩ := Run.of_bind_ok h
  obtain ⟨condition, p₂, hcondition, h⟩ := Run.of_bind_ok h
  obtain ⟨_, p₃, hclose, h⟩ := Run.of_bind_ok h
  obtain ⟨thenBranch, p₄, hthen, h⟩ := Run.of_bind_ok h
  obtain ⟨followed, p₅, haccept, h⟩ := Run.of_bind_ok h
  have hbegin := (passes_mark hkind rfl).trans (passes_of_consume hopen rfl)
  obtain ⟨hpassed, hwell⟩ := hexpr (hbegin.length_le_pred hp) hcondition
  have hhead := (hbegin.trans hpassed).trans (passes_of_consume hclose rfl)
  have hp₃ := hhead.length_le_pred hp
  rw [← hhead.errors_eq] at hclean
  rw [accept_apply] at haccept
  split at haccept
  · next hoppure =>
    obtain ⟨rfl, rfl⟩ := EStateM.Result.ok.inj haccept
    obtain ⟨_, p₆, hsome, h⟩ := Run.of_bind_ok h
    obtain ⟨elseBranch, helse, rfl⟩ := Run.of_map_ok hsome
    obtain ⟨rfl, rfl⟩ := EStateM.Result.ok.inj h
    -- An error in either branch would stay, so neither left one.
    have hgrowsElse := hgrows.of_ok helse
    have hgrowsThen := hgrows.of_ok hthen
    rw [next_errors] at hgrowsElse
    obtain ⟨hthere, hthenKind⟩ := hstmt hp₃ hthen (by omega)
    have hmark := passes_mark hoppure rfl
    have hsofar := hthere.passes.trans hmark
    obtain ⟨hthere', helseKind⟩ := hstmt (Nat.le_trans hsofar.length_le hp₃) helse
      (by rw [next_errors]; omega)
    have hthenWell := hthere.wellFormed
    have helseWell := hthere'.wellFormed
    rw [hsofar.functionDepth_eq, hhead.functionDepth_eq] at helseWell
    rw [hhead.functionDepth_eq] at hthenWell
    refine ⟨⟨?_, .cond hwell hthenWell hthenKind (by simpa using helseWell) (by simpa using helseKind)
      ?_ _, hthere'.closed⟩, rfl⟩
    · simpa [Stmt.words, Stmt.wordsOfElse] using hhead.trans (hsofar.trans hthere'.passes)
    · intro _
      cases hends : thenBranch.endsOpen with
      | false => rfl
      | true => exact absurd hoppure (hthere.closed hends)
  · next hoppure =>
    obtain ⟨rfl, rfl⟩ := EStateM.Result.ok.inj haccept
    obtain ⟨_, p₅, hnone, h⟩ := Run.of_bind_ok h
    obtain ⟨rfl, rfl⟩ := EStateM.Result.ok.inj hnone
    obtain ⟨rfl, rfl⟩ := EStateM.Result.ok.inj h
    obtain ⟨hthere, hthenKind⟩ := hstmt hp₃ hthen hclean
    have hthenWell := hthere.wellFormed
    rw [hhead.functionDepth_eq] at hthenWell
    refine ⟨⟨?_, .cond hwell hthenWell hthenKind (by simp) (by simp) (by simp) _, fun _ => hoppure⟩,
      rfl⟩
    simpa [Stmt.words, Stmt.wordsOfElse] using hhead.trans hthere.passes

theorem declaration_statement_reads (fuel : Nat) :
    (∀ n, 2 * n + 2 ≤ fuel → ReadsStmt n (declaration fuel) fun _ => True) ∧
      ∀ n, 2 * n + 1 ≤ fuel → ReadsStmt n (statement fuel) fun s => s.isDeclaration = false := by
  induction fuel with
  | zero => exact ⟨fun n hn => (by omega), fun n hn => (by omega)⟩
  | succ fuel ih =>
    obtain ⟨hdeclaration, hstatement⟩ := ih
    obtain ⟨hgrows, hgrows'⟩ := grows_declaration_statement fuel
    constructor
    · intro n hn p q s hp h hclean
      obtain ⟨kind, p', y, hpeek, hy, h⟩ := Run.of_bind_ok_choice h
      obtain ⟨rfl, rfl⟩ := EStateM.Result.ok.inj hpeek
      refine ⟨?_, trivial⟩
      split at hy
      · next hkind =>
        subst hy
        exact varDeclaration_has (expression_reads (by omega)) hkind (Nat.le_succ_of_le hp) h
      · next hkind =>
        subst hy
        have hpos := length_pos_of_mark hkind rfl
        exact functionDeclaration_has hgrows (hdeclaration (n - 1) (by omega)) (by omega) hkind
          (by omega) h hclean
      · subst hy
        exact (hstatement n (by omega) hp h hclean).1
    · intro n hn p q s hp h hclean
      obtain ⟨kind, p', y, hpeek, hy, h⟩ := Run.of_bind_ok_choice h
      obtain ⟨rfl, rfl⟩ := EStateM.Result.ok.inj hpeek
      have hexpr : Reads n (expression fuel) Expr.words Expr.WellFormed := expression_reads (by omega)
      have hexpr' := hexpr.mono (Nat.sub_le n 1)
      split at hy
      · next hkind =>
        subst hy
        have hpos := length_pos_of_mark hkind rfl
        exact ifStatement_has hexpr' hgrows' (hstatement (n - 1) (by omega)) hkind (by omega) h hclean
      · next hkind =>
        subst hy
        have hpos := length_pos_of_mark hkind rfl
        exact whileStatement_has hexpr' (hstatement (n - 1) (by omega)) hkind (by omega) h hclean
      · next hkind =>
        subst hy
        exact returnStatement_has hexpr' hkind (by omega) h
      · next hkind =>
        subst hy
        have hpos := length_pos_of_mark hkind rfl
        exact blockStatement_has hgrows (hdeclaration (n - 1) (by omega)) (by omega) hkind (by omega) h
          hclean
      · subst hy
        exact expressionStatement_has hexpr hp h

theorem program_passes {tokens : List Token}
    (h : program (fuelFor tokens.length) (ofTokens tokens) = .ok ss q) (hclean : q.errors = #[]) :
    Passes (ofTokens tokens) (Stmt.wordsOfAll ss) q ∧ (∀ s ∈ ss, s.WellFormed false) ∧ q.isAtEnd := by
  have hfuel : fuelFor tokens.length = 4 * tokens.length + 4 := rfl
  have hstop (p : Parser) (h : p.rest = []) : p.isAtEnd := by
    rw [isAtEnd, current, h]
    rfl
  have hdecl := (declaration_statement_reads (fuelFor tokens.length)).1 tokens.length (by omega)
  have hgrows := (grows_declaration_statement (fuelFor tokens.length)).1
  exact declarations_passes hstop hgrows hdecl h (by simp only [ofTokens]; omega) (Nat.le_refl _)
    (by rw [hclean]; exact Nat.zero_le _)

end Parser

namespace Program

theorem program_of_parse {tokens : List Token} {program : List Stmt}
    (h : parse tokens = .ok program) :
    ∃ q, Parser.program (Parser.fuelFor tokens.length) (.ofTokens tokens) = .ok program q ∧
      q.errors = #[] := by
  unfold parse at h
  split at h
  · next stmts q hrun =>
    split at h
    · next hempty =>
      obtain rfl := Except.ok.inj h
      exact ⟨q, hrun, by simpa using hempty⟩
    · cases h
  · cases h

private theorem takeWhile_ne_eof {ts rest : List Token} (hts : ∀ t ∈ ts, t.kind ≠ .eof)
    (hrest : rest.takeWhile (·.kind != .eof) = []) :
    (ts ++ rest).takeWhile (·.kind != .eof) = ts := by
  rw [List.takeWhile_append_of_pos (by simpa using hts), hrest, List.append_nil]

private theorem takeWhile_of_isAtEnd {q : Parser} (h : q.isAtEnd) :
    q.rest.takeWhile (·.kind != .eof) = [] := by
  cases hrest : q.rest with
  | nil => rfl
  | cons t rest =>
    have hkind : t.kind = .eof := by simpa [Parser.isAtEnd, Parser.current, hrest] using h
    simp [hkind]

theorem passed_eq {ts passed : List Token} {e : Token} {q : Parser} (hts : ∀ t ∈ ts, t.kind ≠ .eof)
    (he : e.kind = .eof) (hpassed : ∀ t ∈ passed, t.kind ≠ .eof) (hend : q.isAtEnd)
    (hrest : ts ++ [e] = passed ++ q.rest) : passed = ts := by
  rw [← takeWhile_ne_eof hpassed (takeWhile_of_isAtEnd hend), ← hrest]
  exact takeWhile_ne_eof hts (by simp [he])

/-- A program that is read from scanned tokens is, written out, those tokens, and it is
well-formed. -/
theorem parse_sound {tokens : List Token} {program : List Stmt} (hscan : Token.Scanned tokens)
    (hparse : parse tokens = .ok program) :
    tokens.map Token.word = words program ∧
      ∀ s ∈ program, s.WellFormed false := by
  obtain ⟨ts, e, rfl, he, hts⟩ := hscan.eof
  obtain ⟨q, hrun, herrors⟩ := program_of_parse hparse
  obtain ⟨hpassed, hwell, hend⟩ := Parser.program_passes hrun herrors
  refine ⟨?_, hwell⟩
  obtain ⟨passed, hwords, hkinds, hrest, -⟩ := hpassed.passed
  -- Both are what comes before the first end of the text.
  have hpassed : passed = ts := by
    rw [← takeWhile_ne_eof hkinds (takeWhile_of_isAtEnd hend), ← hrest]
    exact takeWhile_ne_eof hts (by simp [he])
  have hword : e.word = .mark .eof := by
    obtain ⟨kind, lexeme, literal, span⟩ := e
    obtain rfl : kind = .eof := he
    rfl
  rw [words, List.map_append, List.map_singleton, hword, ← hwords, hpassed]

/-- A text where an `oppure` has two `se` to choose from. -/
theorem parse_sound_two_conditions :
    ∃ tokens program, Token.scan "se (a) se (b) x.y = -f(1)(2) + 2 * 3; oppure x;" = .ok tokens ∧
      parse tokens = .ok program ∧
      tokens.map Token.word = words program ∧
      ∀ s ∈ program, s.WellFormed false := by
  have hread : ((Token.scan "se (a) se (b) x.y = -f(1)(2) + 2 * 3; oppure x;").toOption.bind
      fun tokens => (parse tokens).toOption).isSome := by
    decide +kernel
  generalize "se (a) se (b) x.y = -f(1)(2) + 2 * 3; oppure x;" = text at hread ⊢
  cases hscan : Token.scan text with
  | error e => simp [hscan, Except.toOption] at hread
  | ok tokens =>
    cases hparse : parse tokens with
    | error e => simp [hscan, hparse, Except.toOption] at hread
    | ok program => exact ⟨tokens, program, rfl, hparse, parse_sound (.text text hscan) hparse⟩

end Program
end Copione
