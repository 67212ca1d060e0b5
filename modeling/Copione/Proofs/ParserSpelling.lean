import Copione.Proofs.ParserSoundness
import Copione.Proofs.Spelling
/-!
# The parser gives trees their spans

What the parser reads without an error is spelled by the tokens that it passes: the spans of the tree
are those of its tokens.
-/
namespace Copione

private theorem PairOp.join_spelled {op : PairOp} {left right : Expr} {t : Token} {ts us : List Token}
    (hleft : left.Spelled ts) (hop : t.word = .mark op.kind) (hright : right.Spelled us) :
    (op.join left right).Spelled (ts ++ t :: us) := by
  cases op with
  | binary op => exact .binary hleft hop hright
  | logical op => exact .logical hleft hop hright

namespace Parser

variable {α : Type} {p q r : Parser} {ts us : List Token} {t : Token} {n fuel : Nat} {expr : Parse Expr}

structure Takes (p : Parser) (ts : List Token) (q : Parser) : Prop where
  rest_eq : p.rest = ts ++ q.rest
  before_eq : q.before = ts.reverse ++ p.before
  errors_eq : q.errors = p.errors

private theorem Takes.refl (p : Parser) : Takes p [] p := ⟨rfl, rfl, rfl⟩

private theorem Takes.trans (h : Takes p ts q) (h' : Takes q us r) : Takes p (ts ++ us) r := by
  refine ⟨?_, ?_, h'.errors_eq.trans h.errors_eq⟩
  · rw [h.rest_eq, h'.rest_eq, List.append_assoc]
  · rw [h'.before_eq, h.before_eq, List.reverse_append, List.append_assoc]

private theorem Takes.length_eq (h : Takes p ts q) : p.rest.length = ts.length + q.rest.length := by
  rw [h.rest_eq, List.length_append]

private theorem Takes.previous_eq (h : Takes p ts q) (hlast : ts.getLast? = some t) :
    q.previous = t := by
  obtain ⟨us, rfl⟩ := List.getLast?_eq_some_iff.1 hlast
  rw [previous, h.before_eq]
  simp

private theorem Takes.previous_one (h : Takes p [t] q) : q.previous = t := h.previous_eq rfl

private theorem Takes.spanFrom (h : Takes p [t] q) (start : Span) :
    spanFrom start q = .ok (start.through t.span) q := by
  rw [← h.previous_one]
  rfl

private theorem Passes.takes {ws : List Word} (h : Passes p ws q) :
    ∃ ts, ts.map Token.word = ws ∧ Takes p ts q := by
  obtain ⟨ts, hwords, -, hrest, hbefore⟩ := h.passed
  exact ⟨ts, hwords, hrest, hbefore, h.errors_eq⟩

private theorem Passes.takes_one {w : Word} (h : Passes p [w] q) : ∃ t : Token, t.word = w ∧ Takes p
    [t] q := by
  obtain ⟨ts, hwords, htakes⟩ := h.takes
  obtain ⟨t, rfl, hword⟩ := List.map_eq_singleton_iff.1 hwords
  exact ⟨t, hword, htakes⟩

private theorem takes_next (h : p.current.kind ≠ .eof) : Takes p [p.current] p.next := by
  obtain ⟨t, -, htakes⟩ := (passes_next h).takes_one
  have hcurrent : p.current = t := by
    rw [current, htakes.rest_eq]
    rfl
  rwa [hcurrent]

private theorem takes_mark {kind : TokenKind} (hcurrent : p.current.kind = kind) (hkind : kind.isMark) :
    p.current.word = .mark kind ∧ Takes p [p.current] p.next :=
  ⟨Token.word_of_mark hcurrent hkind, takes_next (hcurrent ▸ ne_eof_of_isMark hkind)⟩

/-- With at most `n` tokens to come, what `x` gives is spelled by the tokens that it takes. -/
def Spells (n : Nat) (x : Parse α) (spelled : List Token → α → Prop) : Prop :=
  ∀ ⦃p q : Parser⦄ ⦃a : α⦄, p.rest.length ≤ n → x p = .ok a q → ∃ ts, Takes p ts q ∧ spelled ts a

private theorem Spells.mono {m : Nat} {x : Parse α} {spelled : List Token → α → Prop}
    (h : Spells n x spelled) (hm : m ≤ n) : Spells m x spelled :=
  fun _ _ _ hp hx => h (Nat.le_trans hp hm) hx

private theorem foldPairs_spells {ops : List PairOp} {operand : Parse Expr}
    (hoperand : Spells n operand Expr.Spelled) {left a : Expr} {ls : List Token}
    (hleft : left.Spelled ls) (hp : p.rest.length ≤ n)
    (h : foldPairs ops operand fuel left p = .ok a q) :
    ∃ ts, Takes p ts q ∧ a.Spelled (ls ++ ts) := by
  induction fuel generalizing left ls p with
  | zero =>
    obtain ⟨rfl, rfl⟩ := EStateM.Result.ok.inj h
    exact ⟨[], .refl p, by simpa using hleft⟩
  | succ fuel ih =>
    obtain ⟨kind, p', y, hpeek, hy, h⟩ := Run.of_bind_ok_choice h
    obtain ⟨rfl, rfl⟩ := EStateM.Result.ok.inj hpeek
    split at hy
    · subst hy
      obtain ⟨rfl, rfl⟩ := EStateM.Result.ok.inj h
      exact ⟨[], .refl p, by simpa using hleft⟩
    · next op hop =>
      have hkind : op.kind = p.current.kind := by simpa using List.find?_some hop
      obtain ⟨hword, hnext⟩ := takes_mark hkind.symm op.isMark_kind
      subst hy
      rw [Run.bind_of_ok (Run.modify_apply next)] at h
      obtain ⟨right, p₁, hright, h⟩ := Run.of_bind_ok h
      have hlength := hnext.length_eq
      obtain ⟨rs, htakes, hspelled⟩ := hoperand (by omega) hright
      have hlength' := htakes.length_eq
      obtain ⟨us, hrest, ha⟩ := ih (PairOp.join_spelled hleft hword hspelled) (by omega) h
      refine ⟨_, (hnext.trans htakes).trans hrest, ?_⟩
      simpa using ha

private theorem pairs_spells {operand : Parse Expr} (hoperand : Spells n operand Expr.Spelled)
    (levels : List (List PairOp)) : Spells n (pairs fuel operand levels) Expr.Spelled := by
  induction levels with
  | nil => exact hoperand
  | cons ops tighter ih =>
    intro p q a hp h
    obtain ⟨left, p₁, hleft, h⟩ := Run.of_bind_ok h
    obtain ⟨ls, htakes, hspelled⟩ := ih hp hleft
    have hlength := htakes.length_eq
    obtain ⟨ts, hrest, ha⟩ := foldPairs_spells ih hspelled (by omega) h
    exact ⟨_, htakes.trans hrest, ha⟩

private theorem commaSeparated_spells {count : Nat} (hexpr : Spells n expr Expr.Spelled)
    (hcount : n < count) :
    Spells n (commaSeparated expr count) fun ts es => es ≠ [] ∧ Expr.SpelledAll ts es := by
  induction count generalizing n with
  | zero => exact absurd hcount (Nat.not_lt_zero n)
  | succ count ih =>
    intro p q es hp h
    rw [commaSeparated] at h
    obtain ⟨first, p₁, hfirst, h⟩ := Run.of_bind_ok h
    obtain ⟨ts, htakes, hspelled⟩ := hexpr hp hfirst
    obtain ⟨more, p₂, haccept, h⟩ := Run.of_bind_ok h
    rw [accept_apply] at haccept
    split at haccept
    · next hcomma =>
      obtain ⟨rfl, rfl⟩ := EStateM.Result.ok.inj haccept
      obtain ⟨others, p₃, hothers, h⟩ := Run.of_bind_ok h
      obtain ⟨rfl, rfl⟩ := EStateM.Result.ok.inj h
      obtain ⟨hword, hmark⟩ := takes_mark hcomma rfl
      have hlength := (htakes.trans hmark).length_eq
      rw [List.length_append, List.length_singleton] at hlength
      obtain ⟨us, hrest, hsome, hall⟩ :=
        ih (hexpr.mono (Nat.sub_le n 1)) (by omega) (by omega) hothers
      refine ⟨_, htakes.trans (hmark.trans hrest), List.cons_ne_nil _ _, ?_⟩
      cases others with
      | nil => exact absurd rfl hsome
      | cons second others => exact .cons hspelled hword hall
    · obtain ⟨rfl, rfl⟩ := EStateM.Result.ok.inj haccept
      obtain ⟨rfl, rfl⟩ := EStateM.Result.ok.inj h
      exact ⟨ts, htakes, List.cons_ne_nil _ _, .one hspelled⟩

private theorem listed_spells {count : Nat} (hexpr : Spells n expr Expr.Spelled)
    (hcount : n < count) : Spells n (listed count expr) Expr.SpelledAll := by
  intro p q es hp h
  rw [listed, Run.bind_of_ok (check_apply _ p)] at h
  split at h
  · obtain ⟨rfl, rfl⟩ := EStateM.Result.ok.inj h
    exact ⟨[], .refl p, .nil⟩
  · obtain ⟨ts, htakes, -, hall⟩ := commaSeparated_spells hexpr hcount hp h
    exact ⟨ts, htakes, hall⟩

private theorem primary_spells (hexpr : Spells n expr Expr.Spelled) :
    Spells (n + 1) (primary expr) Expr.Spelled := by
  intro p q a hp h
  obtain ⟨s, p', y, hget, hy, h⟩ := Run.of_bind_ok_choice h
  obtain ⟨rfl, rfl⟩ := EStateM.Result.ok.inj hget
  dsimp only at hy
  split at hy
  · next value hvalue =>
    subst hy
    obtain ⟨rfl, rfl⟩ := EStateM.Result.ok.inj h
    have hword := constant?_eq_some.mp hvalue
    have heof : p.current.kind ≠ .eof := by
      rw [← Token.word_kind, hword]
      exact TokenKind.ne_of_beginsExpr value.kind_beginsExpr rfl
    exact ⟨_, takes_next heof, .literal hword⟩
  split at hy
  · next hkind =>
    subst hy
    obtain ⟨rfl, rfl⟩ := EStateM.Result.ok.inj h
    obtain ⟨hword, htakes⟩ := takes_mark hkind rfl
    exact ⟨_, htakes, .questo hword⟩
  · next hkind =>
    subst hy
    rw [Run.bind_of_ok (Run.modify_apply next)] at h
    obtain ⟨_, p₁, hdot, h⟩ := Run.of_bind_ok h
    obtain ⟨method, p₂, hname, h⟩ := Run.of_bind_ok h
    obtain ⟨rfl, rfl⟩ := EStateM.Result.ok.inj h
    obtain ⟨hword, htakes⟩ := takes_mark hkind rfl
    obtain ⟨dot, hdotWord, hdotTakes⟩ := (passes_of_consume hdot rfl).takes_one
    obtain ⟨last, hlastWord, hlastTakes⟩ := (passes_of_expectName hname).takes_one
    rw [hlastTakes.previous_one]
    exact ⟨_, (htakes.trans hdotTakes).trans hlastTakes, .super hword hdotWord hlastWord⟩
  · next hkind =>
    subst hy
    obtain ⟨rfl, rfl⟩ := EStateM.Result.ok.inj h
    exact ⟨_, takes_next (by rw [hkind]; simp), .name (Token.word_of_identifier hkind)⟩
  · next hkind =>
    subst hy
    rw [Run.bind_of_ok (Run.modify_apply next)] at h
    obtain ⟨inner, p₁, hinner, h⟩ := Run.of_bind_ok h
    obtain ⟨_, p₂, hclose, h⟩ := Run.of_bind_ok h
    obtain ⟨rfl, rfl⟩ := EStateM.Result.ok.inj h
    obtain ⟨hword, hopen⟩ := takes_mark hkind rfl
    have hlength := hopen.length_eq
    rw [List.length_singleton] at hlength
    obtain ⟨ts, htakes, hspelled⟩ := hexpr (by omega) hinner
    obtain ⟨last, hlastWord, hlast⟩ := (passes_of_consume hclose rfl).takes_one
    rw [hlast.previous_one]
    exact ⟨_, (hopen.trans htakes).trans hlast, .group hword hspelled hlastWord⟩
  · subst hy
    cases h

private theorem trailers_spells {count : Nat} (hexpr : Spells n expr Expr.Spelled) (hfuel : n ≤ fuel)
    {object a : Expr} {os : List Token} (hobject : object.Spelled os) (hp : p.rest.length ≤ n)
    (h : trailers fuel expr count object p = .ok a q) :
    ∃ ts, Takes p ts q ∧ a.Spelled (os ++ ts) := by
  induction count generalizing object os p with
  | zero =>
    obtain ⟨rfl, rfl⟩ := EStateM.Result.ok.inj h
    exact ⟨[], .refl p, by simpa using hobject⟩
  | succ count ih =>
    obtain ⟨opened, p₁, hopened, h⟩ := Run.of_bind_ok h
    rw [accept_apply] at hopened
    split at hopened
    · next hkind =>
      obtain ⟨rfl, rfl⟩ := EStateM.Result.ok.inj hopened
      obtain ⟨arguments, p₂, harguments, h⟩ := Run.of_bind_ok h
      obtain ⟨_, p₃, hclose, h⟩ := Run.of_bind_ok h
      obtain ⟨hword, hopen⟩ := takes_mark hkind rfl
      have hlength := hopen.length_eq
      rw [List.length_singleton] at hlength
      obtain ⟨us, htakes, hall⟩ :=
        listed_spells (hexpr.mono (Nat.sub_le n 1)) (by omega) (by omega) harguments
      obtain ⟨last, hlastWord, hlast⟩ := (passes_of_consume hclose rfl).takes_one
      have hcall := hopen.trans (htakes.trans hlast)
      have hlength' := hcall.length_eq
      rw [Run.bind_of_ok (hlast.spanFrom _)] at h
      obtain ⟨vs, hrest, ha⟩ := ih (.call hobject hword hall hlastWord) (by omega) h
      exact ⟨_, hcall.trans hrest, by simpa using ha⟩
    obtain ⟨rfl, rfl⟩ := EStateM.Result.ok.inj hopened
    obtain ⟨dotted, p₂, hdotted, h⟩ := Run.of_bind_ok h
    rw [accept_apply] at hdotted
    split at hdotted
    · next hkind =>
      obtain ⟨rfl, rfl⟩ := EStateM.Result.ok.inj hdotted
      obtain ⟨name, p₃, hname, h⟩ := Run.of_bind_ok h
      obtain ⟨hword, hdot⟩ := takes_mark hkind rfl
      obtain ⟨last, hlastWord, hlast⟩ := (passes_of_expectName hname).takes_one
      have hget := hdot.trans hlast
      have hlength := hget.length_eq
      rw [Run.bind_of_ok (hlast.spanFrom _)] at h
      obtain ⟨vs, hrest, ha⟩ := ih (.get hobject hword hlastWord) (by omega) h
      exact ⟨_, hget.trans hrest, by simpa using ha⟩
    · obtain ⟨rfl, rfl⟩ := EStateM.Result.ok.inj hdotted
      obtain ⟨rfl, rfl⟩ := EStateM.Result.ok.inj h
      exact ⟨[], .refl p, by simpa using hobject⟩

private theorem call_spells (hexpr : Spells n expr Expr.Spelled) (hfuel : n ≤ fuel) :
    Spells (n + 1) (call fuel expr) Expr.Spelled := by
  intro p q a hp h
  obtain ⟨object, p₁, hobject, h⟩ := Run.of_bind_ok h
  obtain ⟨os, htakes, hspelled⟩ := primary_spells hexpr hp hobject
  have hlength := htakes.length_eq
  have hpos := hspelled.length_pos
  obtain ⟨ts, hrest, ha⟩ := trailers_spells hexpr hfuel hspelled (by omega) h
  exact ⟨_, htakes.trans hrest, ha⟩

private theorem expression_succ_spells (hunary : Spells n (unary fuel) Expr.Spelled)
    (hexpression : Spells (n - 1) (expression fuel) Expr.Spelled) :
    Spells n (expression (fuel + 1)) Expr.Spelled := by
  intro p q a hp h
  obtain ⟨target, p₁, htarget, h⟩ := Run.of_bind_ok h
  obtain ⟨ts, htakes, hspelled⟩ := pairs_spells hunary _ hp htarget
  rw [Run.bind_of_ok (check_apply _ p₁)] at h
  split at h
  · obtain ⟨rfl, rfl⟩ := EStateM.Result.ok.inj h
    exact ⟨ts, htakes, hspelled⟩
  · next hkind =>
    replace hkind : p₁.current.kind = .equal := by simpa using hkind
    rw [Run.bind_of_ok (advance_of_mark hkind rfl)] at h
    obtain ⟨value, p₂, y, hvalue, hy, h⟩ := Run.of_bind_ok_choice h
    obtain ⟨hsignWord, hsign⟩ := takes_mark hkind rfl
    have hlength := htakes.length_eq
    have hlength' := hsign.length_eq
    rw [List.length_singleton] at hlength'
    obtain ⟨vs, hrest, hvalueSpelled⟩ := hexpression (by omega) hvalue
    have hall := htakes.trans (hsign.trans hrest)
    dsimp only at hy
    split at hy
    · subst hy
      obtain ⟨rfl, rfl⟩ := EStateM.Result.ok.inj h
      cases hspelled with
      | name hname => exact ⟨_, hall, .assign hname hsignWord hvalueSpelled⟩
    · subst hy
      obtain ⟨rfl, rfl⟩ := EStateM.Result.ok.inj h
      cases hspelled with
      | get hobject hdot hname =>
        rw [List.append_assoc] at hall
        exact ⟨_, hall, .set hobject hdot hname hsignWord hvalueSpelled⟩
    · subst hy
      cases h

private theorem unary_succ_spells (hfuel : n - 1 ≤ fuel)
    (hexpression : Spells (n - 1) (expression fuel) Expr.Spelled)
    (hunary : Spells (n - 1) (unary fuel) Expr.Spelled) :
    Spells n (unary (fuel + 1)) Expr.Spelled := by
  intro p q a hp h
  obtain ⟨kind, p', y, hpeek, hy, h⟩ := Run.of_bind_ok_choice h
  obtain ⟨rfl, rfl⟩ := EStateM.Result.ok.inj hpeek
  split at hy
  · subst hy
    have hp' : p.rest.length ≤ n - 1 + 1 := by omega
    exact call_spells hexpression hfuel hp' h
  · next op hop =>
    subst hy
    have hkind : p.current.kind = op.kind := UnaryOp.kind_of_ofKind? hop
    obtain ⟨hword, hmark⟩ := takes_mark hkind op.isMark_kind
    rw [Run.bind_of_ok (advance_of_mark hkind op.isMark_kind)] at h
    obtain ⟨operand, p₁, hoperand, h⟩ := Run.of_bind_ok h
    obtain ⟨rfl, rfl⟩ := EStateM.Result.ok.inj h
    have hlength := hmark.length_eq
    rw [List.length_singleton] at hlength
    obtain ⟨ts, htakes, hspelled⟩ := hunary (by omega) hoperand
    exact ⟨_, hmark.trans htakes, .unary hword hspelled⟩

private theorem expression_unary_spells (fuel : Nat) :
    (∀ n, 2 * n ≤ fuel → Spells n (expression fuel) Expr.Spelled) ∧
      ∀ n, 2 * n ≤ fuel + 1 → Spells n (unary fuel) Expr.Spelled := by
  induction fuel with
  | zero => exact ⟨fun n _ p q a _ h => (by cases h), fun n _ p q a _ h => (by cases h)⟩
  | succ fuel ih =>
    obtain ⟨hexpression, hunary⟩ := ih
    constructor
    · intro n hn
      exact expression_succ_spells (hunary n (by omega)) (hexpression (n - 1) (by omega))
    · intro n hn
      exact unary_succ_spells (by omega) (hexpression (n - 1) (by omega)) (hunary (n - 1) (by omega))

private theorem expression_spells (h : 2 * n ≤ fuel) : Spells n (expression fuel) Expr.Spelled :=
  (expression_unary_spells fuel).1 n h

def SpellsStmt (n : Nat) (x : Parse Stmt) : Prop :=
  ∀ ⦃p q : Parser⦄ ⦃s : Stmt⦄, p.rest.length ≤ n → x p = .ok s q →
    q.errors.size ≤ p.errors.size → ∃ ts, Takes p ts q ∧ s.Spelled ts

variable {decl stmt : Parse Stmt} {s : Stmt} {ss : List Stmt}

private theorem declarations_spells {stop : Parser → Bool} {count : Nat} (hgrows : Grows decl)
    (hdecl : SpellsStmt n decl) (h : declarations stop decl count p = .ok ss q)
    (hp : p.rest.length ≤ n) (hclean : q.errors.size ≤ p.errors.size) :
    ∃ ts, Takes p ts q ∧ Stmt.SpelledAll ts ss := by
  induction count generalizing p ss with
  | zero =>
    obtain ⟨rfl, rfl⟩ := EStateM.Result.ok.inj h
    exact ⟨[], .refl p, .nil⟩
  | succ count ih =>
    rw [declarations, Run.bind_of_ok Run.get_apply] at h
    split at h
    · obtain ⟨rfl, rfl⟩ := EStateM.Result.ok.inj h
      exact ⟨[], .refl p, .nil⟩
    obtain ⟨first, p₁, hfirst, h⟩ := Run.of_bind_ok h
    obtain ⟨others, p₂, hothers, h⟩ := Run.of_bind_ok h
    obtain ⟨rfl, rfl⟩ := EStateM.Result.ok.inj h
    have hgrows₂ := (grows_declarations hgrows stop count).of_ok hothers
    obtain ⟨s, rfl, hs⟩ := of_recovering_ok hgrows hfirst (by omega)
    obtain ⟨ts, htakes, hspelled⟩ := hdecl hp hs (by omega)
    have hgrows₁ := hgrows.of_ok hs
    have hlength := htakes.length_eq
    obtain ⟨us, hrest, hall⟩ := ih hothers (by omega) (by omega)
    exact ⟨_, htakes.trans hrest, .cons hspelled hall⟩

private theorem blockBody_spells (hgrows : Grows decl) (hdecl : SpellsStmt n decl)
    (h : blockBody fuel decl p = .ok ss q) (hp : p.rest.length ≤ n)
    (hclean : q.errors.size ≤ p.errors.size) :
    ∃ ts last, Takes p (ts ++ [last]) q ∧ Stmt.SpelledAll ts ss ∧ last.word = .mark .rightBrace := by
  obtain ⟨_, p₁, hopen, h⟩ := Run.of_bind_ok h
  obtain ⟨-, rfl⟩ := EStateM.Result.ok.inj hopen
  obtain ⟨body, p₂, hbody, h⟩ := Run.of_bind_ok h
  obtain ⟨_, p₃, hclose, h⟩ := Run.of_bind_ok h
  obtain ⟨-, rfl⟩ := EStateM.Result.ok.inj hclose
  obtain ⟨_, p₄, hbrace, h⟩ := Run.of_bind_ok h
  obtain ⟨rfl, rfl⟩ := EStateM.Result.ok.inj h
  obtain ⟨last, hlastWord, hlast⟩ := (passes_of_consume hbrace rfl).takes_one
  have herrors := congrArg Array.size hlast.errors_eq
  obtain ⟨ts, htakes, hall⟩ := declarations_spells hgrows hdecl hbody hp
    (Nat.le_trans (Nat.le_of_eq herrors.symm) hclean)
  have htakes' : Takes p ts { p₂ with blockDepth := p₂.blockDepth - 1 } :=
    ⟨htakes.rest_eq, htakes.before_eq, htakes.errors_eq⟩
  exact ⟨ts, last, htakes'.trans hlast, hall, hlastWord⟩

private theorem varDeclaration_spells (hexpr : Spells n expr Expr.Spelled)
    (hkind : p.current.kind = .variabile) (hp : p.rest.length ≤ n + 1)
    (h : varDeclaration expr p = .ok s q) : ∃ ts, Takes p ts q ∧ s.Spelled ts := by
  rw [varDeclaration, Run.bind_of_ok (advance_of_mark hkind rfl)] at h
  obtain ⟨name, p₁, hname, h⟩ := Run.of_bind_ok h
  obtain ⟨initialized, p₂, haccept, h⟩ := Run.of_bind_ok h
  obtain ⟨hword, hfirst⟩ := takes_mark hkind rfl
  obtain ⟨second, hnameWord, hsecond⟩ := (passes_of_expectName hname).takes_one
  have hbegin := hfirst.trans hsecond
  rw [accept_apply] at haccept
  split at haccept
  · next hequal =>
    obtain ⟨rfl, rfl⟩ := EStateM.Result.ok.inj haccept
    obtain ⟨_, p₃, hsome, h⟩ := Run.of_bind_ok h
    obtain ⟨initial, hinitial, rfl⟩ := Run.of_map_ok hsome
    obtain ⟨_, p₄, hend, h⟩ := Run.of_bind_ok h
    obtain ⟨hsignWord, hsign⟩ := takes_mark hequal rfl
    have hlength := (hbegin.trans hsign).length_eq
    simp only [List.length_append, List.length_singleton] at hlength
    obtain ⟨ts, htakes, hspelled⟩ := hexpr (by omega) hinitial
    obtain ⟨last, hlastWord, hlast⟩ := (passes_of_consume hend rfl).takes_one
    rw [Run.bind_of_ok (hlast.spanFrom _)] at h
    obtain ⟨rfl, rfl⟩ := EStateM.Result.ok.inj h
    exact ⟨_, (hbegin.trans hsign).trans (htakes.trans hlast),
      .varInit hword hnameWord hsignWord hspelled hlastWord⟩
  · obtain ⟨rfl, rfl⟩ := EStateM.Result.ok.inj haccept
    obtain ⟨_, p₃, hnone, h⟩ := Run.of_bind_ok h
    obtain ⟨rfl, rfl⟩ := EStateM.Result.ok.inj hnone
    obtain ⟨_, p₄, hend, h⟩ := Run.of_bind_ok h
    obtain ⟨last, hlastWord, hlast⟩ := (passes_of_consume hend rfl).takes_one
    rw [Run.bind_of_ok (hlast.spanFrom _)] at h
    obtain ⟨rfl, rfl⟩ := EStateM.Result.ok.inj h
    exact ⟨_, hbegin.trans hlast, .var hword hnameWord hlastWord⟩

private theorem functionDeclaration_spells (hgrows : Grows decl) (hdecl : SpellsStmt n decl)
    (hfuel : n < fuel) (hkind : p.current.kind = .funzione) (hp : p.rest.length ≤ n + 1)
    (h : functionDeclaration fuel decl p = .ok s q) (hclean : q.errors.size ≤ p.errors.size) :
    ∃ ts, Takes p ts q ∧ s.Spelled ts := by
  rw [functionDeclaration, Run.bind_of_ok (advance_of_mark hkind rfl)] at h
  obtain ⟨name, p₁, hname, h⟩ := Run.of_bind_ok h
  obtain ⟨_, p₂, hopen, h⟩ := Run.of_bind_ok h
  obtain ⟨params, p₃, hparams, h⟩ := Run.of_bind_ok h
  obtain ⟨_, p₄, hclose, h⟩ := Run.of_bind_ok h
  obtain ⟨_, p₅, hbrace, h⟩ := Run.of_bind_ok h
  obtain ⟨body, p₆, hbody, h⟩ := Run.of_bind_ok h
  obtain ⟨p₇, hinner, rfl⟩ := of_inFunction_ok hbody
  obtain ⟨rfl, rfl⟩ := EStateM.Result.ok.inj h
  obtain ⟨hword, hfirst⟩ := takes_mark hkind rfl
  obtain ⟨second, hnameWord, hsecond⟩ := (passes_of_expectName hname).takes_one
  obtain ⟨left, hopenWord, hleft⟩ := (passes_of_consume hopen rfl).takes_one
  have hbegin := hfirst.trans (hsecond.trans hleft)
  have hlength := hbegin.length_eq
  simp only [List.length_append, List.length_singleton] at hlength
  have hparam : Reads n (expectName "parameter name") (fun name => [.name name]) fun _ => True :=
    fun _ _ _ _ h => ⟨passes_of_expectName h, trivial⟩
  obtain ⟨hpassed, -⟩ := listed_reads hparam hfuel (by omega) hparams
  obtain ⟨ts, hparamWords, hts⟩ := hpassed.takes
  obtain ⟨right, hcloseWord, hright⟩ := (passes_of_consume hclose rfl).takes_one
  obtain ⟨brace, hbraceWord, hbraceTakes⟩ := (passes_of_consume hbrace rfl).takes_one
  have hhead := hbegin.trans (hts.trans (hright.trans hbraceTakes))
  have hlength' := hhead.length_eq
  simp only [List.length_append, List.length_singleton] at hlength'
  have herrors := congrArg Array.size hhead.errors_eq
  obtain ⟨us, last, hbodyTakes, hall, hlastWord⟩ := blockBody_spells hgrows hdecl hinner
    (show p₅.rest.length ≤ n by omega) (Nat.le_trans hclean (Nat.le_of_eq herrors.symm))
  have hend : Takes p₅ (us ++ [last]) { p₇ with functionDepth := p₇.functionDepth - 1 } :=
    ⟨hbodyTakes.rest_eq, hbodyTakes.before_eq, hbodyTakes.errors_eq⟩
  refine ⟨_, hhead.trans hend, ?_⟩
  rw [hend.previous_eq (t := last) (by simp)]
  simpa using Stmt.Spelled.function hword hnameWord hopenWord hparamWords hcloseWord hbraceWord hall
    hlastWord

private theorem blockStatement_spells (hgrows : Grows decl) (hdecl : SpellsStmt n decl)
    (hkind : p.current.kind = .leftBrace) (hp : p.rest.length ≤ n + 1)
    (h : blockStatement fuel decl p = .ok s q) (hclean : q.errors.size ≤ p.errors.size) :
    ∃ ts, Takes p ts q ∧ s.Spelled ts := by
  rw [blockStatement, Run.bind_of_ok (advance_of_mark hkind rfl)] at h
  obtain ⟨body, p₁, hbody, h⟩ := Run.of_bind_ok h
  obtain ⟨rfl, rfl⟩ := EStateM.Result.ok.inj h
  obtain ⟨hword, hbrace⟩ := takes_mark hkind rfl
  have hlength := hbrace.length_eq
  rw [List.length_singleton] at hlength
  obtain ⟨ts, last, htakes, hall, hlastWord⟩ := blockBody_spells hgrows hdecl hbody
    (show p.next.rest.length ≤ n by omega) (by rwa [hbrace.errors_eq])
  refine ⟨_, hbrace.trans htakes, ?_⟩
  rw [htakes.previous_eq (t := last) (by simp)]
  exact .block hword hall hlastWord

private theorem returnStatement_spells (hexpr : Spells n expr Expr.Spelled)
    (hkind : p.current.kind = .ritorna) (hp : p.rest.length ≤ n + 1)
    (h : returnStatement expr p = .ok s q) : ∃ ts, Takes p ts q ∧ s.Spelled ts := by
  rw [returnStatement, Run.bind_of_ok Run.get_apply] at h
  split at h
  · cases h
  obtain ⟨hword, hbegin⟩ := takes_mark hkind rfl
  obtain ⟨_, p', hadvance, h⟩ := Run.of_bind_ok h
  rw [advance_of_mark hkind rfl] at hadvance
  obtain ⟨rfl, rfl⟩ := EStateM.Result.ok.inj hadvance
  rw [Run.bind_of_ok (check_apply _ p.next)] at h
  split at h
  · obtain ⟨_, p₁, hnone, h⟩ := Run.of_bind_ok h
    obtain ⟨rfl, rfl⟩ := EStateM.Result.ok.inj hnone
    obtain ⟨_, p₂, hend, h⟩ := Run.of_bind_ok h
    obtain ⟨last, hlastWord, hlast⟩ := (passes_of_consume hend rfl).takes_one
    rw [Run.bind_of_ok (hlast.spanFrom _)] at h
    obtain ⟨rfl, rfl⟩ := EStateM.Result.ok.inj h
    exact ⟨_, hbegin.trans hlast, .ret hword hlastWord⟩
  · obtain ⟨_, p₁, hsome, h⟩ := Run.of_bind_ok h
    obtain ⟨value, hvalue, rfl⟩ := Run.of_map_ok hsome
    obtain ⟨_, p₂, hend, h⟩ := Run.of_bind_ok h
    have hlength := hbegin.length_eq
    rw [List.length_singleton] at hlength
    obtain ⟨ts, htakes, hspelled⟩ := hexpr (by omega) hvalue
    obtain ⟨last, hlastWord, hlast⟩ := (passes_of_consume hend rfl).takes_one
    rw [Run.bind_of_ok (hlast.spanFrom _)] at h
    obtain ⟨rfl, rfl⟩ := EStateM.Result.ok.inj h
    exact ⟨_, hbegin.trans (htakes.trans hlast), .retValue hword hspelled hlastWord⟩

private theorem expressionStatement_spells (hexpr : Spells n expr Expr.Spelled)
    (hp : p.rest.length ≤ n) (h : expressionStatement expr p = .ok s q) :
    ∃ ts, Takes p ts q ∧ s.Spelled ts := by
  obtain ⟨value, p₁, hvalue, h⟩ := Run.of_bind_ok h
  obtain ⟨_, p₂, hend, h⟩ := Run.of_bind_ok h
  obtain ⟨ts, htakes, hspelled⟩ := hexpr hp hvalue
  obtain ⟨last, hlastWord, hlast⟩ := (passes_of_consume hend rfl).takes_one
  rw [Run.bind_of_ok (hlast.spanFrom _)] at h
  obtain ⟨rfl, rfl⟩ := EStateM.Result.ok.inj h
  exact ⟨_, htakes.trans hlast, .expr hspelled hlastWord⟩

private theorem condition_spells {kind : TokenKind} {what what' : String} {p₁ p₂ p₃ : Parser}
    {condition : Expr} {u v : Unit} (hexpr : Spells n expr Expr.Spelled)
    (hkind : p.current.kind = kind) (hmark : kind.isMark) (hp : p.rest.length ≤ n + 1)
    (hopen : Functor.discard (consume .leftParen what) p.next = .ok u p₁)
    (hcondition : expr p₁ = .ok condition p₂)
    (hclose : Functor.discard (consume .rightParen what') p₂ = .ok v p₃) :
    ∃ left ts right, Takes p (p.current :: left :: (ts ++ [right])) p₃ ∧
      p.current.word = .mark kind ∧ left.word = .mark .leftParen ∧ condition.Spelled ts ∧
      right.word = .mark .rightParen := by
  obtain ⟨hword, hfirst⟩ := takes_mark hkind hmark
  obtain ⟨left, hopenWord, hleft⟩ := (passes_of_consume hopen rfl).takes_one
  have hlength := (hfirst.trans hleft).length_eq
  simp only [List.length_append, List.length_singleton] at hlength
  obtain ⟨ts, htakes, hspelled⟩ := hexpr (by omega) hcondition
  obtain ⟨right, hcloseWord, hright⟩ := (passes_of_consume hclose rfl).takes_one
  exact ⟨left, ts, right, (hfirst.trans hleft).trans (htakes.trans hright), hword, hopenWord, hspelled,
    hcloseWord⟩

private theorem whileStatement_spells (hexpr : Spells n expr Expr.Spelled)
    (hstmt : SpellsStmt n stmt) (hkind : p.current.kind = .mentre) (hp : p.rest.length ≤ n + 1)
    (h : whileStatement expr stmt p = .ok s q) (hclean : q.errors.size ≤ p.errors.size) :
    ∃ ts, Takes p ts q ∧ s.Spelled ts := by
  rw [whileStatement, Run.bind_of_ok (advance_of_mark hkind rfl)] at h
  obtain ⟨_, p₁, hopen, h⟩ := Run.of_bind_ok h
  rw [Run.bind_of_ok (check_apply _ p₁)] at h
  split at h
  · cases h
  obtain ⟨condition, p₂, hcondition, h⟩ := Run.of_bind_ok h
  obtain ⟨_, p₃, hclose, h⟩ := Run.of_bind_ok h
  obtain ⟨body, p₄, hbody, h⟩ := Run.of_bind_ok h
  obtain ⟨rfl, rfl⟩ := EStateM.Result.ok.inj h
  obtain ⟨left, ts, right, hhead, hword, hopenWord, hspelled, hcloseWord⟩ :=
    condition_spells hexpr hkind rfl hp hopen hcondition hclose
  have hlength := hhead.length_eq
  rw [List.length_cons] at hlength
  obtain ⟨us, htakes, hbodySpelled⟩ := hstmt (by omega) hbody (by rwa [hhead.errors_eq])
  obtain ⟨last, hlast⟩ := hbodySpelled.exists_getLast
  refine ⟨_, hhead.trans htakes, ?_⟩
  rw [htakes.previous_eq hlast]
  simpa using Stmt.Spelled.loop hword hopenWord hspelled hcloseWord hbodySpelled hlast

private theorem ifStatement_spells (hexpr : Spells n expr Expr.Spelled) (hgrows : Grows stmt)
    (hstmt : SpellsStmt n stmt) (hkind : p.current.kind = .se) (hp : p.rest.length ≤ n + 1)
    (h : ifStatement expr stmt p = .ok s q) (hclean : q.errors.size ≤ p.errors.size) :
    ∃ ts, Takes p ts q ∧ s.Spelled ts := by
  rw [ifStatement, Run.bind_of_ok (advance_of_mark hkind rfl)] at h
  obtain ⟨_, p₁, hopen, h⟩ := Run.of_bind_ok h
  obtain ⟨condition, p₂, hcondition, h⟩ := Run.of_bind_ok h
  obtain ⟨_, p₃, hclose, h⟩ := Run.of_bind_ok h
  obtain ⟨thenBranch, p₄, hthen, h⟩ := Run.of_bind_ok h
  obtain ⟨followed, p₅, haccept, h⟩ := Run.of_bind_ok h
  obtain ⟨left, ts, right, hhead, hword, hopenWord, hspelled, hcloseWord⟩ :=
    condition_spells hexpr hkind rfl hp hopen hcondition hclose
  have hlength := hhead.length_eq
  rw [List.length_cons] at hlength
  rw [← hhead.errors_eq] at hclean
  rw [accept_apply] at haccept
  split at haccept
  · next hoppure =>
    obtain ⟨rfl, rfl⟩ := EStateM.Result.ok.inj haccept
    obtain ⟨_, p₆, hsome, h⟩ := Run.of_bind_ok h
    obtain ⟨elseBranch, helse, rfl⟩ := Run.of_map_ok hsome
    obtain ⟨rfl, rfl⟩ := EStateM.Result.ok.inj h
    have hgrowsElse := hgrows.of_ok helse
    have hgrowsThen := hgrows.of_ok hthen
    rw [next_errors] at hgrowsElse
    obtain ⟨us, hthenTakes, hthenSpelled⟩ := hstmt (by omega) hthen (by omega)
    obtain ⟨hoppureWord, hmark⟩ := takes_mark hoppure rfl
    have hlength' := (hthenTakes.trans hmark).length_eq
    obtain ⟨vs, helseTakes, helseSpelled⟩ := hstmt (by omega) helse (by rw [next_errors]; omega)
    obtain ⟨last, hlast⟩ := helseSpelled.exists_getLast
    refine ⟨_, hhead.trans (hthenTakes.trans (hmark.trans helseTakes)), ?_⟩
    rw [helseTakes.previous_eq hlast]
    simpa using Stmt.Spelled.thenElse hword hopenWord hspelled hcloseWord hthenSpelled hoppureWord
      helseSpelled hlast
  · obtain ⟨rfl, rfl⟩ := EStateM.Result.ok.inj haccept
    obtain ⟨_, p₅, hnone, h⟩ := Run.of_bind_ok h
    obtain ⟨rfl, rfl⟩ := EStateM.Result.ok.inj hnone
    obtain ⟨rfl, rfl⟩ := EStateM.Result.ok.inj h
    obtain ⟨us, hthenTakes, hthenSpelled⟩ := hstmt (by omega) hthen hclean
    obtain ⟨last, hlast⟩ := hthenSpelled.exists_getLast
    refine ⟨_, hhead.trans hthenTakes, ?_⟩
    rw [hthenTakes.previous_eq hlast]
    simpa using Stmt.Spelled.onlyThen hword hopenWord hspelled hcloseWord hthenSpelled hlast

private theorem declaration_statement_spells (fuel : Nat) :
    (∀ n, 2 * n + 2 ≤ fuel → SpellsStmt n (declaration fuel)) ∧
      ∀ n, 2 * n + 1 ≤ fuel → SpellsStmt n (statement fuel) := by
  induction fuel with
  | zero => exact ⟨fun n hn => (by omega), fun n hn => (by omega)⟩
  | succ fuel ih =>
    obtain ⟨hdeclaration, hstatement⟩ := ih
    obtain ⟨hgrows, hgrows'⟩ := grows_declaration_statement fuel
    constructor
    · intro n hn p q s hp h hclean
      obtain ⟨kind, p', y, hpeek, hy, h⟩ := Run.of_bind_ok_choice h
      obtain ⟨rfl, rfl⟩ := EStateM.Result.ok.inj hpeek
      split at hy
      · next hkind =>
        subst hy
        exact varDeclaration_spells (expression_spells (by omega)) hkind (Nat.le_succ_of_le hp) h
      · next hkind =>
        subst hy
        have hpos := length_pos_of_mark hkind rfl
        exact functionDeclaration_spells hgrows (hdeclaration (n - 1) (by omega)) (by omega) hkind
          (by omega) h hclean
      · subst hy
        exact hstatement n (by omega) hp h hclean
    · intro n hn p q s hp h hclean
      obtain ⟨kind, p', y, hpeek, hy, h⟩ := Run.of_bind_ok_choice h
      obtain ⟨rfl, rfl⟩ := EStateM.Result.ok.inj hpeek
      have hexpr : Spells n (expression fuel) Expr.Spelled := expression_spells (by omega)
      have hexpr' := hexpr.mono (Nat.sub_le n 1)
      split at hy
      · next hkind =>
        subst hy
        have hpos := length_pos_of_mark hkind rfl
        exact ifStatement_spells hexpr' hgrows' (hstatement (n - 1) (by omega)) hkind (by omega) h
          hclean
      · next hkind =>
        subst hy
        have hpos := length_pos_of_mark hkind rfl
        exact whileStatement_spells hexpr' (hstatement (n - 1) (by omega)) hkind (by omega) h hclean
      · next hkind =>
        subst hy
        exact returnStatement_spells hexpr' hkind (by omega) h
      · next hkind =>
        subst hy
        have hpos := length_pos_of_mark hkind rfl
        exact blockStatement_spells hgrows (hdeclaration (n - 1) (by omega)) hkind (by omega) h hclean
      · subst hy
        exact expressionStatement_spells hexpr hp h

end Parser

/-- A program that is read without an error is well-formed and spelled by the tokens before the end
of the text. -/
theorem Program.parse_spelled {ts : List Token} {e : Token} {program : List Stmt}
    (hts : ∀ t ∈ ts, t.kind ≠ .eof) (he : e.kind = .eof) (h : parse (ts ++ [e]) = .ok program) :
    Stmt.SpelledAll ts program ∧ ∀ s ∈ program, s.WellFormed false := by
  obtain ⟨q, hrun, herrors⟩ := program_of_parse h
  obtain ⟨hpassed, hwell, hend⟩ := Parser.program_passes hrun herrors
  refine ⟨?_, hwell⟩
  have hdecl := (Parser.declaration_statement_spells (Parser.fuelFor (ts ++ [e]).length)).1
    (ts ++ [e]).length (by unfold Parser.fuelFor; omega)
  have hgrows := (Parser.grows_declaration_statement (Parser.fuelFor (ts ++ [e]).length)).1
  obtain ⟨us, htakes, hspelled⟩ := Parser.declarations_spells hgrows hdecl hrun (Nat.le_refl _)
    (by rw [herrors]; exact Nat.zero_le _)
  obtain ⟨passed, hwords, hkinds, hrest, -⟩ := hpassed.passed
  -- both spell the program, so they are equally long beginnings of one list
  have hlength : us.length = passed.length := by
    rw [← List.length_map (f := Token.word), hspelled.words, ← hwords, List.length_map]
  obtain ⟨rfl, -⟩ := List.append_inj (htakes.rest_eq.symm.trans hrest) hlength
  rwa [← passed_eq hts he hkinds hend hrest]

end Copione
