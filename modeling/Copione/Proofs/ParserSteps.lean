import Copione.Proofs.Grammar
import Copione.Proofs.Runs
/-!
# Steps of the parser

What the parser passes when it reads one token, said in words, and that no part of it takes back
an error.
-/
namespace Copione

namespace Parser

/-- From `p` to `q` the parser passed tokens that say `ws`, and nothing else happened. -/
structure Passes (p : Parser) (ws : List Word) (q : Parser) : Prop where
  passed : ∃ ts : List Token, ts.map Token.word = ws ∧ (∀ t ∈ ts, t.kind ≠ .eof) ∧
    p.rest = ts ++ q.rest ∧ q.before = ts.reverse ++ p.before
  errors_eq : q.errors = p.errors
  functionDepth_eq : q.functionDepth = p.functionDepth
  blockDepth_eq : q.blockDepth = p.blockDepth

variable {p q r : Parser} {ws ws' : List Word} {t : Token} {kind : TokenKind} {α β : Type}

theorem Passes.refl (p : Parser) : Passes p [] p := ⟨⟨[], by simp⟩, rfl, rfl, rfl⟩

theorem Passes.trans (h : Passes p ws q) (h' : Passes q ws' r) : Passes p (ws ++ ws') r := by
  obtain ⟨ts, hwords, hkinds, hrest, hbefore⟩ := h.passed
  obtain ⟨ts', hwords', hkinds', hrest', hbefore'⟩ := h'.passed
  refine ⟨⟨ts ++ ts', ?_, ?_, ?_, ?_⟩, h'.errors_eq.trans h.errors_eq,
    h'.functionDepth_eq.trans h.functionDepth_eq, h'.blockDepth_eq.trans h.blockDepth_eq⟩
  · rw [List.map_append, hwords, hwords']
  · intro t ht
    exact (List.mem_append.mp ht).elim (hkinds t) (hkinds' t)
  · rw [hrest, hrest', List.append_assoc]
  · rw [hbefore', hbefore, List.reverse_append, List.append_assoc]

theorem Passes.length_eq (h : Passes p ws q) : p.rest.length = ws.length + q.rest.length := by
  obtain ⟨ts, rfl, -, hrest, -⟩ := h.passed
  rw [hrest, List.length_append, List.length_map]

theorem Passes.length_le (h : Passes p ws q) : q.rest.length ≤ p.rest.length := by
  have := h.length_eq
  omega

theorem Passes.length_lt {w : Word} (h : Passes p (w :: ws) q) : q.rest.length < p.rest.length := by
  have hlength := h.length_eq
  rw [List.length_cons] at hlength
  omega

theorem Passes.length_le_pred {w : Word} {n : Nat} (h : Passes p (w :: ws) q)
    (hp : p.rest.length ≤ n + 1) : q.rest.length ≤ n :=
  Nat.le_of_lt_succ (Nat.lt_of_lt_of_le h.length_lt hp)

theorem Passes.closed (h : Passes { p with blockDepth := p.blockDepth + 1 } ws q) :
    Passes p ws { q with blockDepth := q.blockDepth - 1 } := by
  refine ⟨h.passed, h.errors_eq, h.functionDepth_eq, ?_⟩
  change q.blockDepth - 1 = p.blockDepth
  rw [h.blockDepth_eq, Nat.add_sub_cancel]

theorem Passes.left (h : Passes { p with functionDepth := p.functionDepth + 1 } ws q) :
    Passes p ws { q with functionDepth := q.functionDepth - 1 } := by
  refine ⟨h.passed, h.errors_eq, ?_, h.blockDepth_eq⟩
  change q.functionDepth - 1 = p.functionDepth
  rw [h.functionDepth_eq, Nat.add_sub_cancel]

theorem passes_next (h : p.current.kind ≠ .eof) : Passes p [p.current.word] p.next := by
  obtain ⟨before, rest, errors, functionDepth, blockDepth⟩ := p
  cases rest with
  | nil => exact absurd rfl h
  | cons t rest =>
    have ht : t.kind ≠ .eof := h
    refine ⟨⟨[t], ?_⟩, ?_, ?_, ?_⟩ <;> simp [next, current, ht]

theorem previous_next (h : p.current.kind ≠ .eof) : p.next.previous = p.current := by
  obtain ⟨before, rest, errors, functionDepth, blockDepth⟩ := p
  cases rest with
  | nil => exact absurd rfl h
  | cons t rest =>
    have ht : t.kind ≠ .eof := h
    simp [next, current, previous, ht]

@[simp] theorem peekKind_apply (p : Parser) : peekKind p = .ok p.current.kind p := rfl

@[simp] theorem check_apply (kind : TokenKind) (p : Parser) :
    check kind p = .ok (p.current.kind == kind) p := rfl

theorem advance_apply (h : p.current.kind ≠ .eof) : advance p = .ok p.current p.next := by
  change EStateM.Result.ok p.next.previous p.next = _
  rw [previous_next h]

theorem accept_apply (kind : TokenKind) (p : Parser) :
    accept kind p = if p.current.kind = kind then .ok true p.next else .ok false p := by
  rw [accept, Run.bind_of_ok (check_apply kind p)]
  by_cases h : p.current.kind = kind
  · rw [if_pos h, if_pos (beq_iff_eq.mpr h)]
    rfl
  · rw [if_neg h, if_neg (by simpa using h)]
    rfl

theorem consume_apply (kind : TokenKind) (what : String) (p : Parser) :
    consume kind what p =
      if p.current.kind = kind then advance p
      else .error ((ParseFault.expectedToken what p.current).report p.current) p := by
  rw [consume, Run.bind_of_ok (check_apply kind p)]
  by_cases h : p.current.kind = kind
  · rw [if_pos h, if_pos (beq_iff_eq.mpr h)]
  · rw [if_neg h, if_neg (by simpa using h)]
    rfl

theorem ne_eof_of_isMark (h : kind.isMark) : kind ≠ .eof := by
  rintro rfl
  cases h

theorem passes_mark (hcurrent : p.current.kind = kind) (hkind : kind.isMark) :
    Passes p [.mark kind] p.next := by
  rw [← Token.word_of_mark hcurrent hkind]
  exact passes_next (hcurrent ▸ ne_eof_of_isMark hkind)

theorem length_pos_of_mark (hcurrent : p.current.kind = kind) (hkind : kind.isMark) :
    0 < p.rest.length :=
  Nat.zero_lt_of_lt (passes_mark hcurrent hkind).length_lt

theorem advance_of_mark (hcurrent : p.current.kind = kind) (hkind : kind.isMark) :
    advance p = .ok p.current p.next :=
  advance_apply (hcurrent ▸ ne_eof_of_isMark hkind)

theorem consume_of_mark (what : String) (hcurrent : p.current.kind = kind) (hkind : kind.isMark) :
    consume kind what p = .ok p.current p.next := by
  rw [consume_apply, if_pos hcurrent, advance_of_mark hcurrent hkind]

theorem passes_of_consume {what : String} {u : Unit}
    (h : Functor.discard (consume kind what) p = .ok u q) (hkind : kind.isMark) :
    Passes p [.mark kind] q := by
  obtain ⟨t, h, -⟩ := Run.of_map_ok h
  rw [consume_apply] at h
  split at h
  · next hcurrent =>
    rw [advance_of_mark hcurrent hkind] at h
    obtain ⟨-, rfl⟩ := EStateM.Result.ok.inj h
    exact passes_mark hcurrent hkind
  · cases h

theorem expectName_of_identifier (what : String) (h : p.current.kind = .identifier) :
    expectName what p = .ok p.current.lexeme p.next := by
  rw [expectName, Run.bind_of_ok (t := p.next) (a := p.current)]
  · rfl
  · rw [consume_apply, if_pos h, advance_apply (by rw [h]; simp)]

theorem passes_name (h : p.current.kind = .identifier) :
    Passes p [.name p.current.lexeme] p.next := by
  rw [← Token.word_of_identifier h]
  exact passes_next (by rw [h]; simp)

theorem passes_of_expectName {what n : String} (h : expectName what p = .ok n q) :
    Passes p [.name n] q := by
  by_cases hcurrent : p.current.kind = .identifier
  · rw [expectName_of_identifier what hcurrent] at h
    obtain ⟨rfl, rfl⟩ := EStateM.Result.ok.inj h
    exact passes_name hcurrent
  · rw [expectName, Run.bind_of_error (by rw [consume_apply, if_neg hcurrent])] at h
    cases h

theorem constant?_eq_some {t : Token} {value : Constant} :
    constant? t = some value ↔ t.word = .constant value := by
  obtain ⟨kind, lexeme, literal, span⟩ := t
  cases kind <;> rcases literal with _ | ⟨_ | _ | _⟩ <;> simp [constant?, Token.word]

theorem passes_constant {value : Constant} (h : p.current.word = .constant value) :
    Passes p [.constant value] p.next := by
  rw [← h]
  refine passes_next fun hkind => ?_
  rw [← Token.word_kind, h] at hkind
  exact TokenKind.ne_of_beginsExpr value.kind_beginsExpr rfl hkind

theorem blockBody_of_ok {fuel : Nat} {decl : Parse Stmt} {ss : List Stmt}
    (h : declarations (fun p => p.current.kind == .rightBrace || p.isAtEnd) decl fuel
      { p with blockDepth := p.blockDepth + 1 } = .ok ss q) :
    blockBody fuel decl p =
      (discard (consume .rightBrace "'\x7d' after block") >>= fun _ => pure ss)
        { q with blockDepth := q.blockDepth - 1 } := by
  rw [blockBody, Run.bind_of_ok (Run.modify_apply _), Run.bind_of_ok h,
    Run.bind_of_ok (Run.modify_apply _)]

theorem inFunction_of_ok {body : Parse α} {a : α}
    (h : body { p with functionDepth := p.functionDepth + 1 } = .ok a q) :
    inFunction body p = .ok a { q with functionDepth := q.functionDepth - 1 } := by
  unfold inFunction
  dsimp only
  rw [h]

theorem inFunction_of_error {body : Parse α} {e : CompileError}
    (h : body { p with functionDepth := p.functionDepth + 1 } = .error e q) :
    inFunction body p = .error e { q with functionDepth := q.functionDepth - 1 } := by
  unfold inFunction
  dsimp only
  rw [h]

/-- However it ends, a program keeps the errors that were found before. -/
def Grows (x : Parse α) : Prop :=
  ∀ p, match x p with
    | .ok _ q | .error _ q => p.errors.toList <+: q.errors.toList

theorem Grows.prefix_of_ok {x : Parse α} {a : α} (hx : Grows x) (h : x p = .ok a q) :
    p.errors.toList <+: q.errors.toList := by
  have := hx p
  rwa [h] at this

theorem Grows.prefix_of_error {x : Parse α} {e : CompileError} (hx : Grows x) (h : x p = .error e q) :
    p.errors.toList <+: q.errors.toList := by
  have := hx p
  rwa [h] at this

theorem Grows.of_ok {x : Parse α} {a : α} (hx : Grows x) (h : x p = .ok a q) :
    p.errors.size ≤ q.errors.size := (hx.prefix_of_ok h).length_le

theorem Grows.of_error {x : Parse α} {e : CompileError} (hx : Grows x) (h : x p = .error e q) :
    p.errors.size ≤ q.errors.size := (hx.prefix_of_error h).length_le

theorem Grows.bind {x : Parse α} {f : α → Parse β} (hx : Grows x) (hf : ∀ a, Grows (f a)) :
    Grows (x >>= f) := by
  intro p
  cases hrun : x p with
  | error e q =>
    rw [Run.bind_of_error hrun]
    exact hx.prefix_of_error hrun
  | ok a q =>
    rw [Run.bind_of_ok hrun]
    have hq := hx.prefix_of_ok hrun
    have hr := hf a q
    cases hrun' : f a q with
    | ok b r =>
      rw [hrun'] at hr
      exact hq.trans hr
    | error e r =>
      rw [hrun'] at hr
      exact hq.trans hr

theorem Grows.map {x : Parse α} (hx : Grows x) (f : α → β) : Grows (f <$> x) := by
  intro p
  cases hrun : x p with
  | ok a q => rw [Run.map_of_ok hrun]; exact hx.prefix_of_ok hrun
  | error e q => rw [Run.map_of_error hrun]; exact hx.prefix_of_error hrun

theorem Grows.discard {x : Parse α} (hx : Grows x) : Grows (Functor.discard x) := hx.map _

theorem grows_pure (a : α) : Grows (pure a) := fun _ => List.prefix_refl _

theorem grows_get : Grows get := fun _ => List.prefix_refl _

theorem grows_fail (e : CompileError) : Grows (throw e : Parse α) := fun _ => List.prefix_refl _

theorem grows_modify {f : Parser → Parser} (hf : ∀ p, (f p).errors = p.errors) :
    Grows (modify f) := fun p => (hf p) ▸ List.prefix_refl _

theorem next_errors (p : Parser) : p.next.errors = p.errors := by
  unfold next
  split
  · split <;> rfl
  · rfl

private theorem skip_errors (n : Nat) (p : Parser) : (p.skip n).errors = p.errors := by
  induction n generalizing p with
  | zero => rfl
  | succ n ih => rw [skip, ih, next_errors]

private theorem skipBranches_errors (fuel : Nat) (p : Parser) :
    (skipBranches fuel p).errors = p.errors := by
  induction fuel generalizing p with
  | zero => rfl
  | succ fuel ih =>
    rw [skipBranches]
    split
    · rw [ih, skip_errors, next_errors]
    · rfl

theorem synchronize_errors (p : Parser) : p.synchronize.errors = p.errors := by
  rw [synchronize]
  split
  · rfl
  · rw [skipBranches_errors, skip_errors, next_errors]

theorem grows_advance : Grows advance :=
  (grows_modify next_errors).bind fun _ => grows_get.bind fun _ => grows_pure _

theorem grows_peekKind : Grows peekKind := fun _ => List.prefix_refl _

theorem grows_check (kind : TokenKind) : Grows (check kind) := fun _ => List.prefix_refl _

theorem grows_accept (kind : TokenKind) : Grows (accept kind) := by
  refine (grows_check kind).bind fun found => ?_
  split
  · exact (grows_modify next_errors).bind fun _ => grows_pure true
  · exact grows_pure false

theorem grows_consume (kind : TokenKind) (what : String) : Grows (consume kind what) := by
  refine (grows_check kind).bind fun found => ?_
  split
  · exact grows_advance
  · exact grows_get.bind fun _ => grows_fail _

theorem grows_expectName (what : String) : Grows (expectName what) :=
  (grows_consume _ _).bind fun _ => grows_pure _

theorem grows_failExpression : Grows (failExpression : Parse α) :=
  grows_get.bind fun _ => grows_fail _

theorem grows_spanFrom (start : Span) : Grows (spanFrom start) := fun _ => List.prefix_refl _

theorem grows_foldPairs {operand : Parse Expr} (h : Grows operand) (ops : List PairOp)
    (fuel : Nat) (left : Expr) : Grows (foldPairs ops operand fuel left) := by
  induction fuel generalizing left with
  | zero => exact grows_pure left
  | succ fuel ih =>
    rw [foldPairs]
    refine grows_peekKind.bind fun kind => ?_
    split
    · exact grows_pure left
    · exact (grows_modify next_errors).bind fun _ => h.bind fun _ => ih _

theorem grows_pairs {operand : Parse Expr} (h : Grows operand) (fuel : Nat)
    (levels : List (List PairOp)) : Grows (pairs fuel operand levels) := by
  induction levels with
  | nil => exact h
  | cons ops tighter ih => exact ih.bind fun left => grows_foldPairs ih ops fuel left

theorem grows_commaSeparated {item : Parse α} (h : Grows item) (count : Nat) :
    Grows (commaSeparated item count) := by
  induction count with
  | zero => exact grows_pure []
  | succ count ih =>
    refine h.bind fun first => (grows_accept _).bind fun more => ?_
    split
    · exact ih.bind fun _ => grows_pure _
    · exact grows_pure _

theorem grows_listed {item : Parse α} (h : Grows item) (count : Nat) :
    Grows (listed count item) := by
  refine (grows_check _).bind fun empty => ?_
  split
  · exact grows_pure []
  · exact grows_commaSeparated h count

theorem grows_primary {expression : Parse Expr} (h : Grows expression) :
    Grows (primary expression) := by
  refine grows_get.bind fun p => ?_
  have hnext := grows_modify next_errors
  dsimp only
  split
  · exact hnext.bind fun _ => grows_pure _
  split
  · exact hnext.bind fun _ => grows_pure _
  · exact hnext.bind fun _ => (grows_consume _ _).discard.bind fun _ =>
      (grows_expectName _).bind fun _ => (grows_spanFrom _).bind fun _ => grows_pure _
  · exact hnext.bind fun _ => grows_pure _
  · exact hnext.bind fun _ => h.bind fun _ => (grows_consume _ _).discard.bind fun _ =>
      (grows_spanFrom _).bind fun _ => grows_pure _
  · exact grows_failExpression

theorem grows_trailers {expression : Parse Expr} (h : Grows expression) (fuel count : Nat)
    (object : Expr) : Grows (trailers fuel expression count object) := by
  induction count generalizing object with
  | zero => exact grows_pure object
  | succ count ih =>
    rw [trailers]
    refine (grows_accept _).bind fun opened => ?_
    split
    · exact (grows_listed h fuel).bind fun _ => (grows_consume _ _).discard.bind fun _ =>
        (grows_spanFrom _).bind fun _ => ih _
    refine (grows_accept _).bind fun dotted => ?_
    split
    · exact (grows_expectName _).bind fun _ => (grows_spanFrom _).bind fun _ => ih _
    · exact grows_pure object

private theorem grows_expression_unary (fuel : Nat) :
    Grows (expression fuel) ∧ Grows (unary fuel) := by
  induction fuel with
  | zero => exact ⟨grows_failExpression, grows_failExpression⟩
  | succ fuel ih =>
    obtain ⟨hexpression, hunary⟩ := ih
    constructor
    · rw [expression]
      refine (grows_pairs hunary fuel _).bind fun target => (grows_check _).bind fun assigned => ?_
      split
      · exact grows_pure target
      refine grows_advance.bind fun sign => hexpression.bind fun value => ?_
      split
      · exact grows_pure _
      · exact grows_pure _
      · exact grows_fail _
    · rw [unary]
      refine grows_peekKind.bind fun kind => ?_
      split
      · exact (grows_primary hexpression).bind fun _ => grows_trailers hexpression fuel fuel _
      · exact grows_advance.bind fun _ => hunary.bind fun _ => grows_pure _

private theorem grows_expression (fuel : Nat) : Grows (expression fuel) :=
    (grows_expression_unary fuel).1

theorem grows_recovering {declaration : Parse Stmt} (h : Grows declaration) :
    Grows (recovering declaration) := by
  intro p
  unfold recovering
  cases hrun : declaration p with
  | ok stmt q => exact h.prefix_of_ok hrun
  | error e q =>
    have hq := h.prefix_of_error hrun
    simp only [synchronize_errors, Array.toList_push]
    exact hq.trans (List.prefix_append _ _)

theorem grows_declarations {declaration : Parse Stmt} (h : Grows declaration) (stop : Parser → Bool)
    (count : Nat) : Grows (declarations stop declaration count) := by
  induction count with
  | zero => exact grows_pure []
  | succ count ih =>
    rw [declarations]
    refine grows_get.bind fun p => ?_
    split
    · exact grows_pure []
    · exact (grows_recovering h).bind fun _ => ih.bind fun _ => grows_pure _

theorem grows_blockBody {declaration : Parse Stmt} (h : Grows declaration) (fuel : Nat) :
    Grows (blockBody fuel declaration) := by
  have hopen : Grows (modify fun p => { p with blockDepth := p.blockDepth + 1 }) :=
    grows_modify fun _ => rfl
  have hclose : Grows (modify fun p => { p with blockDepth := p.blockDepth - 1 }) :=
    grows_modify fun _ => rfl
  exact hopen.bind fun _ => (grows_declarations h _ fuel).bind fun _ =>
    hclose.bind fun _ => (grows_consume _ _).discard.bind fun _ => grows_pure _

theorem grows_inFunction {body : Parse α} (h : Grows body) : Grows (inFunction body) := by
  intro p
  cases hrun : body { p with functionDepth := p.functionDepth + 1 } with
  | ok a q =>
    have hq := h.prefix_of_ok hrun
    rw [inFunction_of_ok hrun]
    exact hq
  | error e q =>
    have hq := h.prefix_of_error hrun
    rw [inFunction_of_error hrun]
    exact hq

theorem grows_varDeclaration {expression : Parse Expr} (h : Grows expression) :
    Grows (varDeclaration expression) := by
  have hend (what : String) (start : Span) (f : Span → Stmt) :
      Grows (do discard (consume .semicolon what); return f (← spanFrom start)) :=
    (grows_consume _ _).discard.bind fun _ => (grows_spanFrom _).bind fun _ => grows_pure _
  refine grows_advance.bind fun _ => (grows_expectName _).bind fun _ =>
    (grows_accept _).bind fun _ => ?_
  split
  · exact (h.map some).bind fun _ => hend _ _ _
  · exact (grows_pure none).bind fun _ => hend _ _ _

theorem grows_functionDeclaration {declaration : Parse Stmt} (h : Grows declaration)
    (fuel : Nat) : Grows (functionDeclaration fuel declaration) :=
  grows_advance.bind fun _ => (grows_expectName _).bind fun _ =>
    (grows_consume _ _).discard.bind fun _ => (grows_listed (grows_expectName _) fuel).bind fun _ =>
    (grows_consume _ _).discard.bind fun _ => (grows_consume _ _).discard.bind fun _ =>
    (grows_inFunction (grows_blockBody h fuel)).bind fun _ =>
    (grows_spanFrom _).bind fun _ => grows_pure _

theorem grows_ifStatement {expression : Parse Expr} {statement : Parse Stmt}
    (hexpression : Grows expression) (hstatement : Grows statement) :
    Grows (ifStatement expression statement) := by
  refine grows_advance.bind fun _ => (grows_consume _ _).discard.bind fun _ =>
    hexpression.bind fun _ => (grows_consume _ _).discard.bind fun _ =>
    hstatement.bind fun _ => (grows_accept _).bind fun _ => ?_
  split
  · exact (hstatement.map some).bind fun _ => (grows_spanFrom _).bind fun _ => grows_pure _
  · exact (grows_pure none).bind fun _ => (grows_spanFrom _).bind fun _ => grows_pure _

theorem grows_whileStatement {expression : Parse Expr} {statement : Parse Stmt}
    (hexpression : Grows expression) (hstatement : Grows statement) :
    Grows (whileStatement expression statement) := by
  have hend : ∀ start : Span, Grows (do
      let condition ← expression
      discard (consume .rightParen "')' after condition")
      let body ← statement
      return Stmt.loop condition body (← spanFrom start)) := fun _ =>
    hexpression.bind fun _ => (grows_consume _ _).discard.bind fun _ =>
      hstatement.bind fun _ => (grows_spanFrom _).bind fun _ => grows_pure _
  refine grows_advance.bind fun _ => (grows_consume _ _).discard.bind fun _ =>
    (grows_check _).bind fun _ => ?_
  split
  · exact grows_get.bind fun _ => (grows_fail _).bind fun _ => hend _
  · exact hend _

theorem grows_returnStatement {expression : Parse Expr} (h : Grows expression) :
    Grows (returnStatement expression) := by
  have hend (value : Option Expr) (start : Span) : Grows (do
      discard (consume .semicolon "';' after return value")
      return Stmt.ret value (← spanFrom start)) :=
    (grows_consume _ _).discard.bind fun _ => (grows_spanFrom _).bind fun _ => grows_pure _
  have hvalue : Grows (do
      let start := (← advance).span
      let value ← if ← check .semicolon then pure none else some <$> expression
      discard (consume .semicolon "';' after return value")
      return Stmt.ret value (← spanFrom start)) := by
    refine grows_advance.bind fun _ => (grows_check _).bind fun _ => ?_
    split
    · exact (grows_pure none).bind fun _ => hend _ _
    · exact (h.map some).bind fun _ => hend _ _
  refine grows_get.bind fun p => ?_
  split
  · exact (grows_fail _).bind fun _ => hvalue
  · exact hvalue

theorem grows_declaration_statement (fuel : Nat) :
    Grows (declaration fuel) ∧ Grows (statement fuel) := by
  induction fuel with
  | zero => exact ⟨grows_failExpression, grows_failExpression⟩
  | succ fuel ih =>
    obtain ⟨hdeclaration, hstatement⟩ := ih
    have hexpression := grows_expression fuel
    constructor
    · rw [declaration]
      refine grows_peekKind.bind fun kind => ?_
      split
      · exact grows_varDeclaration hexpression
      · exact grows_functionDeclaration hdeclaration fuel
      · exact hstatement
    · rw [statement]
      refine grows_peekKind.bind fun kind => ?_
      split
      · exact grows_ifStatement hexpression hstatement
      · exact grows_whileStatement hexpression hstatement
      · exact grows_returnStatement hexpression
      · exact grows_advance.bind fun _ => (grows_blockBody hdeclaration fuel).bind fun _ =>
          (grows_spanFrom _).bind fun _ => grows_pure _
      · exact hexpression.bind fun _ => (grows_consume _ _).discard.bind fun _ =>
          (grows_spanFrom _).bind fun _ => grows_pure _

end Parser
end Copione
