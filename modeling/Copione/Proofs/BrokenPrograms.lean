import Copione.Proofs.BrokenHeads
import Copione.Proofs.Derailment
/-!
# Programs with a broken head in them

One declaration of a well-formed program has a broken head. If a block comes behind the head, reading
resumes inside of it, and the brace that closes it is reported as well. If an expression statement
comes behind a broken condition, nothing but the head is reported, and so it is if the first branch is
missing and no block comes behind `oppure`. A broken condition in front of a bare `se`, `mentre` or
`ritorna` is left out: an `oppure` of such a body, or one behind it, may be reported too.
-/
namespace Copione

open Copione.Bracket

def Stmt.isExpr : Stmt → Bool
  | .expr .. => true
  | _ => false

/-- The tokens `ts` are the declaration `s` with a broken head: with a condition that cannot be read
in front of an expression statement or a block, with parameters that cannot be read, or without its
first branch. It is given up among the tokens `m`. It is quiet if what comes behind the head is no
block. -/
inductive Broken : (quiet : Bool) → Stmt → (ts m : List Token) → Prop
  | cond {thenBranch : Stmt} {elseBranch : Option Stmt} {head ts ts' : List Token}
    (hhead : BrokenHead .se head) (hts : ts.map Token.word = thenBranch.words)
    (hthen : thenBranch.isExpr ∨ thenBranch.isBlock)
    (hts' : ts'.map Token.word = Stmt.wordsOfElse elseBranch) (condition : Expr) (span : Span) :
    Broken (!thenBranch.isBlock) (.cond condition thenBranch elseBranch span) (head ++ (ts ++ ts'))
      (head ++ ts)
  | loop {body : Stmt} {head ts : List Token} (hhead : BrokenHead .mentre head)
    (hts : ts.map Token.word = body.words) (hbody : body.isExpr ∨ body.isBlock) (condition : Expr)
    (span : Span) :
    Broken (!body.isBlock) (.loop condition body span) (head ++ ts) (head ++ ts)
  | function {body : List Stmt} {head ts : List Token} {opening closing : Token}
    (hhead : BrokenFunctionHead head) (hopening : opening.kind = .leftBrace)
    (hts : ts.map Token.word = Stmt.wordsOfAll body) (hclosing : closing.kind = .rightBrace)
    (name : String) (params : List String) (span : Span) :
    Broken false (.function name params body span) (head ++ opening :: (ts ++ [closing]))
      (head ++ [opening])
  | onlyElse {condition : Expr} {elseBranch : Stmt} {head ts : List Token} {sign : Token}
    (hhead : head.map Token.word = headWords .se condition) (hsign : sign.kind = .oppure)
    (hts : ts.map Token.word = elseBranch.words) (thenBranch : Stmt) (span : Span) :
    Broken (!elseBranch.isBlock) (.cond condition thenBranch (some elseBranch) span)
      (head ++ sign :: ts) (head ++ [sign])

mutual

/-- The tokens say the statement `s`, but for one declaration with a broken head in a block of it. -/
inductive BrokenWithin (quiet : Bool) (m : List Token) : (inside : Bool) → Stmt → (ts : List Token) → Prop
  | block {inside : Bool} {body : List Stmt} {opening closing : Token} {ts : List Token}
    (hopening : opening.kind = .leftBrace) (hbody : BrokenAmong quiet m inside body ts)
    (hclosing : closing.kind = .rightBrace) (span : Span) :
    BrokenWithin quiet m inside (.block body span) (opening :: (ts ++ [closing]))
  | function {inside : Bool} {name : String} {params : List String} {body : List Stmt}
    {head ts : List Token} {opening closing : Token}
    (hhead : head.map Token.word = functionWords name params) (hopening : opening.kind = .leftBrace)
    (hbody : BrokenAmong quiet m true body ts) (hclosing : closing.kind = .rightBrace) (span : Span) :
    BrokenWithin quiet m inside (.function name params body span) (head ++ opening :: (ts ++ [closing]))
  | loop {inside : Bool} {condition : Expr} {body : Stmt} {head ts : List Token}
    (hhead : head.map Token.word = headWords .mentre condition)
    (hbody : BrokenWithin quiet m inside body ts) (span : Span) :
    BrokenWithin quiet m inside (.loop condition body span) (head ++ ts)
  | onlyThen {inside : Bool} {condition : Expr} {thenBranch : Stmt} {head ts : List Token}
    (hhead : head.map Token.word = headWords .se condition)
    (hthen : BrokenWithin quiet m inside thenBranch ts) (span : Span) :
    BrokenWithin quiet m inside (.cond condition thenBranch none span) (head ++ ts)
  | thenBranch {inside : Bool} {condition : Expr} {thenBranch elseBranch : Stmt}
    {head ts ts' : List Token} {sign : Token} (hhead : head.map Token.word = headWords .se condition)
    (hthen : BrokenWithin quiet m inside thenBranch ts) (hsign : sign.kind = .oppure)
    (hts' : ts'.map Token.word = elseBranch.words) (span : Span) :
    BrokenWithin quiet m inside (.cond condition thenBranch (some elseBranch) span)
      (head ++ (ts ++ sign :: ts'))
  | elseBranch {inside : Bool} {condition : Expr} {thenBranch elseBranch : Stmt}
    {head ts ts' : List Token} {sign : Token} (hhead : head.map Token.word = headWords .se condition)
    (hts : ts.map Token.word = thenBranch.words) (hsign : sign.kind = .oppure)
    (helse : BrokenWithin quiet m inside elseBranch ts') (span : Span) :
    BrokenWithin quiet m inside (.cond condition thenBranch (some elseBranch) span)
      (head ++ (ts ++ sign :: ts'))

/-- The same for declarations one after another, one of which may itself have the broken head. -/
inductive BrokenAmong (quiet : Bool) (m : List Token) :
    (inside : Bool) → List Stmt → (ts : List Token) → Prop
  | here {inside : Bool} {s : Stmt} {ss : List Stmt} {ts ts' : List Token} (h : Broken quiet s ts m)
    (hts' : ts'.map Token.word = Stmt.wordsOfAll ss) :
    BrokenAmong quiet m inside (s :: ss) (ts ++ ts')
  | within {inside : Bool} {s : Stmt} {ss : List Stmt} {ts ts' : List Token}
    (h : BrokenWithin quiet m inside s ts) (hts' : ts'.map Token.word = Stmt.wordsOfAll ss) :
    BrokenAmong quiet m inside (s :: ss) (ts ++ ts')
  | later {inside : Bool} {s : Stmt} {ss : List Stmt} {ts ts' : List Token}
    (hts : ts.map Token.word = s.words) (h : BrokenAmong quiet m inside ss ts') :
    BrokenAmong quiet m inside (s :: ss) (ts ++ ts')

end

namespace Parser

variable {α : Type} {p q : Parser} {x : Parse α} {ts ts' left more m : List Token} {fuel : Nat}
  {quiet inside : Bool} {s : Stmt}

/-- The tokens are given up as a declaration, by an error at one of the tokens `m`, and reading
resumes at those that are left. -/
structure GivenUp (quiet inside : Bool) (ts m left : List Token) : Prop where
  stumbles : ∀ ⦃fuel : Nat⦄ ⦃p : Parser⦄ ⦃more : List Token⦄, p.rest = ts ++ more →
    2 * p.rest.length + 2 ≤ fuel → Stumble (declaration fuel) p (left ++ more) [m]
  begins : ∃ t rest, ts = t :: rest ∧ t.kind ∉ [.rightBrace, .eof, .oppure] ∧ left <:+ rest
  noBranch : NoBranch left
  overcome : quiet = true → Overcome inside left []
  closes : quiet = false → braces.balance (left.map Token.word) < 0

private theorem FailsAt.stumble {region behind : List Token} (h : FailsAt region behind p x p)
    (hregion : region ⊆ m) (hresumes : ∀ q, Within region behind p q → ResumesAt q more) :
    Stumble x p more [m] := by
  obtain ⟨e, q, hrun, hq, he⟩ := h
  refine ⟨e, q, [], hrun, ⟨rfl, ?_, hq.functionDepth_eq, hq.blockDepth_eq⟩, hresumes q hq,
    .cons (he.mono hregion) .nil⟩
  rw [hq.errors_eq, List.append_nil]

private theorem marredAll_of_words {ss : List Stmt} (hts : ts.map Token.word = Stmt.wordsOfAll ss) :
    MarredAll inside ss ts [] := by
  induction ss generalizing ts with
  | nil =>
    obtain rfl : ts = [] := List.map_eq_nil_iff.mp hts
    exact .nil
  | cons s ss ih =>
    obtain ⟨first, others, rfl, hfirst, hothers⟩ := List.map_eq_append_iff.mp hts
    exact .cons (.sound hfirst) (ih hothers)

private theorem overcome_of_wordsOfAll {ss : List Stmt} (hss : ∀ s ∈ ss, s.WellFormed inside)
    (hts : ts.map Token.word = Stmt.wordsOfAll ss) : Overcome inside ts [] :=
  (marredAll_of_words hts).overcome hss

private theorem overcome_of_words (hs : s.WellFormed inside) (hts : ts.map Token.word = s.words) :
    Overcome inside ts [] := by
  have hss : ∀ s' ∈ [s], s'.WellFormed inside := by simpa using hs
  exact overcome_of_wordsOfAll hss (by simp [Stmt.wordsOfAll, hts])

private theorem declaration_fails_of_statement {region behind : List Token}
    (h : FailsAt region behind p (statement fuel) p) (hvar : p.current.kind ≠ .variabile)
    (hfunction : p.current.kind ≠ .funzione) :
    FailsAt region behind p (declaration (fuel + 1)) p :=
  h.of_eq (declaration_of_statement hvar hfunction)

private theorem notMem_of_head {first : Token} {rest : List Token} {kinds : List TokenKind}
    (hfirst : first.kind ∉ kinds) (hrest : ∀ t ∈ rest, t.kind.inExpr)
    (hkinds : ∀ kind ∈ kinds, kind.inExpr = false) : ∀ t ∈ first :: rest, t.kind ∉ kinds := by
  intro t ht hmem
  rcases List.mem_cons.mp ht with rfl | ht
  · exact hfirst hmem
  · have hinExpr := hrest t ht
    rw [hkinds _ hmem] at hinExpr
    cases hinExpr

private theorem givenUp_of_expr {kind : TokenKind} {head : List Token} {value : Expr} {span : Span}
    (hkind : kind ∈ [.se, .mentre]) (hhead : BrokenHead kind head) (hvalue : value.WellFormed)
    (hts : ts.map Token.word = (Stmt.expr value span).words) (hskipped : SkippedBranches ts') :
    GivenUp true inside (head ++ (ts ++ ts')) (head ++ ts) [] := by
  rw [Stmt.words] at hts
  have hbalanced : parens.Balanced (ts.map Token.word) := by
    rw [hts]
    exact hvalue.parens_balanced.append (balanced_of_weight_eq_zero (by decide))
  obtain ⟨init, last, rfl, hinit, hlast⟩ := List.map_eq_append_iff.mp hts
  obtain ⟨last, rfl, hsemicolon⟩ := List.map_eq_singleton_iff.mp hlast
  have hend : last.kind = .semicolon := by
    rw [← Token.word_kind, hsemicolon]
    rfl
  have hclosed : Closed (init ++ [last]) := closed_append_singleton (by rw [hend]; rfl) init
  obtain ⟨first, rest, hhead', hfirst, hrest⟩ := hhead.tail_inExpr
  have hinExpr : ∀ t ∈ rest ++ init, t.kind.inExpr := by
    intro t ht
    exact (List.mem_append.mp ht).elim (hrest t) (inExpr_of_map_word hinit hvalue.words_inExpr t)
  have hfirstKind : first.kind ∉ [.rightBrace, .eof, .oppure, .semicolon, .variabile, .funzione] := by
    rw [hfirst]
    simp only [List.mem_cons, List.not_mem_nil, or_false] at hkind
    rcases hkind with rfl | rfl <;> decide
  have hkinds := notMem_of_head hfirstKind hinExpr (by decide)
  simp only [List.mem_cons, List.not_mem_nil, or_false, not_or] at hfirstKind
  have hwhole : head ++ (init ++ [last]) = first :: (rest ++ init) ++ [last] := by simp [hhead']
  have hthrough : ThroughSemicolon (head ++ (init ++ [last])) := by
    refine ⟨first :: (rest ++ init), last, hwhole, ?_, hend⟩
    intro t ht hkind
    exact hkinds t ht (by simp [hkind])
  have hboundaries : ∀ t ∈ (head ++ (init ++ [last])).tail, t.kind ∉ boundaries := by
    rw [hwhole]
    intro t ht
    rcases List.mem_append.mp ht with ht | ht
    · exact (passable_of_inExpr (hinExpr t ht)).1
    · obtain rfl := List.mem_singleton.mp ht
      rw [hend]
      decide
  have hother : ∀ t ∈ head ++ (init ++ [last]), t.kind ≠ .rightBrace ∧ t.kind ≠ .eof := by
    rw [hwhole]
    intro t ht
    rcases List.mem_append.mp ht with ht | ht
    · have hnotMem := hkinds t ht
      simp only [List.mem_cons, not_or] at hnotMem
      exact ⟨hnotMem.1, hnotMem.2.1⟩
    · obtain rfl := List.mem_singleton.mp ht
      rw [hend]
      decide
  refine ⟨?_, ⟨first, rest ++ (init ++ [last] ++ ts'), by simp [hhead'], by simp [hfirstKind],
    List.nil_suffix⟩, by simp [NoBranch], fun _ => overcome_nil, by simp⟩
  intro fuel p more hp hfuel
  obtain ⟨fuel, rfl⟩ : ∃ k, fuel = k + 1 := ⟨fuel - 1, by omega⟩
  replace hp : p.rest = head ++ (init ++ [last]) ++ (ts' ++ more) := by simpa using hp
  have hcurrent : p.current = first := by rw [current, hp, hhead']; rfl
  have hfails := brokenStatement_fails hhead hkind hbalanced hclosed (by simp) hp
    (show 2 * p.rest.length + 1 ≤ fuel by omega)
  apply (declaration_fails_of_statement hfails (by simp [hcurrent, hfirstKind])
    (by simp [hcurrent, hfirstKind])).stumble (List.Subset.refl _)
  intro q hq
  obtain ⟨hbrace, heof⟩ := hother q.current hq.current_mem
  exact (hq.resumesAt hthrough hboundaries hbrace heof).past hskipped

/-- In a block behind the head reading resumes. -/
private theorem givenUp_of_block {head inner : List Token} {opening closing : Token} {ss : List Stmt}
    {first : Token} {rest : List Token} {inside' : Bool} (hhead : head = first :: rest)
    (hfirst : first.kind ∉ [.rightBrace, .eof, .oppure, .semicolon])
    (hrest : ∀ t ∈ rest, t.kind.inExpr)
    (hfails : ∀ ⦃fuel : Nat⦄ ⦃p : Parser⦄ ⦃more : List Token⦄, p.rest = head ++ [opening] ++ more →
      2 * p.rest.length + 2 ≤ fuel → FailsAt (head ++ [opening]) more p (declaration fuel) p)
    (hopening : opening.kind = .leftBrace) (hclosing : closing.kind = .rightBrace)
    (hss : ∀ s ∈ ss, s.WellFormed inside') (hinner : inner.map Token.word = Stmt.wordsOfAll ss)
    (hbranches : braces.balance (ts'.map Token.word) = 0) (hm : head ++ [opening] ⊆ m) :
    ∃ left, GivenUp false inside (head ++ (opening :: (inner ++ [closing]) ++ ts')) m left := by
  obtain ⟨left, hsettles, hsuffix, hnoBranch, hcloses⟩ := exists_settles_body hss
    (fun s hs ts hts => exists_landing (hss s hs) hts) hinner hclosing
  simp only [List.mem_cons, List.not_mem_nil, or_false, not_or] at hfirst
  obtain ⟨passed, hpassed⟩ := hsuffix
  refine ⟨left ++ ts', ?_, ⟨first, rest ++ (opening :: (inner ++ [closing]) ++ ts'), by simp [hhead],
    by simp [hfirst], ?_⟩, ?_, by simp, ?_⟩
  · intro fuel p more hp hfuel
    replace hp : p.rest = head ++ [opening] ++ (inner ++ [closing] ++ (ts' ++ more)) := by
      simpa using hp
    apply (hfails hp hfuel).stumble hm
    intro q hq
    subst hhead
    rw [List.append_assoc]
    exact resumesAt_of_head hrest (by simp [hfirst]) hopening hsettles hq
  · exact ⟨rest ++ opening :: passed, by simp [← hpassed]⟩
  · cases left with
    | nil => simp at hcloses
    | cons t left => exact hnoBranch
  · intro _
    rw [List.map_append, balance_append, hbranches]
    omega

private theorem givenUp_of_body {kind : TokenKind} {head : List Token} (hkind : kind ∈ [.se, .mentre])
    (hhead : BrokenHead kind head) (hs : s.WellFormed inside) (hbody : s.isExpr ∨ s.isBlock)
    (hts : ts.map Token.word = s.words) (hskipped : SkippedBranches ts')
    (hbranches : braces.balance (ts'.map Token.word) = 0) :
    ∃ left, GivenUp (!s.isBlock) inside (head ++ (ts ++ ts')) (head ++ ts) left := by
  cases hs with
  | expr hvalue span => exact ⟨[], givenUp_of_expr hkind hhead hvalue hts hskipped⟩
  | @block inside body hss span =>
    rw [Stmt.words] at hts
    obtain ⟨opening, inner, closing, rfl, hopening, hclosing, hinner⟩ := exists_braces hts
    obtain ⟨first, rest, hhead', hfirst, hrest⟩ := hhead.tail_inExpr
    have hfirstKind : first.kind ∉ [.rightBrace, .eof, .oppure, .semicolon, .variabile, .funzione] := by
      rw [hfirst]
      simp only [List.mem_cons, List.not_mem_nil, or_false] at hkind
      rcases hkind with rfl | rfl <;> decide
    simp only [List.mem_cons, List.not_mem_nil, or_false, not_or] at hfirstKind
    apply givenUp_of_block hhead' (by simp [hfirstKind]) hrest _ hopening hclosing hss hinner hbranches
    · intro t ht
      rcases List.mem_append.mp ht with ht | ht
      · simp [ht]
      · simp [List.mem_singleton.mp ht]
    · intro fuel p more hp hfuel
      obtain ⟨fuel, rfl⟩ : ∃ k, fuel = k + 1 := ⟨fuel - 1, by omega⟩
      have hcurrent : p.current = first := by rw [current, hp, hhead']; rfl
      have hbalanced : parens.Balanced ([opening].map Token.word) := by
        apply balanced_of_weight_eq_zero
        simp [weight, parens, hopening]
      have hclosed : Closed [opening] := closed_append_singleton (by rw [hopening]; rfl) []
      have hfails := brokenStatement_fails hhead hkind hbalanced hclosed (by simp) hp
        (show 2 * p.rest.length + 1 ≤ fuel by omega)
      exact declaration_fails_of_statement hfails (by simp [hcurrent, hfirstKind])
        (by simp [hcurrent, hfirstKind])
  | var | cond | loop | function | ret => simp [Stmt.isExpr, Stmt.isBlock] at hbody

private theorem givenUp_of_onlyElse {condition : Expr} {head : List Token} {sign : Token}
    (hcondition : condition.WellFormed) (hhead : head.map Token.word = headWords .se condition)
    (hsign : sign.kind = .oppure) (hs : s.WellFormed inside) (hts : ts.map Token.word = s.words) :
    ∃ left, GivenUp (!s.isBlock) inside (head ++ sign :: ts) (head ++ [sign]) left := by
  obtain ⟨left, hleft⟩ := exists_landing hs hts
  obtain ⟨first, rest, hhead', hfirst, -⟩ := List.map_eq_cons_iff.mp hhead
  have hkind : first.kind = .se := by
    rw [← Token.word_kind, hfirst]
    rfl
  refine ⟨left, ?_, ⟨first, rest ++ sign :: ts, by simp [hhead'], by simp [hkind], ?_⟩, hleft.noBranch,
    ?_, ?_⟩
  · intro fuel p more hp hfuel
    obtain ⟨fuel, rfl⟩ : ∃ k, fuel = k + 2 := ⟨fuel - 2, by omega⟩
    rw [List.append_assoc, List.cons_append] at hp
    have hcurrent : p.current = first := by rw [current, hp, hhead']; rfl
    obtain ⟨condition', q, hq, hread⟩ :=
      condHead_read hcondition hhead hp (show 2 * p.rest.length ≤ fuel by omega)
    have hshorter : q.rest.length < p.rest.length := by
      rw [hq.rest_eq, hp, hhead']
      simp only [List.length_cons, List.length_append]
      omega
    obtain ⟨e, r, hrun, hr, he⟩ := statement_fails_at_oppure hsign hq.rest_eq
      (show 2 * q.rest.length + 1 ≤ fuel by omega)
    have hplace : r.rest = sign :: (ts ++ more) := by
      obtain ⟨passed, behind, hsplit, hrest⟩ := hr.rest_eq_cons
      obtain ⟨-, hcurrent', rfl⟩ : passed = [] ∧ r.current = sign ∧ behind = [] := by
        simpa [List.append_eq_singleton_iff] using hsplit
      rw [hrest, hcurrent']
      rfl
    refine ⟨e, r, [], ?_, ⟨rfl, ?_, ?_, ?_⟩, hleft.settles.resumesAt hplace (by simp [hsign]),
      .cons (he.mono (by simp)) .nil⟩
    · rw [declaration_of_statement (by simp [hcurrent, hkind]) (by simp [hcurrent, hkind]), hread,
        Run.bind_of_error hrun]
    · rw [hr.errors_eq, hq.errors_eq]
    · rw [hr.functionDepth_eq, hq.functionDepth_eq]
    · rw [hr.blockDepth_eq, hq.blockDepth_eq]
  · exact hleft.suffix.trans ((List.suffix_cons _ _).trans (List.suffix_append _ _))
  · intro hquiet
    rcases hleft.whole (by simpa using hquiet) with rfl | rfl
    · exact overcome_nil
    · exact overcome_of_words hs hts
  · intro hnoisy
    exact hleft.closes (by simpa using hnoisy)

private theorem GivenUp.overcome_whole {left : List Token} (h : GivenUp quiet inside ts m left)
    (hquiet : quiet = true) : Overcome inside ts [m] := by
  obtain ⟨t, rest, rfl, ht, hsuffix⟩ := h.begins
  have hall : Overcome inside (t :: rest) ([m] ++ []) := by
    apply overcome_of_left (by simp_all) hsuffix.length_le (h.overcome hquiet)
    intro fuel p more hp hmore _ hfuel
    exact (h.stumbles hp hfuel).recovering (h.noBranch.append hmore)
  rwa [List.append_nil] at hall

private theorem GivenUp.derailsAll {left : List Token} (h : GivenUp false inside ts m left)
    {ss : List Stmt}
    (hss : ∀ s ∈ ss, s.WellFormed inside) (hts' : ts'.map Token.word = Stmt.wordsOfAll ss) :
    DerailsAll inside (ts ++ ts') := by
  obtain ⟨t, rest, rfl, ht, passed, rfl⟩ := h.begins
  apply derailsAll_cons (by simp_all) _ hss hts'
  intro fuel p more hp hmore hinside hfuel hdepth
  obtain ⟨s, q, es, hrun, hq, hes⟩ := (h.stumbles hp hfuel).recovering (h.noBranch.append hmore)
  have herrors := hq.errors_size
  have hone : [m].length = es.length := List.Forall₂.length_eq hes
  rw [List.length_singleton] at hone
  constructor
  · intro a r hrun'
    rw [hrun] at hrun'
    obtain ⟨-, rfl⟩ := EStateM.Result.ok.inj hrun'
    refine .inr ⟨by omega, ?_, ⟨t :: passed, ?_, by simp⟩, hq.functionDepth_eq, hq.blockDepth_eq⟩
    · have hcloses := h.closes rfl
      unfold Off
      rw [ahead, hq.rest_eq, hq.blockDepth_eq, List.map_append, balance_append]
      omega
    · rw [hp, hq.rest_eq]
      simp
  · intro e r hrun'
    rw [hrun] at hrun'
    cases hrun'

end Parser

open Copione.Parser

private theorem Broken.givenUp {quiet inside : Bool} {s : Stmt} {ts m : List Token}
    (h : Broken quiet s ts m)
    (hs : s.WellFormed inside) : ∃ left, GivenUp quiet inside ts m left := by
  cases h with
  | @cond thenBranch elseBranch head ts ts' hhead hts hthen hts' condition span =>
    cases hs with
    | cond hcondition hs hthenKind hs' helseKind =>
      apply givenUp_of_body (by decide) hhead hs hthen hts
      · cases elseBranch with
        | none =>
          obtain rfl : ts' = [] := List.map_eq_nil_iff.mp hts'
          exact .nil
        | some elseBranch =>
          obtain ⟨sign, ts', rfl, hsign, hts'⟩ := List.map_eq_cons_iff.mp hts'
          obtain ⟨first, others, rfl, hfirst, hothers⟩ :=
            skipped_of_wellFormed (hs' _ rfl) (helseKind _ rfl) hts'
          apply SkippedBranches.cons _ hfirst hothers
          rw [← Token.word_kind, hsign]
          rfl
      · rw [hts']
        cases elseBranch with
        | none => rfl
        | some elseBranch =>
          have hweight : braces.weight (.mark .oppure) = 0 := by decide
          rw [Stmt.wordsOfElse, balance_cons, hweight, (hs' _ rfl).braces_balanced.balance_eq]
          rfl
  | @loop body head ts hhead hts hbody condition span =>
    cases hs with
    | loop hcondition hs hbodyKind =>
      have hgivenUp := givenUp_of_body (by decide) hhead hs hbody hts .nil rfl
      rwa [List.append_nil] at hgivenUp
  | @function body head ts opening closing hhead hopening hts hclosing name params span =>
    cases hs with
    | function hs =>
      obtain ⟨first, rest, hhead', hfirst, hrest⟩ := hhead.tail_inExpr
      have hfails ⦃fuel : Nat⦄ ⦃p : Parser⦄ ⦃more : List Token⦄ (hp : p.rest = head ++ [opening] ++ more)
          (hfuel : 2 * p.rest.length + 2 ≤ fuel) :
          FailsAt (head ++ [opening]) more p (declaration fuel) p := by
        obtain ⟨fuel, rfl⟩ : ∃ k, fuel = k + 1 := ⟨fuel - 1, by omega⟩
        have hcurrent : p.current.kind = .funzione := by rw [current, hp, hhead']; exact hfirst
        apply (brokenFunction_fails hhead hopening hp (show p.rest.length < fuel by omega)
          (declaration fuel)).of_eq
        rw [declaration, Run.bind_of_ok (peekKind_apply p), hcurrent]
      rw [← List.append_nil (opening :: (ts ++ [closing]))]
      exact givenUp_of_block hhead' (by simp [hfirst]) hrest hfails hopening hclosing hs hts rfl
        (List.Subset.refl _)
  | onlyElse hhead hsign hts thenBranch span =>
    cases hs with
    | cond hcondition hs hthenKind hs' helseKind =>
      exact givenUp_of_onlyElse hcondition hhead hsign (hs' _ rfl) hts

private theorem BrokenWithin.begins {quiet inside : Bool} {s : Stmt} {ts m : List Token}
    (h : BrokenWithin quiet m inside s ts) :
    ∃ t rest, ts = t :: rest ∧ t.kind ∉ [.rightBrace, .eof, .oppure] := by
  cases h with
  | block hopening hbody hclosing span => exact ⟨_, _, rfl, by simp [hopening]⟩
  | function hhead hopening hbody hclosing span => exact begins_of_mark hhead (by decide)
  | loop hhead hbody span => exact begins_of_mark hhead (by decide)
  | onlyThen hhead hthen span => exact begins_of_mark hhead (by decide)
  | thenBranch hhead hthen hsign hts' span => exact begins_of_mark hhead (by decide)
  | elseBranch hhead hts hsign helse span => exact begins_of_mark hhead (by decide)

private theorem BrokenAmong.begins {quiet inside : Bool} {ss : List Stmt} {ts m : List Token}
    (h : BrokenAmong quiet m inside ss ts) (hss : ∀ s ∈ ss, s.WellFormed inside) : Begins ts := by
  cases h with
  | here h hts' =>
    obtain ⟨left, hleft⟩ := h.givenUp (hss _ List.mem_cons_self)
    obtain ⟨t, rest, hts, ht, -⟩ := hleft.begins
    exact begins_append ⟨t, rest, hts, ht⟩ _
  | within h hts' => exact begins_append h.begins _
  | later hts h => exact begins_append (begins_of_words hts) _

mutual

theorem BrokenWithin.outcome {quiet inside branch : Bool} {s : Stmt} {ts m : List Token}
    (h : BrokenWithin quiet m inside s ts) (hquiet : quiet = true) (hs : s.WellFormed inside)
    (hkind : branch → s.isDeclaration = false) : Outcome inside branch false s ts [m] := by
  cases h with
  | block hopening hbody hclosing span =>
    cases hs with
    | block hs => exact outcome_block (hbody.overcome hquiet hs) hopening hclosing
  | function hhead hopening hbody hclosing span =>
    cases hs with
    | function hs =>
      cases branch with
      | true => cases hkind rfl
      | false => exact outcome_function (hbody.overcome hquiet hs) hhead hopening hclosing
  | loop hhead hbody span =>
    cases hs with
    | loop hcondition hs hbodyKind =>
      exact outcome_loop span hcondition hhead (hbody.outcome hquiet hs fun _ => hbodyKind)
  | onlyThen hhead hthen span =>
    cases hs with
    | cond hcondition hs hthenKind =>
      exact outcome_onlyThen span hcondition hhead (hthen.outcome hquiet hs fun _ => hthenKind)
  | thenBranch hhead hthen hsign hts' span =>
    cases hs with
    | cond hcondition hs hthenKind hs' helseKind hclosed =>
      exact outcome_thenElse span hcondition (hclosed rfl) hhead
        (hthen.outcome hquiet hs fun _ => hthenKind) hsign
        (outcome_sound (hs' _ rfl) (fun _ => helseKind _ rfl) hts')
  | elseBranch hhead hts hsign helse span =>
    cases hs with
    | cond hcondition hs hthenKind hs' helseKind hclosed =>
      exact outcome_thenElse span hcondition (hclosed rfl) hhead
        (outcome_sound hs (fun _ => hthenKind) hts) hsign
        (helse.outcome hquiet (hs' _ rfl) fun _ => helseKind _ rfl)

private theorem BrokenAmong.overcome {quiet inside : Bool} {ss : List Stmt} {ts m : List Token}
    (h : BrokenAmong quiet m inside ss ts) (hquiet : quiet = true)
    (hss : ∀ s ∈ ss, s.WellFormed inside) : Overcome inside ts [m] := by
  cases h with
  | here h hts' =>
    obtain ⟨hs, hss⟩ := List.forall_mem_cons.mp hss
    obtain ⟨left, hleft⟩ := h.givenUp hs
    have hfirst := hleft.overcome_whole hquiet
    exact hfirst.append (overcome_of_wordsOfAll hss hts') (begins_of_wordsOfAll hts')
  | within h hts' =>
    obtain ⟨hs, hss⟩ := List.forall_mem_cons.mp hss
    have hfirst : Outcome inside false false _ _ [m] := h.outcome hquiet hs (by simp)
    obtain ⟨t, rest, rfl, ht⟩ := h.begins
    have hfirst' := hfirst.overcome (by simp_all)
    exact hfirst'.append (overcome_of_wordsOfAll hss hts') (begins_of_wordsOfAll hts')
  | later hts h =>
    obtain ⟨hs, hss⟩ := List.forall_mem_cons.mp hss
    exact (overcome_of_words hs hts).append (h.overcome hquiet hss) (h.begins hss)

end

mutual

theorem BrokenWithin.derailsStmt {quiet inside branch : Bool} {s : Stmt} {ts m : List Token}
    (h : BrokenWithin quiet m inside s ts) (hquiet : quiet = false) (hs : s.WellFormed inside)
    (hkind : branch → s.isDeclaration = false) : DerailsStmt inside branch ts := by
  cases h with
  | block hopening hbody hclosing span =>
    cases hs with
    | block hs => exact derailsStmt_block (hbody.derailsAll hquiet hs) hopening hclosing
  | function hhead hopening hbody hclosing span =>
    cases hs with
    | function hs =>
      cases branch with
      | true => cases hkind rfl
      | false => exact derailsStmt_function (hbody.derailsAll hquiet hs) hhead hopening hclosing
  | loop hhead hbody span =>
    cases hs with
    | loop hcondition hs hbodyKind =>
      exact derailsStmt_loop hcondition hhead (hbody.derailsStmt hquiet hs fun _ => hbodyKind)
  | @onlyThen inside condition thenBranch head ts hhead hthen span =>
    cases hs with
    | cond hcondition hs hthenKind =>
      rw [← List.append_nil ts]
      exact derailsStmt_then hcondition hhead (hthen.derailsStmt hquiet hs fun _ => hthenKind) rfl
  | @thenBranch inside condition thenBranch elseBranch head ts ts' sign hhead hthen hsign hts' span =>
    cases hs with
    | cond hcondition hs hthenKind hs' helseKind hclosed =>
      apply derailsStmt_then hcondition hhead (hthen.derailsStmt hquiet hs fun _ => hthenKind)
      have hweight : braces.weight sign.word = 0 := by simp [weight, braces, hsign]
      rw [List.map_cons, balance_cons, hweight, hts', (hs' _ rfl).braces_balanced.balance_eq]
      rfl
  | elseBranch hhead hts hsign helse span =>
    cases hs with
    | cond hcondition hs hthenKind hs' helseKind hclosed =>
      exact derailsStmt_else hcondition hhead hs hthenKind (hclosed rfl) hts hsign
        (helse.derailsStmt hquiet (hs' _ rfl) fun _ => helseKind _ rfl)

private theorem BrokenAmong.derailsAll {quiet inside : Bool} {ss : List Stmt} {ts m : List Token}
    (h : BrokenAmong quiet m inside ss ts) (hquiet : quiet = false)
    (hss : ∀ s ∈ ss, s.WellFormed inside) : DerailsAll inside ts := by
  cases h with
  | here h hts' =>
    obtain ⟨hs, hss⟩ := List.forall_mem_cons.mp hss
    obtain ⟨left, hleft⟩ := h.givenUp hs
    subst hquiet
    exact hleft.derailsAll hss hts'
  | within h hts' =>
    obtain ⟨hs, hss⟩ := List.forall_mem_cons.mp hss
    have hfirst : DerailsStmt inside false _ := h.derailsStmt hquiet hs (by simp)
    obtain ⟨t, rest, rfl, ht⟩ := h.begins
    apply derailsAll_cons (by simp_all) _ hss hts'
    intro fuel p more hp _ hinside hfuel hdepth
    exact (hfirst hp hinside hfuel hdepth).recovering
  | later hts h =>
    obtain ⟨hs, hss⟩ := List.forall_mem_cons.mp hss
    exact (h.derailsAll hquiet hss).behind (h.begins hss) (overcome_of_words hs hts)

end

private theorem ne_eof_of_inExpr {kind : TokenKind} (h : kind.inExpr) : kind ≠ .eof := by
  rintro rfl
  cases h

private theorem ne_eof_of_words {inside : Bool} {s : Stmt} {ts : List Token} (hs : s.WellFormed inside)
    (hts : ts.map Token.word = s.words) : ∀ t ∈ ts, t.kind ≠ .eof :=
  ne_eof_of_map_word hts hs.isProper

private theorem ne_eof_of_wordsOfAll {inside : Bool} {ss : List Stmt} {ts : List Token}
    (hss : ∀ s ∈ ss, s.WellFormed inside) (hts : ts.map Token.word = Stmt.wordsOfAll ss) :
    ∀ t ∈ ts, t.kind ≠ .eof := by
  induction ss generalizing ts with
  | nil => simp [List.map_eq_nil_iff.mp hts]
  | cons s ss ih =>
    obtain ⟨hs, hss⟩ := List.forall_mem_cons.mp hss
    obtain ⟨first, others, rfl, hfirst, hothers⟩ := List.map_eq_append_iff.mp hts
    exact List.forall_mem_append.mpr ⟨ne_eof_of_words hs hfirst, ih hss hothers⟩

private theorem ne_eof_of_isPlain {ts : List Token} {ws : List Word} (hts : ts.map Token.word = ws)
    (hws : ws.all Word.isPlain) : ∀ t ∈ ts, t.kind ≠ .eof := by
  intro t ht heof
  have hplain := isPlain_of_map_word hts hws t ht
  rw [heof] at hplain
  cases hplain

private theorem Broken.ne_eof {quiet inside : Bool} {s : Stmt} {ts m : List Token}
    (h : Broken quiet s ts m)
    (hs : s.WellFormed inside) : ∀ t ∈ ts, t.kind ≠ .eof := by
  have hhead {head : List Token} {kind : TokenKind} (hkind : kind ≠ .eof)
      (h : ∃ first rest, head = first :: rest ∧ first.kind = kind ∧ ∀ t ∈ rest, t.kind.inExpr) :
      ∀ t ∈ head, t.kind ≠ .eof := by
    obtain ⟨first, rest, rfl, rfl, hrest⟩ := h
    exact List.forall_mem_cons.mpr ⟨hkind, fun t ht => ne_eof_of_inExpr (hrest t ht)⟩
  cases h with
  | @cond thenBranch elseBranch head ts ts' h hts hthen hts' condition span =>
    cases hs with
    | cond hcondition hs hthenKind hs' helseKind =>
      refine List.forall_mem_append.mpr ⟨hhead (by decide) h.tail_inExpr,
        List.forall_mem_append.mpr ⟨ne_eof_of_words hs hts, ?_⟩⟩
      cases elseBranch with
      | none => simp [List.map_eq_nil_iff.mp hts']
      | some elseBranch =>
        obtain ⟨sign, ts', rfl, hsign, hts'⟩ := List.map_eq_cons_iff.mp hts'
        refine List.forall_mem_cons.mpr ⟨?_, ne_eof_of_words (hs' _ rfl) hts'⟩
        rw [← Token.word_kind, hsign]
        decide
  | loop h hts hbody condition span =>
    cases hs with
    | loop hcondition hs hbodyKind =>
      exact List.forall_mem_append.mpr ⟨hhead (by decide) h.tail_inExpr, ne_eof_of_words hs hts⟩
  | function h hopening hts hclosing name params span =>
    cases hs with
    | function hs =>
      refine List.forall_mem_append.mpr ⟨hhead (by decide) h.tail_inExpr, List.forall_mem_cons.mpr
        ⟨by simp [hopening], List.forall_mem_append.mpr ⟨ne_eof_of_wordsOfAll hs hts, ?_⟩⟩⟩
      simp [hclosing]
  | onlyElse h hsign hts thenBranch span =>
    cases hs with
    | cond hcondition hs hthenKind hs' helseKind =>
      exact List.forall_mem_append.mpr ⟨ne_eof_of_isPlain h (headWords_isPlain rfl hcondition),
        List.forall_mem_cons.mpr ⟨by simp [hsign], ne_eof_of_words (hs' _ rfl) hts⟩⟩

mutual

theorem BrokenWithin.ne_eof {quiet inside : Bool} {s : Stmt} {ts m : List Token}
    (h : BrokenWithin quiet m inside s ts) (hs : s.WellFormed inside) : ∀ t ∈ ts, t.kind ≠ .eof := by
  cases h with
  | block hopening hbody hclosing span =>
    cases hs with
    | block hs =>
      refine List.forall_mem_cons.mpr ⟨by simp [hopening],
        List.forall_mem_append.mpr ⟨hbody.ne_eof hs, by simp [hclosing]⟩⟩
  | function hhead hopening hbody hclosing span =>
    cases hs with
    | function hs =>
      refine List.forall_mem_append.mpr ⟨ne_eof_of_isPlain hhead (functionWords_isPlain _ _),
        List.forall_mem_cons.mpr ⟨by simp [hopening],
          List.forall_mem_append.mpr ⟨hbody.ne_eof hs, by simp [hclosing]⟩⟩⟩
  | loop hhead hbody span =>
    cases hs with
    | loop hcondition hs hbodyKind =>
      exact List.forall_mem_append.mpr
        ⟨ne_eof_of_isPlain hhead (headWords_isPlain rfl hcondition), hbody.ne_eof hs⟩
  | onlyThen hhead hthen span =>
    cases hs with
    | cond hcondition hs hthenKind =>
      exact List.forall_mem_append.mpr
        ⟨ne_eof_of_isPlain hhead (headWords_isPlain rfl hcondition), hthen.ne_eof hs⟩
  | thenBranch hhead hthen hsign hts' span =>
    cases hs with
    | cond hcondition hs hthenKind hs' =>
      exact List.forall_mem_append.mpr ⟨ne_eof_of_isPlain hhead (headWords_isPlain rfl hcondition),
        List.forall_mem_append.mpr ⟨hthen.ne_eof hs,
          List.forall_mem_cons.mpr ⟨by simp [hsign], ne_eof_of_words (hs' _ rfl) hts'⟩⟩⟩
  | elseBranch hhead hts hsign helse span =>
    cases hs with
    | cond hcondition hs hthenKind hs' =>
      exact List.forall_mem_append.mpr ⟨ne_eof_of_isPlain hhead (headWords_isPlain rfl hcondition),
        List.forall_mem_append.mpr ⟨ne_eof_of_words hs hts,
          List.forall_mem_cons.mpr ⟨by simp [hsign], helse.ne_eof (hs' _ rfl)⟩⟩⟩

private theorem BrokenAmong.ne_eof {quiet inside : Bool} {ss : List Stmt} {ts m : List Token}
    (h : BrokenAmong quiet m inside ss ts) (hss : ∀ s ∈ ss, s.WellFormed inside) :
    ∀ t ∈ ts, t.kind ≠ .eof := by
  cases h with
  | here h hts' =>
    obtain ⟨hs, hss⟩ := List.forall_mem_cons.mp hss
    exact List.forall_mem_append.mpr ⟨h.ne_eof hs, ne_eof_of_wordsOfAll hss hts'⟩
  | within h hts' =>
    obtain ⟨hs, hss⟩ := List.forall_mem_cons.mp hss
    exact List.forall_mem_append.mpr ⟨h.ne_eof hs, ne_eof_of_wordsOfAll hss hts'⟩
  | later hts h =>
    obtain ⟨hs, hss⟩ := List.forall_mem_cons.mp hss
    exact List.forall_mem_append.mpr ⟨ne_eof_of_words hs hts, h.ne_eof hss⟩

end

namespace Program

/-- At the end of the text no block is closed, so a parser that is off has found another error. -/
theorem parse_of_derailsAll {ts : List Token} (h : DerailsAll false ts)
    (hts : ∀ t ∈ ts, t.kind ≠ .eof) {last : Token} (hlast : last.kind = .eof) :
    ∃ es, parse (ts ++ [last]) = .error es ∧ 2 ≤ es.length := by
  let tokens := ts ++ [last]
  have hfuel : fuelFor tokens.length = 4 * tokens.length + 4 := rfl
  have hlength : (ofTokens tokens).rest.length = tokens.length := rfl
  have hstop : StopsAtEnd isAtEnd := by
    intro p hkind
    simp only [List.mem_cons, List.not_mem_nil, or_false, not_or] at hkind
    simp [isAtEnd, hkind]
  have hempty (p : Parser) (hp : p.rest = []) : p.isAtEnd := by
    rw [isAtEnd, current, hp]
    rfl
  have hweight : braces.weight last.word = 0 := by simp [weight, braces, hlast]
  have hdepth : braces.balance ([last].map Token.word) + (ofTokens tokens).blockDepth = 0 := by
    simp [hweight, ofTokens]
  have hderails := h hstop hempty rfl (by simp [NoBranch, hlast]) rfl
    (show 2 * (ofTokens tokens).rest.length + 2 ≤ fuelFor tokens.length by omega)
    (show (ofTokens tokens).rest.length ≤ fuelFor tokens.length by omega) hdepth
  obtain ⟨ss, q, hrun⟩ := declarations_eq_ok isAtEnd (declaration (fuelFor tokens.length))
    (fuelFor tokens.length) (ofTokens tokens)
  have htwo : 2 ≤ q.errors.size := by
    by_contra hfew
    have hend : q.isAtEnd := hderails.stops hrun (by simpa [ofTokens] using hfew)
    rcases hderails.of_ok hrun with htwo | ⟨-, hoff, honward⟩
    · exact hfew (by simpa [ofTokens] using htwo)
    · exact not_off_of_isAtEnd honward rfl hts hend hoff
  refine ⟨q.errors.toList, ?_, by simpa using htwo⟩
  have hsome : q.errors.isEmpty = false := by
    rw [Array.isEmpty_eq_false_iff]
    rintro hempty
    simp [hempty] at htwo
  have hprogram : Parser.program (fuelFor tokens.length) (ofTokens tokens) = .ok ss q := hrun
  rw [parse, hprogram]
  simp [hsome]

/-- A well-formed program in which one declaration has a broken head, as `Broken` lists them. If it is
quiet, with an expression statement behind its condition or no block behind its `oppure`, one error is
reported, there. If a block comes behind the head, at least two errors are. -/
theorem parse_broken {program : List Stmt} (hprogram : ∀ s ∈ program, s.WellFormed false)
    {quiet : Bool} {ts m : List Token} (hbroken : BrokenAmong quiet m false program ts) {last : Token}
    (hlast : last.kind = .eof) :
    (quiet = true → ∃ e, parse (ts ++ [last]) = .error [e] ∧ e.Blames m) ∧
      (quiet = false → ∃ es, parse (ts ++ [last]) = .error es ∧ 2 ≤ es.length) := by
  constructor
  · intro hquiet
    obtain ⟨es, hparse, hes⟩ :=
      (parse_of_overcome (hbroken.overcome hquiet hprogram) hlast).2 (List.cons_ne_nil _ _)
    obtain ⟨e, rest, he, hrest, rfl⟩ := List.forall₂_cons_left_iff.mp hes
    obtain rfl : rest = [] := List.forall₂_nil_left_iff.mp hrest
    exact ⟨e, hparse, he⟩
  · intro hquiet
    exact parse_of_derailsAll (hbroken.derailsAll hquiet hprogram) (hbroken.ne_eof hprogram) hlast

/-- In a function, an `se` that lost its condition is reported once, and a loop that lost it twice or
more. -/
theorem parse_broken_two_conditions :
    let at0 : Span := ⟨0, 0, 0⟩
    let a : Expr := .name "a" at0
    let cond : Stmt := .cond a (.expr a at0) (some (.block [] at0)) at0
    let loop : Stmt := .loop a (.block [.expr a at0] at0) at0
    let program : List Stmt := [.function "f" [] [cond, loop] at0]
    let mark (kind : TokenKind) : Token := Word.token (.mark kind)
    let name (n : String) : Token := Word.token (.name n)
    let head : List Token := [mark .funzione, name "f", mark .leftParen, mark .rightParen]
    let expr : List Token := [name "a", mark .semicolon]
    let block : List Token := mark .leftBrace :: (expr ++ [mark .rightBrace])
    let given : List Token := [mark .leftParen, name "a", mark .rightParen]
    let lost : List Token := [mark .leftParen, mark .rightParen]
    let branch : List Token := [mark .oppure, mark .leftBrace, mark .rightBrace]
    let tokens (condition condition' : List Token) : List Token :=
      head ++ mark .leftBrace :: (mark .se :: condition ++ (expr ++ branch) ++
        (mark .mentre :: condition' ++ block) ++ [mark .rightBrace])
    (∀ s ∈ program, s.WellFormed false) ∧
      BrokenAmong true (mark .se :: lost ++ expr) false program (tokens lost given) ∧
      (∃ e, parse (tokens lost given ++ [mark .eof]) = .error [e] ∧
        e.Blames (mark .se :: lost ++ expr)) ∧
      BrokenAmong false (mark .mentre :: lost ++ block) false program (tokens given lost) ∧
      ∃ es, parse (tokens given lost ++ [mark .eof]) = .error es ∧ 2 ≤ es.length := by
  intro at0 a cond loop program mark name head expr block given lost branch tokens
  have hexpr (inside : Bool) : Stmt.WellFormed inside (.expr a at0) := .expr (.name _ _) _
  have hprogram : ∀ s ∈ program, s.WellFormed false := by
    have hblock : Stmt.WellFormed true (.block [] at0) := .block (by simp) _
    have hcond : Stmt.WellFormed true cond :=
      .cond (.name _ _) (hexpr true) rfl (by simp [hblock]) (by simp [Stmt.isDeclaration])
        (fun _ => rfl) _
    have hbody : Stmt.WellFormed true (.block [.expr a at0] at0) := .block (by simp [hexpr true]) _
    have hloop : Stmt.WellFormed true loop := .loop (.name _ _) hbody rfl _
    have hfunction : Stmt.WellFormed false (.function "f" [] [cond, loop] at0) :=
      .function (by simp [hcond, hloop]) _ _ _
    simp [program, hfunction]
  have hlost (kind : TokenKind) : BrokenHead kind (mark kind :: lost) := by
    refine ⟨mark kind, mark .leftParen, [], mark .rightParen, rfl, rfl, rfl, by simp, rfl, ?_⟩
    intro e _ hprefix
    obtain ⟨w, ws, hwords, hw⟩ := e.words_eq_cons
    rw [hwords] at hprefix
    obtain ⟨rfl, -⟩ := List.cons_prefix_cons.mp hprefix
    cases hw
  have hexprWords : expr.map Token.word = (Stmt.expr a at0).words := rfl
  have hblockWords : block.map Token.word = (Stmt.block [.expr a at0] at0).words := rfl
  have hbranchWords : branch.map Token.word = Stmt.wordsOfElse (some (.block [] at0)) := rfl
  have hcond : Broken true cond (mark .se :: lost ++ (expr ++ branch)) (mark .se :: lost ++ expr) :=
    .cond (hlost .se) hexprWords (.inl rfl) hbranchWords a at0
  have hloop : Broken false loop (mark .mentre :: lost ++ block) (mark .mentre :: lost ++ block) :=
    .loop (hlost .mentre) hblockWords (.inr rfl) a at0
  have hhead : head.map Token.word = functionWords "f" [] := rfl
  have hopening : (mark .leftBrace).kind = .leftBrace := rfl
  have hclosing : (mark .rightBrace).kind = .rightBrace := rfl
  have hquiet : BrokenAmong true (mark .se :: lost ++ expr) false program (tokens lost given) := by
    have hrest : (mark .mentre :: given ++ block).map Token.word = Stmt.wordsOfAll [loop] := rfl
    have hbody : BrokenAmong true _ true [cond, loop] _ := .here hcond hrest
    have hfunction : BrokenWithin true _ false (.function "f" [] [cond, loop] at0) _ :=
      .function hhead hopening hbody hclosing at0
    have hall : BrokenAmong true _ false program (_ ++ []) := .within hfunction List.map_nil
    exact hall
  have hnoisy : BrokenAmong false (mark .mentre :: lost ++ block) false program (tokens given lost) := by
    have hfirst : (mark .se :: given ++ (expr ++ branch)).map Token.word = cond.words := rfl
    have hrest : ([] : List Token).map Token.word = Stmt.wordsOfAll [] := rfl
    have hbody : BrokenAmong false _ true [cond, loop] _ := .later hfirst (.here hloop hrest)
    have hfunction : BrokenWithin false _ false (.function "f" [] [cond, loop] at0) _ :=
      .function hhead hopening hbody hclosing at0
    have hall : BrokenAmong false _ false program (_ ++ []) := .within hfunction List.map_nil
    exact hall
  refine ⟨hprogram, hquiet, (parse_broken hprogram hquiet rfl).1 rfl, hnoisy,
    (parse_broken hprogram hnoisy rfl).2 rfl⟩

end Program

end Copione
