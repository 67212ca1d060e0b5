import Copione.Proofs.ExpressionLimits
import Copione.Proofs.ParserCompleteness
import Copione.Proofs.ParserProgress
/-!
# Where reading resumes

A declaration that cannot be read is given up through its next `;`, with the `oppure` branches
that come behind it: each of them is skipped to its end, whatever statement it is.
-/
namespace Copione

def headWords (kind : TokenKind) (condition : Expr) : List Word :=
  .mark kind :: .mark .leftParen :: condition.words ++ [.mark .rightParen]

theorem Stmt.words_cond (condition : Expr) (thenBranch : Stmt) (elseBranch : Option Stmt)
    (span : Span) : (cond condition thenBranch elseBranch span).words =
      headWords .se condition ++ (thenBranch.words ++ wordsOfElse elseBranch) := by
  simp [words, headWords]

theorem Stmt.words_loop (condition : Expr) (body : Stmt) (span : Span) :
    (loop condition body span).words = headWords .mentre condition ++ body.words := by
  simp [words, headWords]

def functionWords (name : String) (params : List String) : List Word :=
  .mark .funzione :: .name name :: .mark .leftParen :: commas (params.map fun p => [.name p]) ++
    [.mark .rightParen]

theorem Stmt.words_function (name : String) (params : List String) (body : List Stmt) (span : Span) :
    (function name params body span).words =
      functionWords name params ++ .mark .leftBrace :: (wordsOfAll body ++ [.mark .rightBrace]) := by
  simp [words, functionWords]

/-- Kinds of tokens that neither open, close nor end anything. -/
def TokenKind.isPlain : TokenKind → Bool
  | .eof | .leftBrace | .rightBrace | .semicolon => false
  | _ => true

def Word.isPlain (w : Word) : Bool := w.kind.isPlain

@[simp] theorem Word.isPlain_mark (kind : TokenKind) : (mark kind).isPlain = kind.isPlain := rfl

@[simp] theorem Word.isPlain_name (n : String) : (name n).isPlain = true := rfl

private theorem TokenKind.isPlain_of_inExpr {kind : TokenKind} (h : kind.inExpr) : kind.isPlain := by
  cases kind <;> first | rfl | cases h

private theorem all_isPlain_of_inExpr {ws : List Word} (h : ws.all Word.inExpr) :
    ws.all Word.isPlain := by
  rw [List.all_eq_true] at h ⊢
  intro w hw
  exact TokenKind.isPlain_of_inExpr (h w hw)

theorem headWords_isPlain {kind : TokenKind} (hkind : kind.isPlain) {condition : Expr}
    (h : condition.WellFormed) : (headWords kind condition).all Word.isPlain := by
  have hwords := all_isPlain_of_inExpr h.words_inExpr
  rw [headWords, List.all_append, List.all_cons, List.all_cons, hwords, Word.isPlain_mark, hkind]
  rfl

theorem functionWords_isPlain (name : String) (params : List String) :
    (functionWords name params).all Word.isPlain := by
  have hparams : (commas (params.map fun p => [Word.name p])).all Word.inExpr :=
    commas_inExpr (List.forall_mem_map.mpr fun _ _ => rfl)
  simp [functionWords, TokenKind.isPlain, all_isPlain_of_inExpr hparams]

def Stmt.isSimple : Stmt → Bool
  | .expr .. | .var .. | .ret .. => true
  | _ => false

theorem Stmt.WellFormed.words_of_isSimple {inside : Bool} {s : Stmt} (h : s.WellFormed inside)
    (hs : s.isSimple) : ∃ ws, s.words = ws ++ [.mark .semicolon] ∧ ws.all Word.isPlain := by
  cases h with
  | expr h span => exact ⟨_, by rw [words], all_isPlain_of_inExpr h.words_inExpr⟩
  | @var _ initial h name span =>
    refine ⟨_, by rw [words], ?_⟩
    cases initial with
    | none => simp [TokenKind.isPlain]
    | some e => simp [TokenKind.isPlain, all_isPlain_of_inExpr (h e rfl).words_inExpr]
  | @ret value h span =>
    refine ⟨_, by rw [words], ?_⟩
    cases value with
    | none => simp [TokenKind.isPlain]
    | some e => simp [TokenKind.isPlain, all_isPlain_of_inExpr (h e rfl).words_inExpr]
  | block | cond | loop | function => cases hs

theorem isPlain_of_map_word {ts : List Token} {ws : List Word} (h : ts.map Token.word = ws)
    (hws : ws.all Word.isPlain) : ∀ t ∈ ts, t.kind.isPlain := by
  intro t ht
  have hword : t.word ∈ ws := h ▸ List.mem_map_of_mem ht
  have hplain := List.all_eq_true.mp hws t.word hword
  rwa [Word.isPlain, Token.word_kind] at hplain

theorem ne_eof_of_map_word {ts : List Token} {ws : List Word} (h : ts.map Token.word = ws)
    (hws : ws.all Word.isProper) : ∀ t ∈ ts, t.kind ≠ .eof := by
  intro t ht heof
  have hword : t.word ∈ ws := h ▸ List.mem_map_of_mem ht
  have hproper := List.all_eq_true.mp hws t.word hword
  obtain ⟨kind, lexeme, literal, span⟩ := t
  obtain rfl : kind = .eof := heof
  cases hproper

namespace Parser

variable {p q r : Parser} {es es' : List CompileError} {ts more : List Token} {t : Token}

/-- From `p` the parser came to `q`, where `more` comes, and found the errors `es` on the way. -/
structure Arrives (p : Parser) (es : List CompileError) (more : List Token) (q : Parser) : Prop where
  rest_eq : q.rest = more
  errors_eq : q.errors.toList = p.errors.toList ++ es
  functionDepth_eq : q.functionDepth = p.functionDepth
  blockDepth_eq : q.blockDepth = p.blockDepth

theorem arrives_self (h : p.rest = more) : Arrives p [] more p := ⟨h, by simp, rfl, rfl⟩

theorem Arrives.trans {more' : List Token} (h : Arrives p es more q) (h' : Arrives q es' more' r) :
    Arrives p (es ++ es') more' r := by
  refine ⟨h'.rest_eq, ?_, h'.functionDepth_eq.trans h.functionDepth_eq,
    h'.blockDepth_eq.trans h.blockDepth_eq⟩
  rw [h'.errors_eq, h.errors_eq, List.append_assoc]

theorem Arrives.closed (h : Arrives { p with blockDepth := p.blockDepth + 1 } es more q) :
    Arrives p es more { q with blockDepth := q.blockDepth - 1 } := by
  refine ⟨h.rest_eq, h.errors_eq, h.functionDepth_eq, ?_⟩
  change q.blockDepth - 1 = p.blockDepth
  rw [h.blockDepth_eq, Nat.add_sub_cancel]

theorem Arrives.left (h : Arrives { p with functionDepth := p.functionDepth + 1 } es more q) :
    Arrives p es more { q with functionDepth := q.functionDepth - 1 } := by
  refine ⟨h.rest_eq, h.errors_eq, ?_, h.blockDepth_eq⟩
  change q.functionDepth - 1 = p.functionDepth
  rw [h.functionDepth_eq, Nat.add_sub_cancel]

theorem arrives_next (h : p.rest = t :: more) (ht : t.kind ≠ .eof) : Arrives p [] more p.next := by
  rw [next_eq_of_cons h ht]
  exact ⟨rfl, by simp, rfl, rfl⟩

private theorem arrives_skip (h : p.rest = ts ++ more) (hts : ∀ t ∈ ts, t.kind ≠ .eof) :
    Arrives p [] more (p.skip ts.length) := by
  induction ts generalizing p with
  | nil => exact arrives_self h
  | cons t ts ih =>
    have hnext := arrives_next h (hts t List.mem_cons_self)
    exact hnext.trans (ih hnext.rest_eq fun t ht => hts t (List.mem_cons_of_mem _ ht))

def pastBranches (p : Parser) : Parser := skipBranches p.rest.length p

private theorem skipBranches_congr {m n : Nat} (hm : p.rest.length ≤ m) (hn : p.rest.length ≤ n) :
    skipBranches m p = skipBranches n p := by
  induction m generalizing p n with
  | zero =>
    have hempty : p.rest = [] := List.length_eq_zero_iff.mp (Nat.le_zero.mp hm)
    have hne : p.current.kind ≠ .oppure := by simp [current, hempty]
    rw [skipBranches_of_ne hne, skipBranches_of_ne hne]
  | succ m ih =>
    by_cases hoppure : p.current.kind = .oppure
    · have hlength := (passes_mark hoppure rfl).length_lt
      have hskip := (onward_skip (branchLength 0 p.next.rest) p.next).length_le
      obtain ⟨n, rfl⟩ : ∃ k, n = k + 1 := ⟨n - 1, by omega⟩
      rw [skipBranches, skipBranches, if_pos (by simp [hoppure]), if_pos (by simp [hoppure])]
      exact ih (by omega) (by omega)
    · rw [skipBranches_of_ne hoppure, skipBranches_of_ne hoppure]

private theorem pastBranches_of_ne (h : p.current.kind ≠ .oppure) : p.pastBranches = p :=
  skipBranches_of_ne h _

structure SkippedBranch (ts : List Token) : Prop where
  noEof : ∀ t ∈ ts, t.kind ≠ .eof
  length_eq : ∀ more, branchLength 0 (ts ++ more) = ts.length

inductive SkippedBranches : List Token → Prop
  | nil : SkippedBranches []
  | cons {sign : Token} {ts others : List Token} (hsign : sign.kind = .oppure) (h : SkippedBranch ts)
    (hothers : SkippedBranches others) : SkippedBranches (sign :: (ts ++ others))

private theorem SkippedBranches.append {ts' : List Token} (h : SkippedBranches ts)
    (h' : SkippedBranches ts') : SkippedBranches (ts ++ ts') := by
  induction h with
  | nil => exact h'
  | cons hsign h hothers ih =>
    rw [List.cons_append, List.append_assoc]
    exact .cons hsign h ih

private theorem SkippedBranches.pastBranches_eq (h : SkippedBranches ts) (hp : p.rest = ts ++ more) :
    ∃ q, p.pastBranches = q.pastBranches ∧ Arrives p [] more q := by
  induction h generalizing p with
  | nil => exact ⟨p, rfl, arrives_self hp⟩
  | @cons sign ts others hsign h hothers ih =>
    rw [List.cons_append, List.append_assoc] at hp
    have hcurrent : p.current.kind = .oppure := by rwa [current, hp]
    have hnext := arrives_next hp (by simp [hsign])
    have hskip := arrives_skip hnext.rest_eq h.noEof
    obtain ⟨q, hq, harrives⟩ := ih hskip.rest_eq
    refine ⟨q, ?_, (hnext.trans hskip).trans harrives⟩
    rw [← hq, pastBranches, hp, List.length_cons, skipBranches, if_pos (by simp [hcurrent])]
    dsimp only
    rw [hnext.rest_eq, h.length_eq]
    apply skipBranches_congr
    · rw [hskip.rest_eq]
      simp only [List.length_append]
      omega
    · exact Nat.le_refl _

private theorem branchLength_of_isPlain (h : t.kind.isPlain) (depth : Nat) (rest : List Token) :
    branchLength depth (t :: rest) = 1 + branchLength depth rest := by
  rw [branchLength.eq_def]
  dsimp only
  generalize t.kind = kind at h
  cases kind <;> first | rfl | cases h

private theorem branchLength_append (h : ∀ t ∈ ts, t.kind.isPlain) (depth : Nat) (rest : List Token) :
    branchLength depth (ts ++ rest) = ts.length + branchLength depth rest := by
  induction ts with
  | nil => simp
  | cons t ts ih =>
    rw [List.cons_append, branchLength_of_isPlain (h t List.mem_cons_self),
      ih fun t ht => h t (List.mem_cons_of_mem _ ht), List.length_cons]
    omega

def Inner (ts : List Token) : Prop :=
  ∀ depth more, branchLength (depth + 1) (ts ++ more) = ts.length + branchLength (depth + 1) more

private theorem Inner.append {ts' : List Token} (h : Inner ts) (h' : Inner ts') : Inner
    (ts ++ ts') := by
  intro depth more
  rw [List.append_assoc, h, h', List.length_append, Nat.add_assoc]

private theorem inner_of_isPlain (h : ∀ t ∈ ts, t.kind.isPlain) : Inner ts :=
  fun depth _ => branchLength_append h (depth + 1) _

private theorem inner_semicolon (h : t.kind = .semicolon) : Inner [t] := by
  intro depth more
  rw [List.singleton_append, branchLength.eq_def]
  simp [h]

private theorem branchLength_block {opening closing : Token} (hopening : opening.kind = .leftBrace)
    (hclosing : closing.kind = .rightBrace) (h : Inner ts) (depth : Nat) :
    branchLength depth (opening :: (ts ++ closing :: more)) =
      ts.length + 2 + if depth = 0 then 0 else branchLength depth more := by
  have hopen : branchLength depth (opening :: (ts ++ closing :: more)) =
      1 + branchLength (depth + 1) (ts ++ closing :: more) := by
    rw [branchLength.eq_def]
    cases depth <;> simp [hopening]
  rw [hopen, h, branchLength.eq_def]
  cases depth with
  | zero =>
    simp [hclosing]
    omega
  | succ depth =>
    simp [hclosing]
    omega

private theorem Inner.block {opening closing : Token} (hopening : opening.kind = .leftBrace)
    (hclosing : closing.kind = .rightBrace) (h : Inner ts) : Inner (opening :: (ts ++ [closing])) := by
  intro depth more
  rw [List.cons_append, List.append_assoc, List.singleton_append,
    branchLength_block hopening hclosing h, if_neg (Nat.succ_ne_zero depth)]
  simp

private theorem skippedBranch_block {opening closing : Token} (hopening : opening.kind = .leftBrace)
    (hclosing : closing.kind = .rightBrace) (h : Inner ts) (hts : ∀ t ∈ ts, t.kind ≠ .eof) :
    SkippedBranch (opening :: (ts ++ [closing])) := by
  constructor
  · intro t ht
    simp only [List.mem_cons, List.mem_append, List.not_mem_nil, or_false] at ht
    rcases ht with rfl | ht | rfl
    · simp [hopening]
    · exact hts t ht
    · simp [hclosing]
  · intro more
    rw [List.cons_append, List.append_assoc, List.singleton_append,
      branchLength_block hopening hclosing h]
    simp

private theorem skippedBranch_semicolon (h : t.kind = .semicolon) : SkippedBranch [t] := by
  constructor
  · simp [h]
  · intro more
    rw [List.singleton_append, branchLength.eq_def]
    simp [h]

private theorem SkippedBranch.behind {head : List Token} (h : SkippedBranch ts)
    (hhead : ∀ t ∈ head, t.kind.isPlain) : SkippedBranch (head ++ ts) := by
  constructor
  · intro t ht heof
    rcases List.mem_append.mp ht with ht | ht
    · have hplain := hhead t ht
      rw [heof] at hplain
      cases hplain
    · exact h.noEof t ht heof
  · intro more
    rw [List.append_assoc, branchLength_append hhead, h.length_eq, List.length_append]

theorem exists_braces {ws : List Word}
    (h : ts.map Token.word = .mark .leftBrace :: (ws ++ [.mark .rightBrace])) :
    ∃ opening inner closing, ts = opening :: (inner ++ [closing]) ∧ opening.kind = .leftBrace ∧
      closing.kind = .rightBrace ∧ inner.map Token.word = ws := by
  obtain ⟨opening, rest, rfl, hopening, hrest⟩ := List.map_eq_cons_iff.mp h
  obtain ⟨inner, last, rfl, hinner, hlast⟩ := List.map_eq_append_iff.mp hrest
  obtain ⟨closing, rfl, hclosing⟩ := List.map_eq_singleton_iff.mp hlast
  refine ⟨opening, inner, closing, rfl, ?_, ?_, hinner⟩
  · rw [← Token.word_kind, hopening]
    rfl
  · rw [← Token.word_kind, hclosing]
    rfl

private theorem exists_simple {inside : Bool} {s : Stmt} (h : s.WellFormed inside) (hs : s.isSimple)
    (hts : ts.map Token.word = s.words) :
    ∃ init last, ts = init ++ [last] ∧ (∀ t ∈ init, t.kind.isPlain) ∧ last.kind = .semicolon := by
  obtain ⟨ws, hwords, hplain⟩ := h.words_of_isSimple hs
  rw [hwords] at hts
  obtain ⟨init, last, rfl, hinit, hlast⟩ := List.map_eq_append_iff.mp hts
  obtain ⟨last, rfl, hsemicolon⟩ := List.map_eq_singleton_iff.mp hlast
  refine ⟨init, last, rfl, isPlain_of_map_word hinit hplain, ?_⟩
  rw [← Token.word_kind, hsemicolon]
  rfl

private theorem inner_of_isSimple {inside : Bool} {s : Stmt} (h : s.WellFormed inside)
    (hs : s.isSimple) (hts : ts.map Token.word = s.words) : Inner ts := by
  obtain ⟨init, last, rfl, hinit, hlast⟩ := exists_simple h hs hts
  exact (inner_of_isPlain hinit).append (inner_semicolon hlast)

private theorem inner_wordsOfAll {ss : List Stmt}
    (h : ∀ s ∈ ss, ∀ ts : List Token, ts.map Token.word = s.words → Inner ts)
    (hts : ts.map Token.word = Stmt.wordsOfAll ss) : Inner ts := by
  induction ss generalizing ts with
  | nil =>
    obtain rfl : ts = [] := List.map_eq_nil_iff.mp hts
    exact inner_of_isPlain (by simp)
  | cons s ss ih =>
    obtain ⟨first, others, rfl, hfirst, hothers⟩ := List.map_eq_append_iff.mp hts
    exact (h s List.mem_cons_self first hfirst).append
      (ih (fun s hs => h s (List.mem_cons_of_mem _ hs)) hothers)

private theorem inner_of_wellFormed {inside : Bool} {s : Stmt} (h : s.WellFormed inside)
    (hts : ts.map Token.word = s.words) : Inner ts := by
  induction h generalizing ts with
  | @expr inside value h span =>
    have hwell : Stmt.WellFormed inside (.expr value span) := .expr h span
    exact inner_of_isSimple hwell rfl hts
  | @var inside initial h name span =>
    have hwell : Stmt.WellFormed inside (.var name initial span) := .var h name span
    exact inner_of_isSimple hwell rfl hts
  | ret h span => exact inner_of_isSimple (.ret h span) rfl hts
  | block h span ih =>
    obtain ⟨opening, inner, closing, rfl, hopening, hclosing, hinner⟩ := exists_braces hts
    exact .block hopening hclosing (inner_wordsOfAll (fun s hs ts hts => ih s hs hts) hinner)
  | @cond inside condition thenBranch elseBranch hcondition hthen hthenKind helse helseKind hclosed span
      ihthen ihelse =>
    rw [Stmt.words_cond] at hts
    obtain ⟨head, branches, rfl, hhead, hbranches⟩ := List.map_eq_append_iff.mp hts
    obtain ⟨first, others, rfl, hfirst, hothers⟩ := List.map_eq_append_iff.mp hbranches
    apply (inner_of_isPlain (isPlain_of_map_word hhead (headWords_isPlain rfl hcondition))).append
    apply (ihthen hfirst).append
    cases elseBranch with
    | none =>
      obtain rfl : others = [] := List.map_eq_nil_iff.mp hothers
      exact inner_of_isPlain (by simp)
    | some s =>
      obtain ⟨sign, second, rfl, hsign, hsecond⟩ := List.map_eq_cons_iff.mp hothers
      have hplain : sign.kind.isPlain := by
        rw [← Token.word_kind, hsign]
        rfl
      have hsignInner : Inner [sign] := inner_of_isPlain (by simpa using hplain)
      exact hsignInner.append (ihelse s rfl hsecond)
  | loop hcondition hbody hbodyKind span ih =>
    rw [Stmt.words_loop] at hts
    obtain ⟨head, body, rfl, hhead, hbody⟩ := List.map_eq_append_iff.mp hts
    apply (inner_of_isPlain (isPlain_of_map_word hhead (headWords_isPlain rfl hcondition))).append
    exact ih hbody
  | function h name params span ih =>
    rw [Stmt.words_function] at hts
    obtain ⟨head, body, rfl, hhead, hbody⟩ := List.map_eq_append_iff.mp hts
    obtain ⟨opening, inner, closing, rfl, hopening, hclosing, hinner⟩ := exists_braces hbody
    apply (inner_of_isPlain (isPlain_of_map_word hhead (functionWords_isPlain name params))).append
    exact .block hopening hclosing (inner_wordsOfAll (fun s hs ts hts => ih s hs hts) hinner)

/-- Behind an `oppure` every statement is skipped: its first part as one branch, and what comes
behind an `oppure` of its own as further branches. -/
theorem skipped_of_wellFormed {inside : Bool} {s : Stmt} (h : s.WellFormed inside)
    (hkind : s.isDeclaration = false) (hts : ts.map Token.word = s.words) :
    ∃ first others, ts = first ++ others ∧ SkippedBranch first ∧ SkippedBranches others := by
  have hsimple {inside : Bool} {s : Stmt} {ts : List Token} (h : s.WellFormed inside)
      (hs : s.isSimple) (hts : ts.map Token.word = s.words) :
      ∃ first others, ts = first ++ others ∧ SkippedBranch first ∧ SkippedBranches others := by
    obtain ⟨init, last, rfl, hinit, hlast⟩ := exists_simple h hs hts
    exact ⟨init ++ [last], [], by simp, (skippedBranch_semicolon hlast).behind hinit, .nil⟩
  induction h generalizing ts with
  | @expr inside value h span =>
    have hwell : Stmt.WellFormed inside (.expr value span) := .expr h span
    exact hsimple hwell rfl hts
  | ret h span => exact hsimple (.ret h span) rfl hts
  | @block inside body h span ih =>
    have hproper := (Stmt.WellFormed.block h span).isProper
    obtain ⟨opening, inner, closing, rfl, hopening, hclosing, hinner⟩ := exists_braces hts
    have hinnerInner : Inner inner :=
      inner_wordsOfAll (fun s hs ts hts => inner_of_wellFormed (h s hs) hts) hinner
    have hnoEof : ∀ t ∈ inner, t.kind ≠ .eof := by
      intro t ht
      exact ne_eof_of_map_word hts hproper t (by simp [ht])
    exact ⟨_, [], by simp, skippedBranch_block hopening hclosing hinnerInner hnoEof, .nil⟩
  | @cond inside condition thenBranch elseBranch hcondition hthen hthenKind helse helseKind hclosed span
      ihthen ihelse =>
    rw [Stmt.words_cond] at hts
    obtain ⟨head, branches, rfl, hhead, hbranches⟩ := List.map_eq_append_iff.mp hts
    obtain ⟨first, others, rfl, hfirst, hothers⟩ := List.map_eq_append_iff.mp hbranches
    have hplain := isPlain_of_map_word hhead (headWords_isPlain rfl hcondition)
    obtain ⟨first, second, rfl, hskip, hskips⟩ := ihthen hthenKind hfirst
    refine ⟨head ++ first, second ++ others, by simp, hskip.behind hplain, ?_⟩
    apply hskips.append
    cases elseBranch with
    | none =>
      obtain rfl : others = [] := List.map_eq_nil_iff.mp hothers
      exact .nil
    | some s =>
      obtain ⟨sign, third, rfl, hsign, hthird⟩ := List.map_eq_cons_iff.mp hothers
      obtain ⟨third, fourth, rfl, hskip', hskips'⟩ := ihelse s rfl (helseKind s rfl) hthird
      apply SkippedBranches.cons _ hskip' hskips'
      rw [← Token.word_kind, hsign]
      rfl
  | loop hcondition hbody hbodyKind span ih =>
    rw [Stmt.words_loop] at hts
    obtain ⟨head, body, rfl, hhead, hbody⟩ := List.map_eq_append_iff.mp hts
    have hplain := isPlain_of_map_word hhead (headWords_isPlain rfl hcondition)
    obtain ⟨first, others, rfl, hskip, hskips⟩ := ih hbodyKind hbody
    exact ⟨head ++ first, others, by simp, hskip.behind hplain, hskips⟩
  | var | function => cases hkind

def ThroughSemicolon (ts : List Token) : Prop :=
  ∃ init last, ts = init ++ [last] ∧ (∀ t ∈ init, t.kind ≠ .semicolon) ∧ last.kind = .semicolon

theorem ThroughSemicolon.cons_cases (h : ThroughSemicolon (t :: ts)) :
    (ts = [] ∧ t.kind = .semicolon) ∨ (t.kind ≠ .semicolon ∧ ThroughSemicolon ts) := by
  obtain ⟨init, last, hts, hinit, hlast⟩ := h
  cases init with
  | nil =>
    obtain ⟨rfl, rfl⟩ := List.cons.inj hts
    exact .inl ⟨rfl, hlast⟩
  | cons t' init =>
    obtain ⟨rfl, rfl⟩ := List.cons.inj hts
    refine .inr ⟨hinit t List.mem_cons_self, init, last, rfl, ?_, hlast⟩
    intro t' ht'
    exact hinit t' (List.mem_cons_of_mem _ ht')

/-- Without a boundary on the way, the tokens through the `;` are passed. -/
theorem settled_eq_pastBranches (hp : p.rest = ts ++ more)
    (hts : ThroughSemicolon (p.previous :: ts)) (hkinds : ∀ t ∈ ts, t.kind ∉ boundaries) :
    ∃ q, p.settled = q.pastBranches ∧ Arrives p [] more q := by
  induction ts generalizing p with
  | nil =>
    rcases hts.cons_cases with ⟨-, hsemicolon⟩ | ⟨-, init, last, hnil, -⟩
    · exact ⟨p, settled_of_boundary (.inl hsemicolon), arrives_self hp⟩
    · simp at hnil
  | cons t ts ih =>
    rcases hts.cons_cases with ⟨hnil, -⟩ | ⟨hprevious, hts⟩
    · cases hnil
    have hcurrent : p.current = t := by rw [current, hp]; rfl
    have hkind : p.current.kind ∉ boundaries := by
      rw [hcurrent]
      exact hkinds t List.mem_cons_self
    have heof : t.kind ≠ .eof := by
      intro heof
      rw [hcurrent, heof] at hkind
      exact hkind (by decide)
    have hnext := arrives_next hp heof
    have hprevious' : p.next.previous = t := by rw [previous_next (hcurrent ▸ heof), hcurrent]
    obtain ⟨q, hq, harrives⟩ := ih hnext.rest_eq (hprevious' ▸ hts)
      fun t ht => hkinds t (List.mem_cons_of_mem _ ht)
    exact ⟨q, (settled_next hprevious hkind).trans hq, hnext.trans harrives⟩

/-- Given up at `p`, whatever was reported, reading resumes where `more` comes, behind the branches
that come there. -/
def ResumesAt (p : Parser) (more : List Token) : Prop :=
  ∀ errors, ∃ q, ({ p with errors } : Parser).synchronize = q.pastBranches ∧
    Arrives { p with errors } [] more q

theorem ResumesAt.past (h : ResumesAt p (ts ++ more)) (hts : SkippedBranches ts) : ResumesAt p more := by
  intro errors
  obtain ⟨q, hq, harrives⟩ := h errors
  obtain ⟨r, hr, harrives'⟩ := hts.pastBranches_eq harrives.rest_eq
  exact ⟨r, hq.trans hr, harrives.trans harrives'⟩

theorem ResumesAt.arrives (h : ResumesAt p more) (hmore : ∀ t ∈ more.head?, t.kind ≠ .oppure)
    (errors : Array CompileError) :
    Arrives { p with errors } [] more ({ p with errors } : Parser).synchronize := by
  obtain ⟨q, hq, harrives⟩ := h errors
  have hne : q.current.kind ≠ .oppure := by
    rw [current, harrives.rest_eq]
    cases more with
    | nil => simp
    | cons t more => exact hmore t rfl
  rw [hq, pastBranches_of_ne hne]
  exact harrives

end Parser
end Copione
