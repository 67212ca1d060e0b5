import Copione.Proofs.Balance
import Copione.Proofs.FlawedRuns
import Copione.Proofs.MalformedStatements
/-!
# Statements with a broken head

A condition or a list of parameters that cannot be read, and an `se` without its first branch. What
follows such a head is given up through the next `;`, but no further than to the next statement: if a
block follows, reading resumes inside of it.
-/
namespace Copione

open Copione.Bracket

def Stmt.isBlock : Stmt → Bool
  | .block .. => true
  | _ => false

/-- A `se` or a `mentre` whose condition cannot be read. -/
def BrokenHead (kind : TokenKind) (head : List Token) : Prop :=
  ∃ first opening inner closing, head = first :: opening :: (inner ++ [closing]) ∧ first.kind = kind ∧
    opening.kind = .leftParen ∧ (∀ t ∈ inner, t.kind.inExpr) ∧ closing.kind = .rightParen ∧
    ∀ e : Expr, e.WellFormed →
      ¬e.words ++ [.mark .rightParen] <+: inner.map Token.word ++ [.mark .rightParen]

/-- A function whose parameters cannot be read. -/
def BrokenFunctionHead (head : List Token) : Prop :=
  ∃ first name opening inner closing, head = first :: name :: opening :: (inner ++ [closing]) ∧
    first.kind = .funzione ∧ name.kind = .identifier ∧ opening.kind = .leftParen ∧
    (∀ t ∈ inner, t.kind.inExpr) ∧ closing.kind = .rightParen ∧
    ∀ params : List String, inner.map Token.word ≠ commas (params.map fun p => [.name p])

theorem BrokenHead.tail_inExpr {kind : TokenKind} {head : List Token} (h : BrokenHead kind head) :
    ∃ first rest, head = first :: rest ∧ first.kind = kind ∧ ∀ t ∈ rest, t.kind.inExpr := by
  obtain ⟨first, opening, inner, closing, rfl, hfirst, hopening, hinner, hclosing, -⟩ := h
  refine ⟨first, _, rfl, hfirst, ?_⟩
  simp only [List.mem_cons, List.mem_append, List.not_mem_nil, or_false]
  rintro t (rfl | ht | rfl)
  · rw [hopening]
    rfl
  · exact hinner t ht
  · rw [hclosing]
    rfl

theorem BrokenFunctionHead.tail_inExpr {head : List Token} (h : BrokenFunctionHead head) :
    ∃ first rest, head = first :: rest ∧ first.kind = .funzione ∧ ∀ t ∈ rest, t.kind.inExpr := by
  obtain ⟨first, name, opening, inner, closing, rfl, hfirst, hname, hopening, hinner, hclosing, -⟩ := h
  refine ⟨first, _, rfl, hfirst, ?_⟩
  simp only [List.mem_cons, List.mem_append, List.not_mem_nil, or_false]
  rintro t (rfl | rfl | ht | rfl)
  · rw [hname]
    rfl
  · rw [hopening]
    rfl
  · exact hinner t ht
  · rw [hclosing]
    rfl

/-- If a condition could be read through to behind the head, it would open a parenthesis there, or
close one that it did not open. -/
private theorem prefix_of_condition {c : Expr} (hc : c.WellFormed) {inner tail rest : List Word}
    (htail : parens.Balanced tail)
    (h : c.words ++ .mark .rightParen :: rest = inner ++ .mark .rightParen :: tail) :
    c.words ++ [.mark .rightParen] <+: inner ++ [.mark .rightParen] := by
  rcases List.append_eq_append_iff.mp h with ⟨w, hinner, hrest⟩ | ⟨w, hcondition, hrest⟩
  · cases w with
    | nil => exact ⟨[], by simp [hinner]⟩
    | cons w ws =>
      obtain ⟨rfl, -⟩ := List.cons.inj hrest
      exact ⟨ws ++ [.mark .rightParen], by simp [hinner]⟩
  · cases w with
    | nil => exact ⟨[], by simp [hcondition]⟩
    | cons w ws =>
      obtain ⟨rfl, hbehind⟩ := List.cons.inj hrest
      have hopened : 0 ≤ parens.balance (ws ++ [.mark .rightParen]) :=
        htail.nonneg (v := rest) (by simp [hbehind])
      have hclosed : 0 ≤ parens.balance (inner ++ [.mark .rightParen]) :=
        hc.parens_balanced.nonneg (v := ws) (by simp [hcondition])
      have htotal := hc.parens_balanced.balance_eq
      have hweight : parens.weight (.mark .rightParen) = -1 := parens.weight_closing
      simp only [hcondition, balance_append, balance_cons, balance_nil, hweight] at hopened hclosed htotal
      omega

namespace Parser

variable {α : Type} {p q start : Parser} {ts left more head tail : List Token} {t : Token} {fuel : Nat}
  {kind : TokenKind}

private theorem Within.split (h : Within ts more start p) (hstart : start.rest = ts ++ more)
    {ws : List Word}
    (hpassed : Passes start ws p) :
    ∃ passed left, passed ++ p.current :: left = ts ∧ passed.map Token.word = ws := by
  obtain ⟨passed, left, hsplit, hrest⟩ := h.rest_eq_cons
  obtain ⟨read, hread, -, hwhole, -⟩ := hpassed.passed
  refine ⟨passed, left, hsplit, ?_⟩
  rw [hstart, hrest, ← hsplit, List.append_assoc, List.cons_append] at hwhole
  rw [List.append_cancel_right hwhole, hread]

private theorem Closed.append (h : Closed tail) (htail : tail ≠ []) (head : List Token) :
    Closed (head ++ tail) := by
  intro t ht
  apply h t
  rwa [List.getLast?_append_of_ne_nil head htail] at ht

private theorem within_next (hp : p.rest = t :: ts ++ more) (hts : ts ≠ []) (ht : t.kind ≠ .eof) :
    Within (t :: ts) more p p.next := by
  rw [next_eq_of_cons hp ht]
  exact ⟨⟨[t], ts, rfl, hts, rfl⟩, rfl, rfl, rfl⟩

private theorem eq_of_append_cons_eq {passed : List Token} {last : Token}
    (h : passed ++ t :: left = head ++ [last]) (ht : t ∉ head) : passed = head := by
  rcases List.append_eq_append_iff.mp h with ⟨ws, rfl, hrest⟩ | ⟨ws, rfl, hrest⟩
  · cases ws with
    | nil => simp
    | cons w ws =>
      obtain ⟨rfl, -⟩ := List.cons.inj hrest
      exact absurd (by simp) ht
  · cases ws with
    | nil => simp
    | cons w ws => simp at hrest

private theorem brokenCondition_fails (h : BrokenHead kind head) (hkind : kind.isMark)
    (hbalanced : parens.Balanced (tail.map Token.word)) (hclosed : Closed (head ++ tail))
    (hstart : start.rest = head ++ tail ++ more) (hp : Within (head ++ tail) more start p)
    (hpassed : Passes start [.mark kind, .mark .leftParen] p) (hfuel : 2 * p.rest.length ≤ fuel)
    (what : String) (rest : Expr → Unit → Parse α) :
    FailsAt (head ++ tail) more start
      (expression fuel >>= fun c => discard (consume .rightParen what) >>= rest c) p := by
  apply (expression_stays hclosed fuel hp).bind_fails
  intro c q hrun hq
  obtain ⟨hread, hwell⟩ := expression_reads hfuel (Nat.le_refl _) hrun
  apply FailsAt.bind
  apply FailsAt.map
  apply failsAt_consume hq
  intro hparen
  obtain ⟨passed, left, hsplit, hwords⟩ := hq.split hstart (hpassed.trans hread)
  obtain ⟨first, opening, inner, closing, rfl, hfirst, hopening, -, hclosing, hunread⟩ := h
  have hsay := congrArg (List.map Token.word) hsplit
  simp only [List.map_append, List.map_cons, hwords, Token.word_of_mark hfirst hkind,
    Token.word_of_mark hopening rfl, Token.word_of_mark hclosing rfl, Token.word_of_mark hparen rfl,
    List.cons_append, List.nil_append, List.append_assoc, List.cons.injEq, true_and] at hsay
  exact hunread c hwell (prefix_of_condition hwell hbalanced hsay)

theorem brokenStatement_fails (h : BrokenHead kind head) (hkind : kind ∈ [.se, .mentre])
    (hbalanced : parens.Balanced (tail.map Token.word)) (hclosed : Closed tail) (htail : tail ≠ [])
    (hp : p.rest = head ++ tail ++ more) (hfuel : 2 * p.rest.length + 1 ≤ fuel) :
    FailsAt (head ++ tail) more p (statement fuel) p := by
  obtain ⟨fuel, rfl⟩ : ∃ k, fuel = k + 1 := ⟨fuel - 1, by omega⟩
  have hmark : kind.isMark := by
    simp only [List.mem_cons, List.not_mem_nil, or_false] at hkind
    rcases hkind with rfl | rfl <;> rfl
  have hcl := hclosed.append htail head
  obtain ⟨first, rest, hhead, hfirst, -⟩ := h.tail_inExpr
  have hcurrent : p.current.kind = kind := by rw [current, hp, hhead]; exact hfirst
  have hadvance := advance_of_mark hcurrent hmark
  have hpassed := passes_mark hcurrent hmark
  have hwithin : Within (head ++ tail) more p p.next := by
    subst hhead
    apply within_next hp (by simp [htail])
    rw [hfirst]
    exact ne_eof_of_isMark hmark
  have hbehind {q : Parser} (hopen : Passes p.next [.mark .leftParen] q) : 2 * q.rest.length ≤ fuel := by
    have hlength := hpassed.length_le
    have hlength' := hopen.length_le
    omega
  simp only [List.mem_cons, List.not_mem_nil, or_false] at hkind
  rcases hkind with rfl | rfl
  · have hfails : FailsAt (head ++ tail) more p (ifStatement (expression fuel) (statement fuel)) p := by
      apply FailsAt.behind _ hadvance
      apply ((stays_consume hcl rfl _).discard hwithin).bind_fails
      intro _ q hopen hq
      have hparen := passes_of_consume hopen rfl
      exact brokenCondition_fails h hmark hbalanced hcl hp hq (hpassed.trans hparen) (hbehind hparen) _ _
    apply hfails.of_eq
    rw [statement, Run.bind_of_ok (peekKind_apply p), hcurrent]
  · have hfails : FailsAt (head ++ tail) more p (whileStatement (expression fuel) (statement fuel)) p := by
      apply FailsAt.behind _ hadvance
      apply ((stays_consume hcl rfl _).discard hwithin).bind_fails
      intro _ q hopen hq
      have hparen := passes_of_consume hopen rfl
      apply FailsAt.behind _ (check_apply _ q)
      split
      · exact FailsAt.behind ((failsAt_current hq _).bind _) Run.get_apply
      · exact brokenCondition_fails h hmark hbalanced hcl hp hq (hpassed.trans hparen)
          (hbehind hparen) _ _
    apply hfails.of_eq
    rw [statement, Run.bind_of_ok (peekKind_apply p), hcurrent]

theorem brokenFunction_fails (h : BrokenFunctionHead head) {opening : Token}
    (hopening : opening.kind = .leftBrace) (hp : p.rest = head ++ [opening] ++ more)
    (hfuel : p.rest.length < fuel) (decl : Parse Stmt) :
    FailsAt (head ++ [opening]) more p (functionDeclaration fuel decl) p := by
  have hclosed : Closed (head ++ [opening]) := closed_append_singleton (by rw [hopening]; rfl) head
  obtain ⟨first, rest, hhead, hfirst, hrest⟩ := h.tail_inExpr
  have hcurrent : p.current.kind = .funzione := by rw [current, hp, hhead]; exact hfirst
  have hwithin : Within (head ++ [opening]) more p p.next := by
    subst hhead
    exact within_next hp (by simp) (by simp [hfirst])
  have hfirstPassed := passes_mark hcurrent rfl
  apply FailsAt.behind _ (advance_of_mark hcurrent rfl)
  apply (stays_expectName hclosed _ hwithin).bind_fails
  intro name p₁ hname hp₁
  apply ((stays_consume hclosed rfl _).discard hp₁).bind_fails
  intro _ p₂ hopen hp₂
  apply (listed_stays hclosed (stays_expectName hclosed _) fuel hp₂).bind_fails
  intro params p₃ hparams hp₃
  apply ((stays_consume hclosed rfl _).discard hp₃).bind_fails
  intro _ p₄ hclose hp₄
  have hbegin := (hfirstPassed.trans (passes_of_expectName hname)).trans (passes_of_consume hopen rfl)
  have hparam : Reads p.rest.length (expectName "parameter name") (fun name => [.name name])
      fun _ => True :=
    fun _ _ _ _ h => ⟨passes_of_expectName h, trivial⟩
  obtain ⟨hlist, -⟩ := listed_reads hparam hfuel hbegin.length_le hparams
  have hread := (hbegin.trans hlist).trans (passes_of_consume hclose rfl)
  apply FailsAt.bind
  apply FailsAt.map
  apply failsAt_consume hp₄
  intro hbrace
  obtain ⟨passed, left, hsplit, hwords⟩ := hp₄.split hp hread
  -- The brace is none of the head's tokens, so all of them were read.
  have hnotMem : p₄.current ∉ head := by
    rw [hhead, List.mem_cons, not_or]
    refine ⟨fun heq => ?_, fun hmem => ?_⟩
    · rw [← heq, hbrace] at hfirst
      cases hfirst
    · have hinExpr := hrest _ hmem
      rw [hbrace] at hinExpr
      cases hinExpr
  have hpassed := eq_of_append_cons_eq hsplit hnotMem
  obtain ⟨first, name', opening', inner, closing, rfl, -, hname', hopening', -, hclosing, hunread⟩ := h
  subst hpassed
  apply hunread params
  simp only [List.map_append, List.map_cons, List.map_nil, Token.word_of_mark hopening' rfl,
    Token.word_of_mark hclosing rfl, List.cons_append, List.nil_append, List.cons.injEq,
    true_and] at hwords
  exact List.append_cancel_right hwords.2.2

theorem statement_fails_at_oppure {sign : Token} (hsign : sign.kind = .oppure)
    (hp : p.rest = [sign] ++ more) (hfuel : 2 * p.rest.length + 1 ≤ fuel) :
    FailsAt [sign] more p (statement fuel) p := by
  obtain ⟨fuel, rfl⟩ : ∃ k, fuel = k + 1 := ⟨fuel - 1, by omega⟩
  have hcurrent : p.current = sign := by rw [current, hp]; rfl
  have hclosed : Closed [sign] := closed_append_singleton (by rw [hsign]; rfl) []
  have hfails : FailsAt [sign] more p (expressionStatement (expression fuel)) p := by
    apply (expression_stays hclosed fuel (within_start hp (List.cons_ne_nil _ _))).bind_fails
    intro e q hrun hq
    -- An expression would have passed the `oppure`.
    obtain ⟨hread, -⟩ := expression_reads (by omega) (Nat.le_refl _) hrun
    obtain ⟨w, ws, hwords, hw⟩ := e.words_eq_cons
    have hahead := hread.ahead_eq
    rw [hwords] at hahead
    have hkind := current_kind hahead
    rw [hcurrent, hsign] at hkind
    rw [← hkind] at hw
    cases hw
  apply hfails.of_eq
  rw [statement, Run.bind_of_ok (peekKind_apply p), hcurrent, hsign]

def Settles (ts left : List Token) : Prop :=
  ∀ ⦃p : Parser⦄ ⦃more : List Token⦄, p.rest = ts ++ more → p.previous.kind ≠ .semicolon →
    ∃ q, p.settled = q.pastBranches ∧ Arrives p [] (left ++ more) q

private theorem Settles.append (h : Settles ts left) (ts' : List Token) : Settles (ts ++ ts')
    (left ++ ts') := by
  intro p more hp hprevious
  rw [List.append_assoc] at hp ⊢
  exact h hp hprevious

def Passable (t : Token) : Prop := t.kind ∉ boundaries ∧ t.kind ≠ .semicolon

theorem passable_of_inExpr (h : t.kind.inExpr) : Passable t := by
  unfold Passable
  generalize t.kind = kind at h
  cases kind <;> first | decide | cases h

private theorem Settles.behind (h : Settles ts left) (hhead : ∀ t ∈ head, Passable t) :
    Settles (head ++ ts) left := by
  induction head with
  | nil => exact h
  | cons t head ih =>
    intro p more hp hprevious
    obtain ⟨hkind, hsemicolon⟩ := hhead t List.mem_cons_self
    have hcurrent : p.current = t := by rw [current, hp]; rfl
    have heof : t.kind ≠ .eof := by
      intro heof
      rw [heof] at hkind
      exact hkind (by decide)
    have hnext := arrives_next hp heof
    have hprevious' : p.next.previous.kind ≠ .semicolon := by
      rwa [previous_next (by rwa [hcurrent]), hcurrent]
    obtain ⟨q, hq, harrives⟩ :=
      ih (fun t ht => hhead t (List.mem_cons_of_mem _ ht)) hnext.rest_eq hprevious'
    refine ⟨q, ?_, hnext.trans harrives⟩
    rw [settled_next hprevious (by rwa [hcurrent]), hq]

private theorem settles_of_boundary (ht : t.kind ∈ boundaries) (ts : List Token) :
    Settles (t :: ts) (t :: ts) := by
  intro p more hp _
  have hcurrent : p.current = t := by rw [current, hp]; rfl
  exact ⟨p, settled_of_boundary (.inr (by rwa [hcurrent])), arrives_self hp⟩

private theorem settles_semicolon (ht : t.kind = .semicolon) : Settles [t] [] := by
  intro p more hp hprevious
  have hcurrent : p.current = t := by rw [current, hp]; rfl
  have hnext := arrives_next hp (by simp [ht])
  have hprevious' : p.next.previous.kind = .semicolon := by
    rw [previous_next (by simp [hcurrent, ht]), hcurrent, ht]
  refine ⟨p.next, ?_, hnext⟩
  rw [settled_next hprevious (by rw [hcurrent, ht]; decide)]
  exact settled_of_boundary (.inl hprevious')

/-- Given up at a token, reading resumes at the next boundary behind it. -/
theorem Settles.resumesAt (h : Settles ts left) (hp : p.rest = t :: (ts ++ more))
    (ht : t.kind ∉ [.rightBrace, .eof, .semicolon]) : ResumesAt p (left ++ more) := by
  intro errors
  simp only [List.mem_cons, List.not_mem_nil, or_false, not_or] at ht
  obtain ⟨hbrace, heof, hsemicolon⟩ := ht
  have hcurrent : p.current = t := by rw [current, hp]; rfl
  let reported : Parser := { p with errors }
  have hnext : Arrives reported [] (ts ++ more) reported.next := arrives_next hp heof
  have hreported : reported.current = t := hcurrent
  have hprevious : reported.next.previous = t := by
    rw [previous_next (by rwa [hreported]), hreported]
  obtain ⟨q, hq, harrives⟩ := h hnext.rest_eq (by rwa [hprevious])
  refine ⟨q, ?_, hnext.trans harrives⟩
  rw [← hq, synchronize_eq, if_neg]
  rintro ⟨-, hkind⟩
  exact hbrace (by rwa [← hcurrent])

/-- In a statement that was given up before it began, reading resumes at the tokens that are left:
none or all of them, unless the statement is a block. In a block it resumes inside, so that more is
closed by them than opened. -/
structure Landing (isBlock : Bool) (ts left : List Token) : Prop where
  settles : Settles ts left
  suffix : left <:+ ts
  noBranch : NoBranch left
  whole : isBlock = false → left = [] ∨ left = ts
  closes : isBlock = true → braces.balance (left.map Token.word) < 0

theorem exists_settles_body {inside : Bool} {ss : List Stmt} (hss : ∀ s ∈ ss, s.WellFormed inside)
    (h : ∀ s ∈ ss, ∀ ts : List Token, ts.map Token.word = s.words → ∃ left, Landing s.isBlock ts left)
    (hts : ts.map Token.word = Stmt.wordsOfAll ss) {closing : Token}
    (hclosing : closing.kind = .rightBrace) :
    ∃ left, Settles (ts ++ [closing]) left ∧ left <:+ ts ++ [closing] ∧ NoBranch left ∧
      braces.balance (left.map Token.word) < 0 := by
  have hnoBranch : NoBranch [closing] := by simp [NoBranch, hclosing]
  have hword := Token.word_of_mark hclosing rfl
  have hweight : braces.weight (.mark .rightBrace) = -1 := braces.weight_closing
  cases ss with
  | nil =>
    obtain rfl : ts = [] := List.map_eq_nil_iff.mp hts
    refine ⟨[closing], settles_of_boundary (by rw [hclosing]; decide) [], List.suffix_rfl, hnoBranch, ?_⟩
    simp [hword, hweight]
  | cons s ss =>
    obtain ⟨first, others, rfl, hfirst, hothers⟩ := List.map_eq_append_iff.mp hts
    obtain ⟨left, hleft⟩ := h s List.mem_cons_self first hfirst
    obtain ⟨passed, rfl⟩ := hleft.suffix
    have hnonpos : braces.balance (left.map Token.word) ≤ 0 := by
      apply (hss s List.mem_cons_self).braces_balanced.suffix_nonpos
      rw [← hfirst, List.map_append]
    have hzero : braces.balance (others.map Token.word) = 0 := by
      rw [hothers]
      exact (wordsOfAll_balanced fun s hs => hss s (List.mem_cons_of_mem _ hs)).balance_eq
    refine ⟨left ++ (others ++ [closing]), ?_, ?_, ?_, ?_⟩
    · rw [List.append_assoc]
      exact hleft.settles.append _
    · exact ⟨passed, by simp⟩
    · exact hleft.noBranch.append ((begins_of_wordsOfAll hothers).noBranch_self.append hnoBranch)
    · simp only [List.map_append, List.map_cons, List.map_nil, balance_append, balance_cons, balance_nil,
        hword, hweight, hzero]
      omega

private theorem landing_of_keyword {s : Stmt} {ws : List Word} (hts : ts.map Token.word = s.words)
    (hwords : s.words = .mark kind :: ws) (hkind : kind ∈ boundaries) (hblock : s.isBlock = false) :
    ∃ left, Landing s.isBlock ts left := by
  have hnoBranch : NoBranch ts := by simpa using (begins_append (begins_of_words hts) []).noBranch_self
  rw [hwords] at hts
  obtain ⟨t, rest, rfl, ht, -⟩ := List.map_eq_cons_iff.mp hts
  have hboundary : t.kind ∈ boundaries := by
    rw [← Token.word_kind, ht]
    exact hkind
  refine ⟨t :: rest, settles_of_boundary hboundary rest, List.suffix_rfl, hnoBranch, fun _ => .inr rfl, ?_⟩
  simp [hblock]

theorem exists_landing {inside : Bool} {s : Stmt} (h : s.WellFormed inside)
    (hts : ts.map Token.word = s.words) : ∃ left, Landing s.isBlock ts left := by
  induction h generalizing ts with
  | @expr inside value h span =>
    rw [Stmt.words] at hts
    obtain ⟨init, last, rfl, hinit, hlast⟩ := List.map_eq_append_iff.mp hts
    obtain ⟨last, rfl, hsemicolon⟩ := List.map_eq_singleton_iff.mp hlast
    have hkind : last.kind = .semicolon := by
      rw [← Token.word_kind, hsemicolon]
      rfl
    refine ⟨[], (settles_semicolon hkind).behind ?_, List.nil_suffix, by simp [NoBranch],
      fun _ => .inl rfl, by simp [Stmt.isBlock]⟩
    intro t ht
    exact passable_of_inExpr (inExpr_of_map_word hinit h.words_inExpr t ht)
  | @block inside body h span ih =>
    rw [Stmt.words] at hts
    obtain ⟨opening, inner, closing, rfl, hopening, hclosing, hinner⟩ := exists_braces hts
    obtain ⟨left, hsettles, hsuffix, hnoBranch, hcloses⟩ :=
      exists_settles_body h (fun s hs ts hts => ih s hs hts) hinner hclosing
    have hpassable : ∀ t ∈ [opening], Passable t := by
      simp only [List.mem_singleton, forall_eq, Passable, hopening]
      decide
    exact ⟨left, hsettles.behind hpassable, hsuffix.trans (List.suffix_cons _ _), hnoBranch,
      by simp [Stmt.isBlock], fun _ => hcloses⟩
  | var h name span => exact landing_of_keyword hts (by rw [Stmt.words]; rfl) (by decide) rfl
  | cond => exact landing_of_keyword hts (by rw [Stmt.words]; rfl) (by decide) rfl
  | loop => exact landing_of_keyword hts (by rw [Stmt.words]; rfl) (by decide) rfl
  | function => exact landing_of_keyword hts (by rw [Stmt.words]; rfl) (by decide) rfl
  | ret => exact landing_of_keyword hts (by rw [Stmt.words]; rfl) (by decide) rfl

/-- Given up in a head that a block follows, reading resumes inside of the block. -/
theorem resumesAt_of_head {first opening closing : Token} {rest inner : List Token}
    (hrest : ∀ t ∈ rest, t.kind.inExpr) (hfirst : first.kind ∉ [.rightBrace, .eof, .semicolon])
    (hopening : opening.kind = .leftBrace) (hsettles : Settles (inner ++ [closing]) left)
    (h : Within (first :: rest ++ [opening]) (inner ++ [closing] ++ more) start p) :
    ResumesAt p (left ++ more) := by
  obtain ⟨passed, behind, hsplit, hplace⟩ := h.rest_eq_cons
  have hpassable : ∀ t ∈ rest ++ [opening], Passable t := by
    intro t ht
    rcases List.mem_append.mp ht with ht | ht
    · exact passable_of_inExpr (hrest t ht)
    · obtain rfl := List.mem_singleton.mp ht
      simp only [Passable, hopening]
      decide
  rw [← List.append_assoc behind] at hplace
  apply (hsettles.behind _).resumesAt hplace
  · have hmem := h.current_mem
    rw [List.cons_append, List.mem_cons] at hmem
    rcases hmem with hmem | hmem
    · rwa [hmem]
    · obtain ⟨hkind, hsemicolon⟩ := hpassable _ hmem
      intro hbad
      simp only [List.mem_cons, List.not_mem_nil, or_false] at hbad
      rcases hbad with hbad | hbad | hbad
      · exact hkind (by rw [hbad]; decide)
      · exact hkind (by rw [hbad]; decide)
      · exact hsemicolon hbad
  · intro t ht
    exact hpassable t (mem_tail_of_split hsplit ht)

end Parser

end Copione
