import Copione.Proofs.ParserSoundness
import Copione.Proofs.Recovery
/-!
# Malformed simple statements

Tokens through one `;` that are no statement where they stand. They are given up at one of them, which
is reported, and reading resumes right behind the `;`.
-/
namespace Copione

def TokenKind.isKeyword : TokenKind → Bool
  | .se | .oppure | .mentre | .variabile | .funzione | .ritorna => true
  | _ => false

/-- Tokens that are no statement, inside of a function or not, and among declarations or as a
branch. A `;` ends them, and nothing before it ends, opens or closes anything. -/
structure Malformed (inside branch : Bool) (m : List Token) : Prop where
  ends : ∃ init last, m = init ++ [last] ∧ (∀ t ∈ init, t.kind.isPlain) ∧ last.kind = .semicolon
  begins : ∀ t ∈ m.head?, t.kind ≠ .oppure
  keywords : ∀ t ∈ m.tail, t.kind.isKeyword = false
  unread : ∀ s : Stmt, s.WellFormed inside → (branch → s.isDeclaration = false) →
    s.words ≠ m.map Token.word

namespace Parser

def FailsAt {α : Type} (ts more : List Token) (start : Parser) (x : Parse α) (p : Parser) : Prop :=
  ∃ e q, x p = .error e q ∧ Within ts more start q ∧ e.Blames ts

section

variable {α β : Type} {ts more : List Token} {start p q : Parser} {x : Parse α} {f : α → Parse β}

theorem FailsAt.bind (h : FailsAt ts more start x p) (f : α → Parse β) :
    FailsAt ts more start (x >>= f) p := by
  obtain ⟨e, q, hx, hq, he⟩ := h
  exact ⟨e, q, Run.bind_of_error hx, hq, he⟩

theorem FailsAt.map (h : FailsAt ts more start x p) (g : α → β) :
    FailsAt ts more start (g <$> x) p := by
  obtain ⟨e, q, hx, hq, he⟩ := h
  exact ⟨e, q, Run.map_of_error hx, hq, he⟩

theorem FailsAt.of_eq {y : Parse α} (h : FailsAt ts more start y p) (hx : x p = y p) :
    FailsAt ts more start x p := by
  obtain ⟨e, q, hy, hq, he⟩ := h
  exact ⟨e, q, hx.trans hy, hq, he⟩

theorem FailsAt.behind {a : α} (h : FailsAt ts more start (f a) q) (hx : x p = .ok a q) :
    FailsAt ts more start (x >>= f) p := by
  obtain ⟨e, r, hf, hr, he⟩ := h
  exact ⟨e, r, (Run.bind_of_ok hx).trans hf, hr, he⟩

theorem StaysAt.bind_fails (hx : StaysAt ts more start x p)
    (hf : ∀ a q, x p = .ok a q → Within ts more start q → FailsAt ts more start (f a) q) :
    FailsAt ts more start (x >>= f) p := by
  cases hrun : x p with
  | ok a q =>
    obtain ⟨e, r, hfa, hr, he⟩ := hf a q hrun (hx.of_ok hrun)
    exact ⟨e, r, by rw [Run.bind_of_ok hrun, hfa], hr, he⟩
  | error e q =>
    obtain ⟨hq, he⟩ := hx.of_error hrun
    exact ⟨e, q, Run.bind_of_error hrun, hq, he⟩

theorem failsAt_current (hp : Within ts more start p) (fault : ParseFault) :
    FailsAt ts more start (failAt p.current fault : Parse α) p :=
  ⟨_, p, rfl, hp, p.current, hp.current_mem, fault, rfl⟩

theorem failsAt_consume (hp : Within ts more start p) {kind : TokenKind} (hkind : p.current.kind ≠ kind)
    (what : String) : FailsAt ts more start (consume kind what) p :=
  ⟨_, p, by rw [consume_apply, if_neg hkind], hp, p.current, hp.current_mem, _, rfl⟩

private theorem ThroughSemicolon.closed (h : ThroughSemicolon ts) : Closed ts := by
  obtain ⟨init, last, rfl, -, hlast⟩ := h
  exact closed_append_singleton (by rw [hlast]; rfl) init

private theorem ThroughSemicolon.suffix {passed left : List Token}
    (h : ThroughSemicolon (passed ++ left))
    (hleft : left ≠ []) : ThroughSemicolon left := by
  induction passed with
  | nil => exact h
  | cons t passed ih =>
    rcases h.cons_cases with ⟨hnil, -⟩ | ⟨-, h⟩
    · exact absurd (List.append_eq_nil_iff.mp hnil).2 hleft
    · exact ih h

private theorem Within.next_of_ne (h : Within ts more start p) (hts : ThroughSemicolon ts)
    (hsemicolon : p.current.kind ≠ .semicolon) (heof : p.current.kind ≠ .eof) :
    Within ts more start p.next := by
  obtain ⟨passed, left, rfl, hrest⟩ := h.rest_eq_cons
  rw [next_eq_of_cons hrest heof]
  refine ⟨⟨passed ++ [p.current], left, by simp, ?_, rfl⟩, h.errors_eq, h.functionDepth_eq,
    h.blockDepth_eq⟩
  rcases (hts.suffix (List.cons_ne_nil _ _)).cons_cases with ⟨-, hkind⟩ | ⟨-, hleft⟩
  · exact absurd hkind hsemicolon
  · rintro rfl
    obtain ⟨init, last, hnil, -⟩ := hleft
    simp at hnil

private theorem Within.words_eq (h : Within ts more start p) (hts : ThroughSemicolon ts)
    (hstart : start.rest = ts ++ more) {ws : List Word} (hpassed : Passes start ws p)
    (hkind : p.current.kind = .semicolon) : ts.map Token.word = ws ++ [.mark .semicolon] := by
  obtain ⟨passed, left, hsplit, hrest⟩ := h.rest_eq_cons
  have hleft : left = [] := by
    rcases ((hsplit ▸ hts).suffix (List.cons_ne_nil _ _)).cons_cases with ⟨hnil, -⟩ | ⟨hne, -⟩
    · exact hnil
    · exact absurd hkind hne
  subst hleft
  obtain ⟨read, rfl, -, hread, -⟩ := hpassed.passed
  rw [hstart, hrest, List.nil_append, ← List.singleton_append, ← List.append_assoc] at hread
  rw [List.append_cancel_right hread, List.map_append, List.map_singleton,
    Token.word_of_mark hkind rfl]

theorem mem_tail_of_split {passed left : List Token} {t s : Token} (h : passed ++ t :: left = ts)
    (hs : s ∈ left) : s ∈ ts.tail := by
  subst h
  cases passed with
  | nil => exact hs
  | cons first passed => simp [hs]

/-- Without a boundary behind the first of the tokens, reading resumes behind their `;`. -/
theorem Within.resumesAt (h : Within ts more start p) (hts : ThroughSemicolon ts)
    (hkinds : ∀ t ∈ ts.tail, t.kind ∉ boundaries) (hbrace : p.current.kind ≠ .rightBrace)
    (heof : p.current.kind ≠ .eof) : ResumesAt p more := by
  intro errors
  obtain ⟨passed, left, hsplit, hrest⟩ := h.rest_eq_cons
  let reported : Parser := { p with errors }
  have hnext : Arrives reported [] (left ++ more) reported.next := arrives_next hrest heof
  have hprevious : reported.next.previous = p.current := previous_next heof
  have hthrough : ThroughSemicolon (reported.next.previous :: left) := by
    rw [hprevious]
    exact (hsplit ▸ hts).suffix (List.cons_ne_nil _ _)
  obtain ⟨q, hq, harrives⟩ := settled_eq_pastBranches hnext.rest_eq hthrough
    fun t ht => hkinds t (mem_tail_of_split hsplit ht)
  refine ⟨q, ?_, hnext.trans harrives⟩
  rw [← hq, synchronize_eq, if_neg]
  rintro ⟨-, hkind⟩
  exact hbrace hkind

private theorem failsAt_semicolon (hp : Within ts more start p) (hts : ThroughSemicolon ts)
    (hstart : start.rest = ts ++ more) {ws : List Word} (hpassed : Passes start ws p)
    (hunread : ts.map Token.word ≠ ws ++ [.mark .semicolon]) (what : String) :
    FailsAt ts more start (consume .semicolon what) p := by
  apply failsAt_consume hp
  intro hkind
  exact hunread (hp.words_eq hts hstart hpassed hkind)

end

end Parser

namespace Malformed

open Copione.Parser

variable {inside branch : Bool} {m more : List Token} {p q : Parser} {fuel : Nat}

private theorem through (h : Malformed inside branch m) : ThroughSemicolon m := by
  obtain ⟨init, last, rfl, hinit, hlast⟩ := h.ends
  refine ⟨init, last, rfl, ?_, hlast⟩
  intro t ht hsemicolon
  have hplain := hinit t ht
  rw [hsemicolon] at hplain
  cases hplain

theorem ne_nil (h : Malformed inside branch m) : m ≠ [] := by
  obtain ⟨init, last, rfl, -⟩ := h.ends
  simp

private theorem kind_cases (h : Malformed inside branch m) {t : Token} (ht : t ∈ m) :
    t.kind.isPlain ∨ t.kind = .semicolon := by
  obtain ⟨init, last, rfl, hinit, hlast⟩ := h.ends
  rcases List.mem_append.mp ht with ht | ht
  · exact .inl (hinit t ht)
  · obtain rfl := List.mem_singleton.mp ht
    exact .inr hlast

private theorem kind_ne (h : Malformed inside branch m) {t : Token} (ht : t ∈ m) {kind : TokenKind}
    (hplain : kind.isPlain = false) (hkind : kind ≠ .semicolon) : t.kind ≠ kind := by
  rintro rfl
  rcases h.kind_cases ht with hcase | hcase
  · simp [hcase] at hplain
  · exact hkind hcase

theorem kind_ne_rightBrace (h : Malformed inside branch m) {t : Token} (ht : t ∈ m) :
    t.kind ≠ .rightBrace := h.kind_ne ht rfl (by decide)

private theorem kind_ne_leftBrace (h : Malformed inside branch m) {t : Token} (ht : t ∈ m) :
    t.kind ≠ .leftBrace := h.kind_ne ht rfl (by decide)

theorem kind_ne_eof (h : Malformed inside branch m) {t : Token} (ht : t ∈ m) : t.kind ≠ .eof :=
  h.kind_ne ht rfl (by decide)

private theorem kind_notMem_boundaries (h : Malformed inside branch m) {t : Token} (ht : t ∈ m.tail) :
    t.kind ∉ boundaries := by
  have hkeyword := h.keywords t ht
  have hbrace := h.kind_ne_rightBrace (List.mem_of_mem_tail ht)
  have heof := h.kind_ne_eof (List.mem_of_mem_tail ht)
  generalize t.kind = kind at hkeyword hbrace heof ⊢
  cases kind <;> simp_all [boundaries, TokenKind.isKeyword]

/-- Wherever in the tokens the parser gives up, it resumes behind them. -/
theorem resumesAt (h : Malformed inside branch m) {start : Parser} (hp : Within m more start p) :
    ResumesAt p more := by
  apply hp.resumesAt h.through
  · intro t ht
    exact h.kind_notMem_boundaries ht
  · exact h.kind_ne_rightBrace hp.current_mem
  · exact h.kind_ne_eof hp.current_mem

private theorem kind_of_within {start : Parser} (h : Malformed inside branch m)
    (hstart : start.rest = m ++ more) (hp : Within m more start p) {w : Word} {ws : List Word}
    (hpassed : Passes start (w :: ws) p) : p.current.kind.isKeyword = false := by
  obtain ⟨passed, left, hsplit, hrest⟩ := hp.rest_eq_cons
  obtain ⟨read, hread, -, hwhole, -⟩ := hpassed.passed
  have hpassed : read = passed := by
    rw [hstart, hrest, ← hsplit, List.append_assoc, List.cons_append] at hwhole
    exact (List.append_cancel_right hwhole).symm
  apply h.keywords
  rw [← hsplit, ← hpassed]
  cases read with
  | nil => simp at hread
  | cons t read => simp

private theorem expressionStatement_fails {start : Parser} (h : Malformed inside branch m)
    (hstart : start.rest = m ++ more) (hp : Within m more start p) {ws : List Word}
    (hpassed : Passes start ws p) (hfuel : 2 * p.rest.length ≤ fuel)
    (hunread : ∀ e : Expr, e.WellFormed → m.map Token.word ≠ ws ++ e.words ++ [.mark .semicolon]) :
    FailsAt m more start (expressionStatement (expression fuel)) p := by
  apply (expression_stays h.through.closed fuel hp).bind_fails
  intro e q hrun hq
  obtain ⟨hread, hwell⟩ := expression_reads hfuel (Nat.le_refl _) hrun
  exact ((failsAt_semicolon hq h.through hstart (hpassed.trans hread) (hunread e hwell) _).map _).bind _

private theorem statement_eq_expressionStatement (hkeyword : p.current.kind.isKeyword = false)
    (hbrace : p.current.kind ≠ .leftBrace) :
    statement (fuel + 1) p = expressionStatement (expression fuel) p := by
  rw [statement, Run.bind_of_ok (peekKind_apply p)]
  generalize p.current.kind = kind at hkeyword hbrace
  cases kind <;> first | rfl | exact absurd rfl hbrace | cases hkeyword

private theorem condition_fails {start : Parser} (h : Malformed inside branch m)
    (hstart : start.rest = m ++ more) (hp : Within m more start p) {kind : TokenKind}
    (hpassed : Passes start [.mark kind, .mark .leftParen] p) (hfuel : 2 * start.rest.length ≤ fuel)
    (hunread : ∀ c e : Expr, c.WellFormed → e.WellFormed →
      m.map Token.word ≠ headWords kind c ++ e.words ++ [.mark .semicolon])
    (what : String) (rest : Expr → Stmt → Parse Stmt) :
    FailsAt m more start (expression fuel >>= fun c => discard (consume .rightParen what) >>= fun _ =>
      statement fuel >>= rest c) p := by
  have hlength := hpassed.length_lt
  apply (expression_stays h.through.closed fuel hp).bind_fails
  intro c q hrun hq
  obtain ⟨hread, hwell⟩ := expression_reads (n := p.rest.length) (by omega) (Nat.le_refl _) hrun
  apply ((stays_consume h.through.closed rfl what).discard hq).bind_fails
  intro _ r hclose hr
  have hhead := (hpassed.trans hread).trans (passes_of_consume hclose rfl)
  have hlength' := hhead.length_lt
  obtain ⟨fuel, rfl⟩ : ∃ k, fuel = k + 1 := ⟨fuel - 1, by omega⟩
  apply FailsAt.bind
  have hstatement : FailsAt m more start (expressionStatement (expression fuel)) r :=
    h.expressionStatement_fails hstart hr hhead (by omega) (fun e he => hunread c e hwell he)
  apply hstatement.of_eq
  exact statement_eq_expressionStatement (h.kind_of_within hstart hr hhead)
    (h.kind_ne_leftBrace hr.current_mem)

private theorem first_passed (h : Malformed inside branch m) (hp : p.rest = m ++ more)
    {kind : TokenKind} (hkind : p.current.kind = kind) (hmark : kind.isMark) (hplain : kind.isPlain) :
    advance p = .ok p.current p.next ∧ Within m more p p.next ∧ Passes p [.mark kind] p.next := by
  refine ⟨advance_of_mark hkind hmark, ?_, passes_mark hkind hmark⟩
  apply (within_start hp h.ne_nil).next_of_ne h.through
  · rintro hsemicolon
    rw [← hkind, hsemicolon] at hplain
    cases hplain
  · rw [hkind]
    exact ne_eof_of_isMark hmark

private theorem ifStatement_fails (h : Malformed inside branch m) (hp : p.rest = m ++ more)
    (hkind : p.current.kind = .se) (hfuel : 2 * p.rest.length ≤ fuel)
    (hunread : ∀ c e : Expr, c.WellFormed → e.WellFormed →
      m.map Token.word ≠ headWords .se c ++ e.words ++ [.mark .semicolon]) :
    FailsAt m more p (ifStatement (expression fuel) (statement fuel)) p := by
  obtain ⟨hadvance, hwithin, hpassed⟩ := h.first_passed hp hkind rfl rfl
  apply FailsAt.behind _ hadvance
  apply ((stays_consume h.through.closed rfl _).discard hwithin).bind_fails
  intro _ q hopen hq
  exact h.condition_fails hp hq (hpassed.trans (passes_of_consume hopen rfl)) hfuel hunread _ _

private theorem whileStatement_fails (h : Malformed inside branch m) (hp : p.rest = m ++ more)
    (hkind : p.current.kind = .mentre) (hfuel : 2 * p.rest.length ≤ fuel)
    (hunread : ∀ c e : Expr, c.WellFormed → e.WellFormed →
      m.map Token.word ≠ headWords .mentre c ++ e.words ++ [.mark .semicolon]) :
    FailsAt m more p (whileStatement (expression fuel) (statement fuel)) p := by
  obtain ⟨hadvance, hwithin, hpassed⟩ := h.first_passed hp hkind rfl rfl
  apply FailsAt.behind _ hadvance
  apply ((stays_consume h.through.closed rfl _).discard hwithin).bind_fails
  intro _ q hopen hq
  apply FailsAt.behind _ (check_apply _ q)
  split
  · exact FailsAt.behind ((failsAt_current hq _).bind _) Run.get_apply
  · exact h.condition_fails hp hq (hpassed.trans (passes_of_consume hopen rfl)) hfuel hunread _ _

private theorem returnStatement_fails (h : Malformed inside branch m) (hp : p.rest = m ++ more)
    (hinside : inside = decide (0 < p.functionDepth)) (hkind : p.current.kind = .ritorna)
    (hfuel : 2 * p.rest.length ≤ fuel)
    (hunread : inside = true → ∀ value : Option Expr, (∀ e ∈ value, e.WellFormed) →
      m.map Token.word ≠ .mark .ritorna :: (value.elim [] Expr.words) ++ [.mark .semicolon]) :
    FailsAt m more p (returnStatement (expression fuel)) p := by
  obtain ⟨hadvance, hwithin, hpassed⟩ := h.first_passed hp hkind rfl rfl
  have hlength := hpassed.length_lt
  apply FailsAt.behind _ Run.get_apply
  split
  · exact (failsAt_current (within_start hp h.ne_nil) _).bind _
  · next hdepth =>
    have hread : inside = true := by
      have hpos : p.functionDepth ≠ 0 := by simpa using hdepth
      rw [hinside, decide_eq_true (Nat.pos_of_ne_zero hpos)]
    apply FailsAt.behind _ hadvance
    apply FailsAt.behind _ (check_apply _ p.next)
    split
    · apply FailsAt.behind _ (Run.pure_apply none)
      apply FailsAt.bind
      exact (failsAt_semicolon hwithin h.through hp hpassed (hunread hread none (by simp)) _).map _
    · apply ((expression_stays h.through.closed fuel).map some hwithin).bind_fails
      intro value q hrun hq
      obtain ⟨e, hexpr, rfl⟩ := Run.of_map_ok hrun
      obtain ⟨hpassed', hwell⟩ := expression_reads (n := p.next.rest.length) (by omega)
        (Nat.le_refl _) hexpr
      apply FailsAt.bind
      exact (failsAt_semicolon hq h.through hp (hpassed.trans hpassed')
        (hunread hread (some e) (by simpa using hwell)) _).map _

theorem statement_fails (h : Malformed inside branch m) (hp : p.rest = m ++ more)
    (hinside : inside = decide (0 < p.functionDepth)) (hfuel : 2 * p.rest.length + 1 ≤ fuel)
    (hunread : ∀ s : Stmt, s.WellFormed inside → s.isDeclaration = false →
      s.words ≠ m.map Token.word) :
    FailsAt m more p (statement fuel) p := by
  obtain ⟨fuel, rfl⟩ : ∃ k, fuel = k + 1 := ⟨fuel - 1, by omega⟩
  have hwithin := within_start hp h.ne_nil
  have hbrace := h.kind_ne_leftBrace hwithin.current_mem
  have hfuel' : 2 * p.rest.length ≤ fuel := by omega
  rw [statement]
  apply FailsAt.behind _ (peekKind_apply p)
  split
  · next hkind =>
    apply h.ifStatement_fails hp hkind hfuel'
    intro c e hc he hwords
    have hwell : Stmt.WellFormed inside (.cond c (.expr e e.span) none e.span) :=
      .cond hc (.expr he _) rfl (by simp) (by simp) (by simp) _
    refine hunread _ hwell rfl ?_
    rw [hwords, Stmt.words_cond, Stmt.words, Stmt.wordsOfElse, List.append_nil, List.append_assoc]
  · next hkind =>
    apply h.whileStatement_fails hp hkind hfuel'
    intro c e hc he hwords
    have hwell : Stmt.WellFormed inside (.loop c (.expr e e.span) e.span) :=
      .loop hc (.expr he _) rfl _
    refine hunread _ hwell rfl ?_
    rw [hwords, Stmt.words_loop, Stmt.words, List.append_assoc]
  · next hkind =>
    apply h.returnStatement_fails hp hinside hkind hfuel'
    intro hread value hvalue hwords
    have hwell : Stmt.WellFormed inside (.ret value p.current.span) := hread ▸ .ret hvalue _
    refine hunread _ hwell rfl ?_
    rw [hwords, Stmt.words]
  · next hkind => exact absurd hkind hbrace
  · apply h.expressionStatement_fails hp hwithin (.refl p) hfuel'
    intro e he hwords
    have hwell : Stmt.WellFormed inside (.expr e e.span) := .expr he _
    refine hunread _ hwell rfl ?_
    rw [hwords, Stmt.words, List.nil_append]

private theorem varDeclaration_fails (h : Malformed inside branch m) (hp : p.rest = m ++ more)
    (hkind : p.current.kind = .variabile) (hfuel : 2 * p.rest.length ≤ fuel)
    (hunread : ∀ (name : String) (initial : Option Expr), (∀ e ∈ initial, e.WellFormed) →
      (Stmt.var name initial p.current.span).words ≠ m.map Token.word) :
    FailsAt m more p (varDeclaration (expression fuel)) p := by
  obtain ⟨hadvance, hwithin, hpassed⟩ := h.first_passed hp hkind rfl rfl
  apply FailsAt.behind _ hadvance
  apply (stays_expectName h.through.closed _ hwithin).bind_fails
  intro name q hname hq
  have hbegin := hpassed.trans (passes_of_expectName hname)
  have hlength := hbegin.length_lt
  apply (stays_accept h.through.closed rfl hq).bind_fails
  intro given r haccept hr
  rw [accept_apply] at haccept
  split at haccept
  · next hequal =>
    obtain ⟨rfl, rfl⟩ := EStateM.Result.ok.inj haccept
    have hsign := hbegin.trans (passes_mark hequal rfl)
    have hlength' := hsign.length_le
    apply ((expression_stays h.through.closed fuel).map some hr).bind_fails
    intro initial r hrun hr
    obtain ⟨e, hexpr, rfl⟩ := Run.of_map_ok hrun
    obtain ⟨hread, hwell⟩ := expression_reads (n := q.next.rest.length) (by omega) (Nat.le_refl _) hexpr
    apply FailsAt.bind
    apply FailsAt.map
    apply failsAt_semicolon hr h.through hp (hsign.trans hread)
    intro hwords
    apply hunread name (some e) (by simpa using hwell)
    rw [hwords, Stmt.words]
    simp
  · obtain ⟨rfl, rfl⟩ := EStateM.Result.ok.inj haccept
    apply FailsAt.behind _ (Run.pure_apply none)
    apply FailsAt.bind
    apply FailsAt.map
    apply failsAt_semicolon hr h.through hp hbegin
    intro hwords
    apply hunread name none (by simp)
    rw [hwords, Stmt.words]
    simp

private theorem functionDeclaration_fails (h : Malformed inside branch m) (hp : p.rest = m ++ more)
    (hkind : p.current.kind = .funzione) (decl : Parse Stmt) :
    FailsAt m more p (functionDeclaration fuel decl) p := by
  have hclosed := h.through.closed
  obtain ⟨hadvance, hwithin, -⟩ := h.first_passed hp hkind rfl rfl
  apply FailsAt.behind _ hadvance
  apply (stays_expectName hclosed _ hwithin).bind_fails
  intro name p₁ _ hp₁
  apply ((stays_consume hclosed rfl _).discard hp₁).bind_fails
  intro _ p₂ _ hp₂
  apply (listed_stays hclosed (stays_expectName hclosed _) fuel hp₂).bind_fails
  intro params p₃ _ hp₃
  apply ((stays_consume hclosed rfl _).discard hp₃).bind_fails
  intro _ p₄ _ hp₄
  apply FailsAt.bind
  exact (failsAt_consume hp₄ (h.kind_ne_leftBrace hp₄.current_mem) _).map _

theorem declaration_fails (h : Malformed inside false m) (hp : p.rest = m ++ more)
    (hinside : inside = decide (0 < p.functionDepth)) (hfuel : 2 * p.rest.length + 2 ≤ fuel) :
    FailsAt m more p (declaration fuel) p := by
  obtain ⟨fuel, rfl⟩ : ∃ k, fuel = k + 1 := ⟨fuel - 1, by omega⟩
  rw [declaration]
  apply FailsAt.behind _ (peekKind_apply p)
  split
  · next hkind =>
    apply h.varDeclaration_fails hp hkind (by omega)
    intro name initial hinitial
    exact h.unread _ (.var hinitial _ _) (by simp)
  · next hkind => exact h.functionDeclaration_fails hp hkind _
  · apply h.statement_fails hp hinside (by omega)
    intro s hs _
    exact h.unread s hs (by simp)

end Malformed
end Copione
