import Copione.Proofs.ExprCompleteness
/-!
# The parser accepts every well-formed program

The words of a well-formed program are read back as that program, up to spans.
-/
namespace Copione

namespace Stmt

mutual

def erase : Stmt → Stmt
  | .expr value _ => .expr value.erase ⟨0, 0, 0⟩
  | .var name initial _ => .var name (initial.map Expr.erase) ⟨0, 0, 0⟩
  | .block body _ => .block (eraseAll body) ⟨0, 0, 0⟩
  | .cond condition thenBranch elseBranch _ =>
    .cond condition.erase thenBranch.erase (eraseElse elseBranch) ⟨0, 0, 0⟩
  | .loop condition body _ => .loop condition.erase body.erase ⟨0, 0, 0⟩
  | .function name params body _ => .function name params (eraseAll body) ⟨0, 0, 0⟩
  | .ret value _ => .ret (value.map Expr.erase) ⟨0, 0, 0⟩

def eraseAll : List Stmt → List Stmt
  | [] => []
  | s :: ss => s.erase :: eraseAll ss

def eraseElse : Option Stmt → Option Stmt
  | none => none
  | some s => some s.erase

end

theorem eraseAll_eq (ss : List Stmt) : eraseAll ss = ss.map erase := by
  induction ss with
  | nil => rfl
  | cons s ss ih => rw [eraseAll, ih, List.map_cons]

/-- Nothing that comes next belongs to the statement. -/
def Ends (s : Stmt) (more : List Word) : Prop := s.endsOpen → more.head? ≠ some (.mark .oppure)

private theorem ends_of_kind {s : Stmt} {w : Word} {more : List Word} (h : w.kind ≠ .oppure) :
    s.Ends (w :: more) := by
  intro _ hw
  obtain rfl := Option.some.inj hw
  exact h rfl

end Stmt

namespace Parser

variable {α : Type} {p q : Parser} {kind : TokenKind} {ws more : List Word} {fuel : Nat}
  {inside : Bool} {s : Stmt} {ss : List Stmt} {decl : Parse Stmt}

def FindsStmt (x : Parse Stmt) (p : Parser) (s : Stmt) : Prop :=
  Finds x p s.words fun s' => s'.erase = s.erase

/-- Wherever the words of `s` are ahead and do not go on, `s` is read as a statement. -/
def ReadsStatement (inside : Bool) (s : Stmt) : Prop :=
  ∀ ⦃fuel : Nat⦄ ⦃p : Parser⦄ ⦃more : List Word⦄, p.ahead = s.words ++ more → s.Ends more →
    (inside → 0 < p.functionDepth) → 2 * p.rest.length + 1 ≤ fuel → FindsStmt (statement fuel) p s

def ReadsDeclaration (inside : Bool) (s : Stmt) : Prop :=
  ∀ ⦃fuel : Nat⦄ ⦃p : Parser⦄ ⦃more : List Word⦄, p.ahead = s.words ++ more → s.Ends more →
    (inside → 0 < p.functionDepth) → 2 * p.rest.length + 2 ≤ fuel → FindsStmt (declaration fuel) p s

private theorem ends_before {next : List Stmt} (hkind : kind ≠ .oppure) :
    s.Ends (Stmt.wordsOfAll next ++ .mark kind :: more) := by
  cases next with
  | nil => exact Stmt.ends_of_kind hkind
  | cons s' ss =>
    obtain ⟨w', ws', hwords, hw'⟩ := s'.words_eq_cons
    rw [Stmt.wordsOfAll, hwords]
    exact Stmt.ends_of_kind (TokenKind.ne_of_beginsStmt hw' rfl)

theorem recovering_of_ok (h : decl p = .ok s q) : recovering decl p = .ok (some s) q := by
  unfold recovering
  rw [h]

private theorem declarations_finds {stop : Parser → Bool} {count : Nat}
    (hstop : ∀ ⦃p : Parser⦄, p.current.kind.beginsStmt → stop p = false)
    (hend : ∀ ⦃p : Parser⦄, p.current.kind = kind → stop p = true) (hkind : kind ≠ .oppure)
    (h : ∀ s ∈ ss, ReadsDeclaration inside s)
    (hp : p.ahead = Stmt.wordsOfAll ss ++ .mark kind :: more) (hinside : inside → 0 < p.functionDepth)
    (hfuel : 2 * p.rest.length + 2 ≤ fuel) (hcount : p.rest.length ≤ count) :
    Finds (declarations stop (declaration fuel) count) p (Stmt.wordsOfAll ss) fun ss' =>
      ss'.map Stmt.erase = ss.map Stmt.erase := by
  induction ss generalizing p count with
  | nil =>
    have hpos := length_pos hp
    obtain ⟨count, rfl⟩ : ∃ m, count = m + 1 := ⟨count - 1, by omega⟩
    refine ⟨[], p, ?_, .refl p, rfl⟩
    rw [declarations, Run.bind_of_ok Run.get_apply, if_pos (hend (current_mark hp))]
    rfl
  | cons s ss ih =>
    have hpos := length_pos_of_append hp
    obtain ⟨count, rfl⟩ : ∃ m, count = m + 1 := ⟨count - 1, by omega⟩
    rw [Stmt.wordsOfAll, List.append_assoc] at hp
    obtain ⟨s', q, hrun, hpassed, hs'⟩ := h s List.mem_cons_self hp (ends_before hkind) hinside hfuel
    obtain ⟨w', ws', hwords, hw'⟩ := s.words_eq_cons
    have hlength := (hwords ▸ hpassed).length_lt
    have hcount' : q.rest.length ≤ count := by omega
    have hinside' : inside → 0 < q.functionDepth := by rwa [hpassed.functionDepth_eq]
    obtain ⟨ss', r, hrun', hpassed', hss'⟩ :=
      ih (fun s hs => h s (List.mem_cons_of_mem _ hs)) (hpassed.ahead_of hp) hinside' (by omega)
        hcount'
    refine ⟨s' :: ss', r, ?_, hpassed.trans hpassed', by simp [hs', hss']⟩
    have hgoesOn : stop p = false := by
      rw [hwords, List.cons_append] at hp
      exact hstop (by rwa [current_kind hp])
    rw [declarations, Run.bind_of_ok Run.get_apply, if_neg (by simp [hgoesOn]),
      Run.bind_of_ok (recovering_of_ok hrun), Run.bind_of_ok hrun']
    rfl

private theorem blockBody_finds (h : ∀ s ∈ ss, ReadsDeclaration inside s)
    (hp : p.ahead = Stmt.wordsOfAll ss ++ .mark .rightBrace :: more)
    (hinside : inside → 0 < p.functionDepth) (hfuel : 2 * p.rest.length + 2 ≤ fuel) :
    Finds (blockBody fuel (declaration fuel)) p (Stmt.wordsOfAll ss ++ [.mark .rightBrace]) fun ss' =>
      ss'.map Stmt.erase = ss.map Stmt.erase := by
  have hstop ⦃p : Parser⦄ (h : p.current.kind.beginsStmt) :
      (p.current.kind == .rightBrace || p.isAtEnd) = false := by
    have hbrace : p.current.kind ≠ .rightBrace := TokenKind.ne_of_beginsStmt h rfl
    have heof : p.current.kind ≠ .eof := TokenKind.ne_of_beginsStmt h rfl
    simp [isAtEnd, hbrace, heof]
  have hend ⦃p : Parser⦄ (h : p.current.kind = .rightBrace) :
      (p.current.kind == .rightBrace || p.isAtEnd) = true := by
    simp [h]
  have hopened : ({ p with blockDepth := p.blockDepth + 1 } : Parser).ahead =
      Stmt.wordsOfAll ss ++ .mark .rightBrace :: more := hp
  have hcount : p.rest.length ≤ fuel := by omega
  obtain ⟨ss', q, hrun, hpassed, hss'⟩ :=
    declarations_finds hstop hend (by simp) h hopened hinside hfuel hcount
  have hq : ({ q with blockDepth := q.blockDepth - 1 } : Parser).ahead = .mark .rightBrace :: more :=
    hpassed.ahead_of hopened
  refine ⟨ss', _, ?_, hpassed.closed.trans (passes_mark_ahead hq rfl).1, hss'⟩
  rw [blockBody_of_ok hrun, Run.bind_of_ok (consume_ahead hq rfl _)]
  rfl

private theorem inFunction_finds {body : Parse α} {good : α → Prop}
    (h : Finds body { p with functionDepth := p.functionDepth + 1 } ws good) :
    Finds (inFunction body) p ws good := by
  obtain ⟨a, q, hrun, hpassed, ha⟩ := h
  exact ⟨a, _, inFunction_of_ok hrun, hpassed.left, ha⟩

private theorem statement_of_beginsExpr (h : p.current.kind.beginsExpr) :
    statement (fuel + 1) p = expressionStatement (expression fuel) p := by
  rw [statement, Run.bind_of_ok (peekKind_apply p)]
  generalize p.current.kind = kind at h
  cases kind <;> first | rfl | cases h

theorem declaration_of_statement (hvar : p.current.kind ≠ .variabile)
    (hfunction : p.current.kind ≠ .funzione) : declaration (fuel + 1) p = statement fuel p := by
  rw [declaration, Run.bind_of_ok (peekKind_apply p)]
  generalize p.current.kind = kind at hvar hfunction
  cases kind <;> first | rfl | exact absurd rfl hvar | exact absurd rfl hfunction

theorem first_of_not_declaration (h : s.isDeclaration = false) :
    ∃ w ws, s.words = w :: ws ∧ w.kind ≠ .variabile ∧ w.kind ≠ .funzione := by
  cases s with
  | expr value span =>
    obtain ⟨w, ws, hwords, hw⟩ := value.words_eq_cons
    exact ⟨w, ws ++ [.mark .semicolon], by rw [Stmt.words, hwords]; rfl,
      TokenKind.ne_of_beginsExpr hw rfl, TokenKind.ne_of_beginsExpr hw rfl⟩
  | block => exact ⟨.mark .leftBrace, _, by rw [Stmt.words]; rfl, by decide, by decide⟩
  | cond => exact ⟨.mark .se, _, by rw [Stmt.words]; rfl, by decide, by decide⟩
  | loop => exact ⟨.mark .mentre, _, by rw [Stmt.words]; rfl, by decide, by decide⟩
  | ret => exact ⟨.mark .ritorna, _, by rw [Stmt.words]; rfl, by decide, by decide⟩
  | var | function => cases h

private theorem ReadsStatement.readsDeclaration (h : ReadsStatement inside s)
    (hkind : s.isDeclaration = false) : ReadsDeclaration inside s := by
  intro fuel p more hp hends hinside hfuel
  obtain ⟨fuel, rfl⟩ : ∃ m, fuel = m + 1 := ⟨fuel - 1, by omega⟩
  obtain ⟨s', q, hrun, hpassed, hs'⟩ := h hp hends hinside (Nat.le_of_succ_le_succ hfuel)
  refine ⟨s', q, ?_, hpassed, hs'⟩
  obtain ⟨w, ws, hwords, hvar, hfunction⟩ := first_of_not_declaration hkind
  rw [hwords, List.cons_append] at hp
  rw [declaration_of_statement (current_kind_ne hp hvar) (current_kind_ne hp hfunction), hrun]

private theorem readsStatement_expr {value : Expr} (h : ReadsExpr value) (span : Span) :
    ReadsStatement inside (.expr value span) := by
  intro fuel p more hp hends hinside hfuel
  rw [Stmt.words, List.append_assoc] at hp
  obtain ⟨fuel, rfl⟩ : ∃ m, fuel = m + 1 := ⟨fuel - 1, by omega⟩
  have hfuel' : 2 * p.rest.length ≤ fuel := by omega
  obtain ⟨value', q, hrun, hpassed, hvalue'⟩ := h hp (loose_of_none rfl) hfuel'
  have hq := hpassed.ahead_of hp
  refine ⟨.expr value' (value'.span.through q.next.previous.span), q.next, ?_, ?_, ?_⟩
  · obtain ⟨w, ws, hwords, hw⟩ := value.words_eq_cons
    rw [hwords, List.cons_append] at hp
    rw [statement_of_beginsExpr (by rwa [current_kind hp]), expressionStatement, Run.bind_of_ok hrun,
      Run.bind_of_ok (consume_ahead hq rfl _)]
    rfl
  · rw [Stmt.words]
    exact hpassed.trans (passes_mark_ahead hq rfl).1
  · simp only [Stmt.erase, hvalue']

private theorem readsStatement_block (h : ∀ s ∈ ss, ReadsDeclaration inside s) (span : Span) :
    ReadsStatement inside (.block ss span) := by
  intro fuel p more hp hends hinside hfuel
  rw [Stmt.words, List.cons_append, List.cons_append, List.append_assoc] at hp
  obtain ⟨fuel, rfl⟩ : ∃ m, fuel = m + 1 := ⟨fuel - 1, by omega⟩
  obtain ⟨hopen, hbody⟩ := passes_mark_ahead hp rfl
  have hfuel' : 2 * p.next.rest.length + 2 ≤ fuel := by
    have hlength := hopen.length_lt
    omega
  have hinside' : inside → 0 < p.next.functionDepth := by rwa [hopen.functionDepth_eq]
  obtain ⟨ss', q, hrun, hpassed, hss'⟩ := blockBody_finds h hbody hinside' hfuel'
  refine ⟨.block ss' (p.current.span.through q.previous.span), q, ?_, ?_, ?_⟩
  · rw [statement, Run.bind_of_ok (peekKind_apply p), current_mark hp]
    change blockStatement fuel (declaration fuel) p = _
    rw [blockStatement, Run.bind_of_ok (advance_of_mark (current_mark hp) rfl), Run.bind_of_ok hrun]
    rfl
  · rw [Stmt.words]
    exact hopen.trans hpassed
  · simp only [Stmt.erase, Stmt.eraseAll_eq, hss']

theorem condition_finds {condition : Expr} (h : ReadsExpr condition) (hkind : kind.isMark)
    (hp : p.ahead = .mark kind :: .mark .leftParen :: (condition.words ++ .mark .rightParen :: more))
    (hfuel : 2 * p.rest.length ≤ fuel) :
    ∃ condition' q, (∀ what, discard (consume .leftParen what) p.next = .ok () p.next.next) ∧
      p.next.next.current.kind ≠ .rightParen ∧ expression fuel p.next.next = .ok condition' q ∧
      (∀ what, discard (consume .rightParen what) q = .ok () q.next) ∧ q.next.ahead = more ∧
      Passes p (.mark kind :: .mark .leftParen :: condition.words ++ [.mark .rightParen]) q.next ∧
      condition'.erase = condition.erase := by
  obtain ⟨hmark, hp₁⟩ := passes_mark_ahead hp hkind
  obtain ⟨hopen, hp₂⟩ := passes_mark_ahead hp₁ rfl
  have hbegin := hmark.trans hopen
  have hfuel' : 2 * p.next.next.rest.length ≤ fuel := by
    have := hbegin.length_le
    omega
  obtain ⟨condition', q, hrun, hpassed, hcondition'⟩ := h hp₂ (loose_of_none rfl) hfuel'
  have hq := hpassed.ahead_of hp₂
  obtain ⟨hclose, hnext⟩ := passes_mark_ahead hq rfl
  refine ⟨condition', q, consume_ahead hp₁ rfl, ?_, hrun, consume_ahead hq rfl, hnext,
    (hbegin.trans hpassed).trans hclose, hcondition'⟩
  obtain ⟨w, ws, hwords, hw⟩ := condition.words_eq_cons
  rw [hwords, List.cons_append] at hp₂
  exact current_kind_ne hp₂ (TokenKind.ne_of_beginsExpr hw rfl)

private theorem readsStatement_loop {condition : Expr} {body : Stmt} (hcondition : ReadsExpr condition)
    (hbody : ReadsStatement inside body) (span : Span) :
    ReadsStatement inside (.loop condition body span) := by
  intro fuel p more hp hends hinside hfuel
  rw [Stmt.words] at hp
  simp only [List.append_assoc, List.cons_append] at hp
  obtain ⟨fuel, rfl⟩ : ∃ m, fuel = m + 1 := ⟨fuel - 1, by omega⟩
  have hfuel₁ : 2 * p.rest.length ≤ fuel := by omega
  obtain ⟨condition', q, hopen, hparen, hrun, hclose, hq, hpassed, hcondition'⟩ :=
    condition_finds hcondition rfl hp hfuel₁
  have hfuel₂ : 2 * q.next.rest.length + 1 ≤ fuel := by
    have hlength := hpassed.length_lt
    omega
  have hinside' : inside → 0 < q.next.functionDepth := by rwa [hpassed.functionDepth_eq]
  obtain ⟨body', r, hrun', hpassed', hbody'⟩ := hbody hq hends hinside' hfuel₂
  refine ⟨.loop condition' body' (p.current.span.through r.previous.span), r, ?_, ?_, ?_⟩
  · rw [statement, Run.bind_of_ok (peekKind_apply p), current_mark hp]
    change whileStatement (expression fuel) (statement fuel) p = _
    rw [whileStatement, Run.bind_of_ok (advance_of_mark (current_mark hp) rfl),
      Run.bind_of_ok (hopen _), Run.bind_of_ok (check_apply _ _), if_neg (by simpa using hparen)]
    change (expression fuel >>= fun _ => discard (consume .rightParen _) >>= fun _ =>
      statement fuel >>= fun _ => _) _ = _
    rw [Run.bind_of_ok hrun, Run.bind_of_ok (hclose _), Run.bind_of_ok hrun']
    rfl
  · rw [Stmt.words]
    simpa using hpassed.trans hpassed'
  · simp only [Stmt.erase, hcondition', hbody']

private theorem readsStatement_cond {condition : Expr} {thenBranch : Stmt} {elseBranch : Option Stmt}
    (hcondition : ReadsExpr condition) (hthen : ReadsStatement inside thenBranch)
    (helse : ∀ s ∈ elseBranch, ReadsStatement inside s)
    (hclosed : elseBranch.isSome → thenBranch.endsOpen = false) (span : Span) :
    ReadsStatement inside (.cond condition thenBranch elseBranch span) := by
  intro fuel p more hp hends hinside hfuel
  rw [Stmt.words] at hp
  simp only [List.append_assoc, List.cons_append] at hp
  obtain ⟨fuel, rfl⟩ : ∃ m, fuel = m + 1 := ⟨fuel - 1, by omega⟩
  have hfuel₁ : 2 * p.rest.length ≤ fuel := by omega
  obtain ⟨condition', q, hopen, -, hrun, hclose, hq, hpassed, hcondition'⟩ :=
    condition_finds hcondition rfl hp hfuel₁
  have hfuel₂ : 2 * q.next.rest.length + 1 ≤ fuel := by
    have hlength := hpassed.length_lt
    omega
  have hinside₂ : inside → 0 < q.next.functionDepth := by rwa [hpassed.functionDepth_eq]
  -- Behind the first branch comes either the `oppure` that it does not take, or what comes
  -- behind the statement.
  have hthenEnds : thenBranch.Ends (Stmt.wordsOfElse elseBranch ++ more) := by
    cases elseBranch with
    | none => exact fun _ => hends rfl
    | some s => exact fun hopen => absurd hopen (by simp [hclosed rfl])
  obtain ⟨thenBranch', r, hrun', hpassed', hthen'⟩ := hthen hq hthenEnds hinside₂ hfuel₂
  have hr := hpassed'.ahead_of hq
  have hhead := hpassed.trans hpassed'
  have hstart : statement (fuel + 1) p = ifStatement (expression fuel) (statement fuel) p := by
    rw [statement, Run.bind_of_ok (peekKind_apply p), current_mark hp]
  rw [FindsStmt, Finds, hstart, ifStatement, Run.bind_of_ok (advance_of_mark (current_mark hp) rfl),
    Run.bind_of_ok (hopen _), Run.bind_of_ok hrun, Run.bind_of_ok (hclose _), Run.bind_of_ok hrun']
  cases elseBranch with
  | none =>
    have hoppure : r.current.kind ≠ .oppure := kind_ne_of_head (by rw [hr]; exact hends rfl) rfl
    refine ⟨.cond condition' thenBranch' none (p.current.span.through r.previous.span), r, ?_, ?_, ?_⟩
    · rw [Run.bind_of_ok (accept_of_ne hoppure)]
      rfl
    · rw [Stmt.words]
      simpa [Stmt.wordsOfElse] using hhead
    · simp only [Stmt.erase, Stmt.eraseElse, hcondition', hthen']
  | some s =>
    obtain ⟨hmark, hnext⟩ := passes_mark_ahead hr rfl
    have hhead' := hhead.trans hmark
    have hfuel₃ : 2 * r.next.rest.length + 1 ≤ fuel := by
      have hlength := (hpassed'.trans hmark).length_le
      omega
    have hinside₃ : inside → 0 < r.next.functionDepth := by rwa [hhead'.functionDepth_eq]
    obtain ⟨s', t, hrun'', hpassed'', hs'⟩ := helse s rfl hnext hends hinside₃ hfuel₃
    refine ⟨.cond condition' thenBranch' (some s') (p.current.span.through t.previous.span), t,
      ?_, ?_, ?_⟩
    · rw [Run.bind_of_ok (accept_ahead hr)]
      change ((some <$> statement fuel) >>= fun _ => _) r.next = _
      rw [Run.bind_of_ok (Run.map_of_ok hrun'')]
      rfl
    · rw [Stmt.words]
      simpa [Stmt.wordsOfElse] using hhead'.trans hpassed''
    · simp only [Stmt.erase, Stmt.eraseElse, hcondition', hthen', hs']

private theorem readsStatement_ret {value : Option Expr} (h : ∀ e ∈ value, ReadsExpr e) (span : Span) :
    ReadsStatement true (.ret value span) := by
  intro fuel p more hp hends hinside hfuel
  rw [Stmt.words] at hp
  simp only [List.append_assoc, List.cons_append, List.nil_append] at hp
  obtain ⟨fuel, rfl⟩ : ∃ m, fuel = m + 1 := ⟨fuel - 1, by omega⟩
  obtain ⟨hmark, hnext⟩ := passes_mark_ahead hp rfl
  have hdepth : p.functionDepth ≠ 0 := Nat.ne_of_gt (hinside rfl)
  have hstart : statement (fuel + 1) p = returnStatement (expression fuel) p := by
    rw [statement, Run.bind_of_ok (peekKind_apply p), current_mark hp]
  rw [FindsStmt, Finds, hstart, returnStatement, Run.bind_of_ok Run.get_apply,
    if_neg (by simpa using hdepth)]
  change ∃ s' q, (advance >>= fun _ => check .semicolon >>= fun _ => _) p = _ ∧ _
  rw [Run.bind_of_ok (advance_of_mark (current_mark hp) rfl), Run.bind_of_ok (check_apply _ _)]
  cases value with
  | none =>
    have hend := (passes_mark_ahead hnext rfl).1
    refine ⟨.ret none (p.current.span.through p.next.next.previous.span), p.next.next, ?_, ?_, rfl⟩
    · rw [if_pos (beq_iff_eq.mpr (current_mark hnext))]
      change (discard (consume .semicolon _) >>= fun _ => _) p.next = _
      rw [Run.bind_of_ok (consume_ahead hnext rfl _)]
      rfl
    · rw [Stmt.words]
      exact hmark.trans hend
  | some e =>
    have hfuel' : 2 * p.next.rest.length ≤ fuel := by
      have hlength := hmark.length_le
      omega
    obtain ⟨e', q, hrun, hpassed, he'⟩ := h e rfl hnext (loose_of_none rfl) hfuel'
    have hq := hpassed.ahead_of hnext
    have hend := (passes_mark_ahead hq rfl).1
    refine ⟨.ret (some e') (p.current.span.through q.next.previous.span), q.next, ?_, ?_, ?_⟩
    · have hsemicolon : p.next.current.kind ≠ .semicolon := by
        obtain ⟨w, ws, hwords, hw⟩ := e.words_eq_cons
        rw [Option.elim, hwords, List.cons_append] at hnext
        exact current_kind_ne hnext (TokenKind.ne_of_beginsExpr hw rfl)
      rw [if_neg (by simpa using hsemicolon)]
      change ((some <$> expression fuel) >>= fun _ =>
        discard (consume .semicolon _) >>= fun _ => _) _ = _
      rw [Run.bind_of_ok (Run.map_of_ok hrun), Run.bind_of_ok (consume_ahead hq rfl _)]
      rfl
    · rw [Stmt.words]
      exact (hmark.trans hpassed).trans hend
    · simp [Stmt.erase, he']

private theorem readsDeclaration_var {initial : Option Expr} (h : ∀ e ∈ initial, ReadsExpr e)
    (name : String)
    (span : Span) : ReadsDeclaration inside (.var name initial span) := by
  intro fuel p more hp hends hinside hfuel
  rw [Stmt.words] at hp
  simp only [List.append_assoc, List.cons_append, List.nil_append] at hp
  obtain ⟨fuel, rfl⟩ : ∃ m, fuel = m + 1 := ⟨fuel - 1, by omega⟩
  obtain ⟨hmark, hp₁⟩ := passes_mark_ahead hp rfl
  obtain ⟨hname, hp₂⟩ := passes_name_ahead hp₁
  have hbegin := hmark.trans hname
  have hstart : declaration (fuel + 1) p = varDeclaration (expression fuel) p := by
    rw [declaration, Run.bind_of_ok (peekKind_apply p), current_mark hp]
  rw [FindsStmt, Finds, hstart, varDeclaration, Run.bind_of_ok (advance_of_mark (current_mark hp) rfl),
    Run.bind_of_ok (expectName_ahead hp₁ _)]
  cases initial with
  | none =>
    have hequal : accept .equal p.next.next = .ok false p.next.next :=
      accept_of_ne (current_kind_ne hp₂ (by decide))
    have hend := (passes_mark_ahead hp₂ rfl).1
    refine ⟨.var name none (p.current.span.through p.next.next.next.previous.span), p.next.next.next,
      ?_, ?_, rfl⟩
    · rw [Run.bind_of_ok hequal]
      change (discard (consume .semicolon _) >>= fun _ => _) p.next.next = _
      rw [Run.bind_of_ok (consume_ahead hp₂ rfl _)]
      rfl
    · rw [Stmt.words]
      exact hbegin.trans hend
  | some e =>
    obtain ⟨hequal, hp₃⟩ := passes_mark_ahead hp₂ rfl
    have hsign := hbegin.trans hequal
    have hfuel' : 2 * p.next.next.next.rest.length ≤ fuel := by
      have hlength := hsign.length_le
      omega
    obtain ⟨e', q, hrun, hpassed, he'⟩ := h e rfl hp₃ (loose_of_none rfl) hfuel'
    have hq := hpassed.ahead_of hp₃
    have hend := (passes_mark_ahead hq rfl).1
    refine ⟨.var name (some e') (p.current.span.through q.next.previous.span), q.next, ?_, ?_, ?_⟩
    · rw [Run.bind_of_ok (accept_ahead hp₂)]
      change ((some <$> expression fuel) >>= fun _ =>
        discard (consume .semicolon _) >>= fun _ => _) _ = _
      rw [Run.bind_of_ok (Run.map_of_ok hrun), Run.bind_of_ok (consume_ahead hq rfl _)]
      rfl
    · rw [Stmt.words]
      simpa using (hsign.trans hpassed).trans hend
    · simp [Stmt.erase, he']

private theorem readsDeclaration_function (h : ∀ s ∈ ss, ReadsDeclaration true s) (name : String)
    (params : List String) (span : Span) : ReadsDeclaration inside (.function name params ss span) := by
  intro fuel p more hp hends hinside hfuel
  rw [Stmt.words] at hp
  simp only [List.append_assoc, List.cons_append, List.nil_append] at hp
  obtain ⟨fuel, rfl⟩ : ∃ m, fuel = m + 1 := ⟨fuel - 1, by omega⟩
  obtain ⟨hmark, hp₁⟩ := passes_mark_ahead hp rfl
  obtain ⟨hname, hp₂⟩ := passes_name_ahead hp₁
  obtain ⟨hopen, hp₃⟩ := passes_mark_ahead hp₂ rfl
  have hbegin := (hmark.trans hname).trans hopen
  have hlength := hbegin.length_le
  have hcount : p.next.next.next.rest.length ≤ fuel := by omega
  have hparam (n : String) (_ : n ∈ params) ⦃p : Parser⦄ ⦃more : List Word⦄
      (hp : p.ahead = [.name n] ++ more) (_ : Loose 0 more) (_ : p.rest.length ≤ fuel) :
      Finds (expectName "parameter name") p [.name n] fun n' => id n' = id n :=
    ⟨n, p.next, expectName_ahead hp _, (passes_name_ahead hp).1, rfl⟩
  obtain ⟨params', q, hrun, hpassed, hparams⟩ := listed_finds hparam
    (fun n _ => ⟨.name n, [], rfl, by simp [Word.kind]⟩) hp₃ hcount hcount
  obtain rfl : params' = params := by simpa using hparams
  have hq := hpassed.ahead_of hp₃
  obtain ⟨hclose, hq₁⟩ := passes_mark_ahead hq rfl
  obtain ⟨hbrace, hq₂⟩ := passes_mark_ahead hq₁ rfl
  have hhead := (hbegin.trans hpassed).trans (hclose.trans hbrace)
  have hfuel' : 2 * q.next.next.rest.length + 2 ≤ fuel := by
    have hlength := hhead.length_lt
    omega
  have hbody : ({ q.next.next with functionDepth := q.next.next.functionDepth + 1 } : Parser).ahead =
      Stmt.wordsOfAll ss ++ .mark .rightBrace :: more := hq₂
  obtain ⟨ss', r, hrun', hpassed', hss'⟩ :=
    inFunction_finds (blockBody_finds h hbody (fun _ => Nat.succ_pos _) hfuel')
  refine ⟨.function name params' ss' (p.current.span.through r.previous.span), r, ?_, ?_, ?_⟩
  · rw [declaration, Run.bind_of_ok (peekKind_apply p), current_mark hp]
    change functionDeclaration fuel (declaration fuel) p = _
    rw [functionDeclaration, Run.bind_of_ok (advance_of_mark (current_mark hp) rfl),
      Run.bind_of_ok (expectName_ahead hp₁ _), Run.bind_of_ok (consume_ahead hp₂ rfl _),
      Run.bind_of_ok hrun, Run.bind_of_ok (consume_ahead hq rfl _),
      Run.bind_of_ok (consume_ahead hq₁ rfl _), Run.bind_of_ok hrun']
    rfl
  · rw [Stmt.words]
    simpa using hhead.trans hpassed'
  · simp only [Stmt.erase, Stmt.eraseAll_eq, hss']

theorem readsDeclaration_of_wellFormed (h : s.WellFormed inside) :
    ReadsDeclaration inside s ∧ (s.isDeclaration = false → ReadsStatement inside s) := by
  induction h with
  | @expr inside value h span =>
    have hread : ReadsStatement inside (.expr value span) :=
      readsStatement_expr (readBack h).expression span
    exact ⟨hread.readsDeclaration rfl, fun _ => hread⟩
  | var h name span =>
    refine ⟨readsDeclaration_var ?_ name span, fun h => by cases h⟩
    exact fun e he => (readBack (h e he)).expression
  | block h span ih =>
    have hread := readsStatement_block (fun s hs => (ih s hs).1) span
    exact ⟨hread.readsDeclaration rfl, fun _ => hread⟩
  | cond hcondition hthen hthenKind helse helseKind hclosed span ihthen ihelse =>
    have hread := readsStatement_cond (readBack hcondition).expression (ihthen.2 hthenKind)
      (fun s hs => (ihelse s hs).2 (helseKind s hs)) hclosed span
    exact ⟨hread.readsDeclaration rfl, fun _ => hread⟩
  | loop hcondition hbody hbodyKind span ih =>
    have hread := readsStatement_loop (readBack hcondition).expression (ih.2 hbodyKind) span
    exact ⟨hread.readsDeclaration rfl, fun _ => hread⟩
  | function h name params span ih =>
    exact ⟨readsDeclaration_function (fun s hs => (ih s hs).1) name params span, fun h => by cases h⟩
  | ret h span =>
    have hread := readsStatement_ret (fun e he => (readBack (h e he)).expression) span
    exact ⟨hread.readsDeclaration rfl, fun _ => hread⟩

theorem program_finds {tokens : List Token} (h : ∀ s ∈ ss, s.WellFormed false)
    (htokens : tokens.map Token.word = Program.words ss) :
    Finds (program (fuelFor tokens.length)) (ofTokens tokens) (Stmt.wordsOfAll ss) fun ss' =>
      ss'.map Stmt.erase = ss.map Stmt.erase := by
  have hfuel : fuelFor tokens.length = 4 * tokens.length + 4 := rfl
  have hlength : (ofTokens tokens).rest.length = tokens.length := rfl
  have hstop ⦃p : Parser⦄ (hkind : p.current.kind.beginsStmt) : p.isAtEnd = false := by
    have heof : p.current.kind ≠ .eof := TokenKind.ne_of_beginsStmt hkind rfl
    simp [isAtEnd, heof]
  have hend ⦃p : Parser⦄ (hkind : p.current.kind = .eof) : p.isAtEnd = true := by
    simp [isAtEnd, hkind]
  have hread (s : Stmt) (hs : s ∈ ss) : ReadsDeclaration false s :=
    (readsDeclaration_of_wellFormed (h s hs)).1
  exact declarations_finds hstop hend (by simp) hread htokens (by simp) (by omega) (by omega)

end Parser

def Constant.literal? : Constant → Option Literal
  | .null | .bool _ => none
  | .int n => some (.int n)
  | .float x => some (.float x)
  | .str s => some (.str s)

def Word.token : Word → Token
  | .mark kind => ⟨kind, kind.text, none, ⟨0, 0, 0⟩⟩
  | .name n => ⟨.identifier, n, some (.str n), ⟨0, 0, 0⟩⟩
  | .constant value => ⟨value.kind, "", value.literal?, ⟨0, 0, 0⟩⟩

def Word.isProper : Word → Bool
  | .mark kind => kind.isMark
  | _ => true

theorem Word.token_word {w : Word} (h : w.isProper) : w.token.word = w := by
  cases w with
  | mark kind => cases kind <;> first | rfl | cases h
  | name n => rfl
  | constant value => rcases value with _ | ⟨_ | _⟩ | _ | _ | _ <;> rfl

private theorem commas_isProper {items : List (List Word)}
    (h : ∀ item ∈ items, item.all Word.isProper) :
    (commas items).all Word.isProper := by
  fun_induction commas items with
  | case1 => rfl
  | case2 item => exact h item List.mem_cons_self
  | case3 item items hitems ih =>
    have hitem := h item List.mem_cons_self
    have hrest := ih fun item hitem => h item (List.mem_cons_of_mem _ hitem)
    simp [hitem, hrest, Word.isProper, TokenKind.isMark]

private theorem Expr.WellFormed.isProper {e : Expr} (h : e.WellFormed) : e.words.all Word.isProper := by
  induction h with
  | literal | name | questo | super => simp [Expr.words, Word.isProper, TokenKind.isMark]
  | group h span ih => simp [Expr.words, Word.isProper, TokenKind.isMark, ih]
  | unary h hlevel op span ih => simp [Expr.words, Word.isProper, op.isMark_kind, ih]
  | @binary left right op hleft hright hleftLevel hrightLevel span ihleft ihright =>
    have hop : op.kind.isMark := (PairOp.binary op).isMark_kind
    simp [Expr.words, Word.isProper, hop, ihleft, ihright]
  | @logical left right op hleft hright hleftLevel hrightLevel span ihleft ihright =>
    have hop : op.kind.isMark := (PairOp.logical op).isMark_kind
    simp [Expr.words, Word.isProper, hop, ihleft, ihright]
  | assign h n span ih => simp [Expr.words, Word.isProper, TokenKind.isMark, ih]
  | call hcallee hlevel harguments span ih iharguments =>
    have hcommas := commas_isProper (List.forall_mem_map.mpr iharguments)
    simp [Expr.words, Expr.wordsOfAll_eq, Word.isProper, TokenKind.isMark, ih, hcommas]
  | get h hlevel n span ih => simp [Expr.words, Word.isProper, TokenKind.isMark, ih]
  | set hobject hlevel hvalue n span ihobject ihvalue =>
    simp [Expr.words, Word.isProper, TokenKind.isMark, ihobject, ihvalue]

private theorem Stmt.wordsOfAll_isProper {ss : List Stmt} (h : ∀ s ∈ ss, s.words.all Word.isProper) :
    (wordsOfAll ss).all Word.isProper := by
  induction ss with
  | nil => rfl
  | cons s ss ih =>
    have hs := h s List.mem_cons_self
    have hss := ih fun s hs => h s (List.mem_cons_of_mem _ hs)
    simp [wordsOfAll, hs, hss]

theorem Stmt.WellFormed.isProper {inside : Bool} {s : Stmt} (h : s.WellFormed inside) :
    s.words.all Word.isProper := by
  induction h with
  | expr h span => simp [Stmt.words, Word.isProper, TokenKind.isMark, h.isProper]
  | @var inside initial h name span =>
    cases initial with
    | none => simp [Stmt.words, Word.isProper, TokenKind.isMark]
    | some e => simp [Stmt.words, Word.isProper, TokenKind.isMark, (h e rfl).isProper]
  | block h span ih =>
    simp [Stmt.words, Word.isProper, TokenKind.isMark, wordsOfAll_isProper ih]
  | @cond inside condition thenBranch elseBranch hcondition hthen hthenKind helse helseKind hclosed span
      ihthen ihelse =>
    cases elseBranch with
    | none =>
      simp [Stmt.words, wordsOfElse, Word.isProper, TokenKind.isMark, hcondition.isProper, ihthen]
    | some s =>
      simp [Stmt.words, wordsOfElse, Word.isProper, TokenKind.isMark, hcondition.isProper, ihthen,
        ihelse s rfl]
  | loop hcondition hbody hbodyKind span ih =>
    simp [Stmt.words, Word.isProper, TokenKind.isMark, hcondition.isProper, ih]
  | function h name params span ih =>
    have hparams : (commas (params.map fun p => [Word.name p])).all Word.isProper :=
      commas_isProper (List.forall_mem_map.mpr fun _ _ => rfl)
    simp [Stmt.words, Word.isProper, TokenKind.isMark, hparams, wordsOfAll_isProper ih]
  | @ret value h span =>
    cases value with
    | none => simp [Stmt.words, Word.isProper, TokenKind.isMark]
    | some e => simp [Stmt.words, Word.isProper, TokenKind.isMark, (h e rfl).isProper]

namespace Program

/-- Tokens that say a program. -/
def write (program : List Stmt) : List Token := (words program).map Word.token

private theorem map_word_write {program : List Stmt} (h : ∀ s ∈ program, s.WellFormed false) :
    (write program).map Token.word = words program := by
  have hproper := Stmt.wordsOfAll_isProper fun s hs => (h s hs).isProper
  have hwritten : ∀ w ∈ Stmt.wordsOfAll program, (Token.word ∘ Word.token) w = w := fun w hw =>
    Word.token_word (List.all_eq_true.mp hproper w hw)
  rw [write, words, List.map_map, List.map_append, List.map_congr_left hwritten, List.map_id']
  rfl

/-- A well-formed program that is written out, or any tokens that say the same, is read as that
program, up to spans. -/
theorem parse_complete {program : List Stmt} (h : ∀ s ∈ program, s.WellFormed false) :
    (write program).map Token.word = words program ∧
      ∀ tokens : List Token, tokens.map Token.word = words program →
        ∃ program', parse tokens = .ok program' ∧
          program'.map Stmt.erase = program.map Stmt.erase := by
  refine ⟨map_word_write h, fun tokens htokens => ?_⟩
  obtain ⟨program', q, hrun, hpassed, hsame⟩ := Parser.program_finds h htokens
  have hclean : q.errors.isEmpty := by
    rw [hpassed.errors_eq]
    rfl
  refine ⟨program', ?_, hsame⟩
  rw [parse, hrun]
  dsimp only
  rw [if_pos hclean]

/-- Two branches: an assignment to a property, with a chain of differences, and two calls. -/
theorem parse_complete_two_branches :
    let at0 : Span := ⟨0, 0, 0⟩
    let number (n : Int64) : Expr := .literal (.int n) at0
    let minus (left right : Expr) : Expr := .binary .subtract left right at0
    let differences := minus (minus (number 1) (number 2)) (number 3)
    let negated : Expr := .unary .negate (.name "b" at0) at0
    let calls := Expr.call (.call (.name "f" at0) [number 1] at0) [negated] at0
    let program : List Stmt :=
      [.cond (.name "a" at0) (.expr (.set (.name "x" at0) "y" differences at0) at0)
        (some (.expr calls at0)) at0]
    (∀ s ∈ program, s.WellFormed false) ∧
      ∃ program', parse (write program) = .ok program' ∧
        program'.map Stmt.erase = program.map Stmt.erase := by
  intro at0 number minus differences negated calls program
  have hnumber (n : Int64) : (number n).WellFormed := .literal _ _
  have hdifference : (minus (number 1) (number 2)).WellFormed :=
    .binary (hnumber 1) (hnumber 2) (by decide) (by decide) _
  have hdifferences : differences.WellFormed :=
    .binary hdifference (hnumber 3) (by decide) (by decide) _
  have hcalls : calls.WellFormed := by
    refine .call (.call (.name _ _) (by decide) ?_ _) (by decide) ?_ _
    · exact List.forall_mem_singleton.mpr (hnumber 1)
    · exact List.forall_mem_singleton.mpr (.unary (.name _ _) (by decide) _ _)
  have hprogram : ∀ s ∈ program, s.WellFormed false := by
    have hassign := Expr.WellFormed.set (.name "x" at0) (by decide) hdifferences "y" at0
    refine List.forall_mem_singleton.mpr (.cond (.name _ _) (.expr hassign _) rfl ?_ ?_ (fun _ => rfl) _)
    · simpa using Stmt.WellFormed.expr hcalls _
    · simp [Stmt.isDeclaration]
  obtain ⟨hwrite, hparse⟩ := parse_complete hprogram
  exact ⟨hprogram, hparse (write program) hwrite⟩

end Program
end Copione
