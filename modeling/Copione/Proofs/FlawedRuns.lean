import Mathlib.Data.List.Forall2
import Copione.Proofs.Recovery
/-!
# Runs over flawed tokens

How the parser gets over tokens with flaws in them: each flaw is reported once, by one of its tokens,
and what is around it is read as if it were not there.
-/
namespace Copione

namespace Parser

variable {α β : Type} {p q : Parser} {es es' : List CompileError} {ts ts' more : List Token}
  {ms ms' : List (List Token)} {fuel : Nat} {inside branch : Bool} {s : Stmt} {x : Parse α}

/-- One error for each flaw, at a token of it, in the order of the flaws. -/
def Reported (ms : List (List Token)) (es : List CompileError) : Prop :=
  List.Forall₂ (fun m (e : CompileError) => e.Blames m) ms es

private theorem Reported.append (h : Reported ms es) (h' : Reported ms' es') :
    Reported (ms ++ ms') (es ++ es') := List.rel_append h h'

/-- From `p`, `x` ends well where `more` comes, and reports the flaws. -/
def Through (x : Parse α) (p : Parser) (more : List Token) (ms : List (List Token)) : Prop :=
  ∃ a q es, x p = .ok a q ∧ Arrives p es more q ∧ Reported ms es

/-- From `p`, `x` fails at the last of the flaws, and reading resumes where `more` comes. -/
def Stumble (x : Parse α) (p : Parser) (more : List Token) (ms : List (List Token)) : Prop :=
  ∃ e q es, x p = .error e q ∧ Arrives p es q.rest q ∧ ResumesAt q more ∧ Reported ms (es ++ [e])

theorem Passes.arrives {ws : List Word} (h : Passes p ws q) (hp : p.rest = ts ++ more)
    (hts : ts.map Token.word = ws) : Arrives p [] more q := by
  obtain ⟨passed, hpassed, -, hrest, -⟩ := h.passed
  have hlength : ts.length = passed.length := by
    rw [← List.length_map (f := Token.word), hts, ← hpassed, List.length_map]
  rw [hp] at hrest
  refine ⟨(List.append_inj hrest hlength).2.symm, ?_, h.functionDepth_eq, h.blockDepth_eq⟩
  rw [h.errors_eq, List.append_nil]

theorem ahead_eq_append {ws : List Word} (hp : p.rest = ts ++ more) (hts : ts.map Token.word = ws) :
    p.ahead = ws ++ more.map Token.word := by
  rw [ahead, hp, List.map_append, hts]

/-- Where a sequence begins with what comes through without a flaw, the rest decides. -/
theorem Through.behind {f : α → Parse β} {a : α} (hx : x p = .ok a q) (hq : Arrives p [] ts q)
    (h : Through (f a) q more ms) : Through (x >>= f) p more ms := by
  obtain ⟨b, r, es, hf, hr, hes⟩ := h
  exact ⟨b, r, es, (Run.bind_of_ok hx).trans hf, hq.trans hr, hes⟩

theorem Through.bind {f : α → Parse β} (hx : Through x p ts ms)
    (hf : ∀ a q es, Arrives p es ts q → Through (f a) q more ms') :
    Through (x >>= f) p more (ms ++ ms') := by
  obtain ⟨a, q, es, hx, hq, hes⟩ := hx
  obtain ⟨b, r, es', hf, hr, hes'⟩ := hf a q es hq
  exact ⟨b, r, es ++ es', (Run.bind_of_ok hx).trans hf, hq.trans hr, hes.append hes'⟩

theorem Stumble.bind (hx : Stumble x p more ms) (f : α → Parse β) : Stumble (x >>= f) p more ms := by
  obtain ⟨e, q, es, hx, hq, hresumes, hes⟩ := hx
  exact ⟨e, q, es, Run.bind_of_error hx, hq, hresumes, hes⟩

theorem Through.bind_stumble {f : α → Parse β} (hx : Through x p ts ms)
    (hf : ∀ a q es, Arrives p es ts q → Stumble (f a) q more ms') :
    Stumble (x >>= f) p more (ms ++ ms') := by
  obtain ⟨a, q, es, hx, hq, hes⟩ := hx
  obtain ⟨e, r, es', hf, hr, hresumes, hes'⟩ := hf a q es hq
  refine ⟨e, r, es ++ es', (Run.bind_of_ok hx).trans hf, hq.trans hr, hresumes, ?_⟩
  rw [List.append_assoc]
  exact hes.append hes'

def NoBranch (more : List Token) : Prop := ∀ t ∈ more.head?, t.kind ≠ .oppure

def Begins (ts : List Token) : Prop := ∀ t ∈ ts.head?, t.kind ∉ [.rightBrace, .eof, .oppure]

theorem NoBranch.append (h : NoBranch ts) (hmore : NoBranch more) : NoBranch (ts ++ more) := by
  cases ts with
  | nil => exact hmore
  | cons t ts => exact h

theorem Begins.noBranch_self (h : Begins ts) : NoBranch ts := by
  intro t ht hkind
  exact h t ht (by simp [hkind])

theorem Begins.noBranch (h : Begins ts) (hmore : NoBranch more) : NoBranch (ts ++ more) :=
  h.noBranch_self.append hmore

theorem begins_of_mark {head ts : List Token} {kind : TokenKind} {ws : List Word}
    (hhead : head.map Token.word = .mark kind :: ws) (hkind : kind ∉ [.rightBrace, .eof, .oppure]) :
    ∃ t rest, head ++ ts = t :: rest ∧ t.kind ∉ [.rightBrace, .eof, .oppure] := by
  obtain ⟨t, rest, rfl, ht, -⟩ := List.map_eq_cons_iff.mp hhead
  refine ⟨t, rest ++ ts, rfl, ?_⟩
  rwa [← Token.word_kind, ht]

theorem begins_of_words {s : Stmt} {ts : List Token} (hts : ts.map Token.word = s.words) :
    ∃ t rest, ts = t :: rest ∧ t.kind ∉ [.rightBrace, .eof, .oppure] := by
  obtain ⟨w, ws, hwords, hw⟩ := s.words_eq_cons
  rw [hwords] at hts
  obtain ⟨t, rest, rfl, ht, -⟩ := List.map_eq_cons_iff.mp hts
  refine ⟨t, rest, rfl, ?_⟩
  rw [← Token.word_kind, ht]
  intro hkind
  simp only [List.mem_cons, List.not_mem_nil, or_false] at hkind
  rcases hkind with hkind | hkind | hkind <;> exact TokenKind.ne_of_beginsStmt hw rfl hkind

theorem begins_append {ts : List Token}
    (h : ∃ t rest, ts = t :: rest ∧ t.kind ∉ [.rightBrace, .eof, .oppure]) (ts' : List Token) :
    Begins (ts ++ ts') := by
  obtain ⟨t, rest, rfl, ht⟩ := h
  intro t' ht'
  obtain rfl : t = t' := by simpa using ht'
  exact ht

theorem begins_of_wordsOfAll {ss : List Stmt} {ts : List Token}
    (hts : ts.map Token.word = Stmt.wordsOfAll ss) : Begins ts := by
  cases ss with
  | nil =>
    obtain rfl : ts = [] := List.map_eq_nil_iff.mp hts
    simp [Begins]
  | cons s ss =>
    obtain ⟨first, others, rfl, hfirst, -⟩ := List.map_eq_append_iff.mp hts
    exact begins_append (begins_of_words hfirst) others

def StopsAtEnd (stop : Parser → Bool) : Prop :=
  ∀ p : Parser, p.current.kind ∉ [.rightBrace, .eof] → stop p = false

/-- Wherever the tokens come as declarations, the flaws are reported and reading goes on behind. -/
def Overcome (inside : Bool) (ts : List Token) (ms : List (List Token)) : Prop :=
  ∀ ⦃stop : Parser → Bool⦄ ⦃fuel count : Nat⦄ ⦃p : Parser⦄ ⦃more : List Token⦄, StopsAtEnd stop →
    p.rest = ts ++ more → NoBranch more → inside = decide (0 < p.functionDepth) →
    2 * p.rest.length + 2 ≤ fuel → p.rest.length ≤ count →
    ∃ ss q es n, Arrives p es more q ∧ Reported ms es ∧ q.rest.length ≤ n ∧
      ∀ ss' r, declarations stop (declaration fuel) n q = .ok ss' r →
        declarations stop (declaration fuel) count p = .ok (ss ++ ss') r

theorem overcome_nil : Overcome inside [] [] := by
  intro stop fuel count p more _ hp _ _ _ hcount
  exact ⟨[], p, [], count, arrives_self hp, .nil, hcount, fun ss' r h => h⟩

theorem Overcome.append (h : Overcome inside ts ms) (h' : Overcome inside ts' ms')
    (hbegins : Begins ts') : Overcome inside (ts ++ ts') (ms ++ ms') := by
  intro stop fuel count p more hstop hp hmore hinside hfuel hcount
  rw [List.append_assoc] at hp
  obtain ⟨ss, q, es, n, hq, hes, hn, hgoes⟩ :=
    h hstop hp (hbegins.noBranch hmore) hinside hfuel hcount
  have hlength : q.rest.length ≤ p.rest.length := by
    rw [hq.rest_eq, hp]
    simp
  have hinside' : inside = decide (0 < q.functionDepth) := by rw [hq.functionDepth_eq, hinside]
  obtain ⟨ss', r, es', n', hr, hes', hn', hgoes'⟩ :=
    h' hstop hq.rest_eq hmore hinside' (show 2 * q.rest.length + 2 ≤ fuel by omega) hn
  refine ⟨ss ++ ss', r, es ++ es', n', hq.trans hr, hes.append hes', hn', ?_⟩
  intro ss'' r' hrun
  rw [List.append_assoc]
  exact hgoes _ _ (hgoes' _ _ hrun)

theorem Through.recovering {decl : Parse Stmt} (h : Through decl p more ms) :
    Through (recovering decl) p more ms := by
  obtain ⟨s, q, es, hrun, hq, hes⟩ := h
  exact ⟨some s, q, es, recovering_of_ok hrun, hq, hes⟩

theorem Stumble.recovering {decl : Parse Stmt} (h : Stumble decl p more ms) (hmore : NoBranch more) :
    Through (recovering decl) p more ms := by
  obtain ⟨e, q, es, hrun, hq, hresumes, hes⟩ := h
  have hsync := hresumes.arrives hmore (q.errors.push e)
  refine ⟨none, ({ q with errors := q.errors.push e } : Parser).synchronize, es ++ [e], ?_, ?_, hes⟩
  · simp only [Parser.recovering, hrun]
  · refine ⟨hsync.rest_eq, ?_, hsync.functionDepth_eq.trans hq.functionDepth_eq,
      hsync.blockDepth_eq.trans hq.blockDepth_eq⟩
    rw [hsync.errors_eq, List.append_nil, Array.toList_push, hq.errors_eq, List.append_assoc]

/-- One declaration, read or given up, and what is left of its tokens. -/
theorem overcome_of_left {t : Token} {left : List Token} (ht : t.kind ∉ [.rightBrace, .eof])
    (hlength : left.length ≤ ts.length) (hleft : Overcome inside left ms')
    (h : ∀ ⦃fuel : Nat⦄ ⦃p : Parser⦄ ⦃more : List Token⦄, p.rest = t :: ts ++ more → NoBranch more →
      inside = decide (0 < p.functionDepth) → 2 * p.rest.length + 2 ≤ fuel →
      Through (recovering (declaration fuel)) p (left ++ more) ms) :
    Overcome inside (t :: ts) (ms ++ ms') := by
  intro stop fuel count p more hstop hp hmore hinside hfuel hcount
  obtain ⟨s, q, es, hrun, hq, hes⟩ := h hp hmore hinside hfuel
  have hshorter : q.rest.length < p.rest.length := by
    rw [hq.rest_eq, hp]
    simp only [List.cons_append, List.length_cons, List.length_append]
    omega
  obtain ⟨count, rfl⟩ : ∃ k, count = k + 1 := ⟨count - 1, by omega⟩
  have hinside' : inside = decide (0 < q.functionDepth) := by rw [hq.functionDepth_eq, hinside]
  obtain ⟨ss, r, es', n, hr, hes', hn, hgoes⟩ :=
    hleft hstop hq.rest_eq hmore hinside' (show 2 * q.rest.length + 2 ≤ fuel by omega)
      (show q.rest.length ≤ count by omega)
  refine ⟨s.toList ++ ss, r, es ++ es', n, hq.trans hr, hes.append hes', hn, ?_⟩
  intro ss' r' hrest
  have hcurrent : p.current = t := by rw [current, hp]; rfl
  have hgoesOn : stop p = false := hstop p (by rwa [hcurrent])
  rw [declarations, Run.bind_of_ok Run.get_apply, if_neg (by simp [hgoesOn]), Run.bind_of_ok hrun,
    Run.bind_of_ok (hgoes _ _ hrest), List.append_assoc]
  rfl

theorem overcome_of_recovering {t : Token} (ht : t.kind ∉ [.rightBrace, .eof])
    (h : ∀ ⦃fuel : Nat⦄ ⦃p : Parser⦄ ⦃more : List Token⦄, p.rest = t :: ts ++ more → NoBranch more →
      inside = decide (0 < p.functionDepth) → 2 * p.rest.length + 2 ≤ fuel →
      Through (recovering (declaration fuel)) p more ms) :
    Overcome inside (t :: ts) ms := by
  have hall : Overcome inside (t :: ts) (ms ++ []) := overcome_of_left ht (Nat.zero_le _) overcome_nil h
  rwa [List.append_nil] at hall

private theorem blockBody_through (h : Overcome inside ts ms) {closing : Token}
    (hclosing : closing.kind = .rightBrace) (hp : p.rest = ts ++ closing :: more)
    (hinside : inside = decide (0 < p.functionDepth)) (hfuel : 2 * p.rest.length + 2 ≤ fuel) :
    Through (blockBody fuel (declaration fuel)) p more ms := by
  let stop (p : Parser) : Bool := p.current.kind == .rightBrace || p.isAtEnd
  have hstop : StopsAtEnd stop := by
    intro p hkind
    simp only [List.mem_cons, List.not_mem_nil, or_false, not_or] at hkind
    simp [stop, isAtEnd, hkind]
  let opened : Parser := { p with blockDepth := p.blockDepth + 1 }
  obtain ⟨ss, q, es, n, hq, hes, hn, hgoes⟩ :=
    h (p := opened) hstop hp (by simp [NoBranch, hclosing]) hinside hfuel
      (show p.rest.length ≤ fuel by omega)
  have hcurrent : q.current.kind = .rightBrace := by rwa [current, hq.rest_eq]
  have hend : declarations stop (declaration fuel) n q = .ok [] q := by
    have hpos := length_pos_of_mark hcurrent rfl
    obtain ⟨n, rfl⟩ : ∃ k, n = k + 1 := ⟨n - 1, by omega⟩
    rw [declarations, Run.bind_of_ok Run.get_apply, if_pos (by simp [stop, hcurrent])]
    rfl
  let closed : Parser := { q with blockDepth := q.blockDepth - 1 }
  have hclosed : closed.current.kind = .rightBrace := hcurrent
  have hnext : Arrives closed [] more closed.next := arrives_next hq.rest_eq (by simp [hclosing])
  have hconsume : discard (consume .rightBrace "'\x7d' after block") closed = .ok () closed.next :=
    Run.map_of_ok (consume_of_mark _ hclosed rfl)
  refine ⟨ss, closed.next, es, ?_, ?_, hes⟩
  · have hrun := hgoes _ _ hend
    rw [List.append_nil] at hrun
    rw [blockBody_of_ok hrun, Run.bind_of_ok hconsume]
    rfl
  · have harrives := hq.closed.trans hnext
    rwa [List.append_nil] at harrives

theorem blockStatement_through (h : Overcome inside ts ms) {opening closing : Token}
    (hopening : opening.kind = .leftBrace) (hclosing : closing.kind = .rightBrace)
    (hp : p.rest = opening :: (ts ++ [closing]) ++ more)
    (hinside : inside = decide (0 < p.functionDepth)) (hfuel : 2 * p.rest.length + 1 ≤ fuel) :
    Through (statement fuel) p more ms := by
  rw [List.cons_append, List.append_assoc, List.singleton_append] at hp
  have hcurrent : p.current.kind = .leftBrace := by rwa [current, hp]
  have hnext := arrives_next hp (by simp [hopening])
  have hlength := (passes_mark hcurrent rfl).length_lt
  obtain ⟨fuel, rfl⟩ : ∃ k, fuel = k + 1 := ⟨fuel - 1, by omega⟩
  have hinside' : inside = decide (0 < p.next.functionDepth) := by
    rw [hnext.functionDepth_eq, hinside]
  obtain ⟨ss, q, es, hrun, hq, hes⟩ :=
    blockBody_through h hclosing hnext.rest_eq hinside' (show _ ≤ fuel by omega)
  refine ⟨.block ss (p.current.span.through q.previous.span), q, es, ?_, hnext.trans hq, hes⟩
  rw [statement, Run.bind_of_ok (peekKind_apply p), hcurrent]
  change blockStatement fuel (declaration fuel) p = _
  rw [blockStatement, Run.bind_of_ok (advance_of_mark hcurrent rfl), Run.bind_of_ok hrun]
  rfl

private theorem inFunction_through {body : Parse α}
    (h : Through body { p with functionDepth := p.functionDepth + 1 } more ms) :
    Through (inFunction body) p more ms := by
  obtain ⟨a, q, es, hrun, hq, hes⟩ := h
  exact ⟨a, _, es, inFunction_of_ok hrun, hq.left, hes⟩

private theorem functionHead_read {name : String} {params : List String} {head : List Token}
    (hhead : head.map Token.word = functionWords name params) (hp : p.rest = head ++ more)
    (hfuel : p.rest.length ≤ fuel) (decl : Parse Stmt) :
    ∃ q, Arrives p [] more q ∧ functionDeclaration fuel decl p =
      (discard (consume .leftBrace "'\x7b' before function body") >>= fun _ =>
        inFunction (blockBody fuel decl) >>= fun body => spanFrom p.current.span >>= fun span =>
          pure (.function name params body span)) q := by
  have hahead := ahead_eq_append hp hhead
  simp only [functionWords, List.cons_append, List.append_assoc] at hahead
  obtain ⟨hmark, hp₁⟩ := passes_mark_ahead hahead rfl
  obtain ⟨hname, hp₂⟩ := passes_name_ahead hp₁
  obtain ⟨hopen, hp₃⟩ := passes_mark_ahead hp₂ rfl
  have hbegin := (hmark.trans hname).trans hopen
  have hlength := hbegin.length_le
  have hcount : p.next.next.next.rest.length ≤ fuel := by omega
  have hparam (n : String) (_ : n ∈ params) ⦃p : Parser⦄ ⦃more : List Word⦄
      (hp : p.ahead = [.name n] ++ more) (_ : Loose 0 more) (_ : p.rest.length ≤ fuel) :
      Finds (expectName "parameter name") p [.name n] fun n' => id n' = id n :=
    ⟨n, p.next, expectName_ahead hp _, (passes_name_ahead hp).1, rfl⟩
  obtain ⟨params', q, hrun, hpassed, hparams⟩ := listed_finds hparam
    (fun n _ => ⟨.name n, [], rfl, by simp [Word.kind]⟩) hp₃ hcount hcount
  obtain rfl : params' = params := by simpa using hparams
  have hq := hpassed.ahead_of hp₃
  obtain ⟨hclose, hq₁⟩ := passes_mark_ahead hq rfl
  have hall : Passes p (functionWords name params') q.next := (hbegin.trans hpassed).trans hclose
  refine ⟨q.next, hall.arrives hp hhead, ?_⟩
  rw [functionDeclaration, Run.bind_of_ok (advance_of_mark (current_mark hahead) rfl),
    Run.bind_of_ok (expectName_ahead hp₁ _), Run.bind_of_ok (consume_ahead hp₂ rfl _),
    Run.bind_of_ok hrun, Run.bind_of_ok (consume_ahead hq rfl _)]

theorem functionOpening_read {name : String} {params : List String} {head : List Token}
    (hhead : head.map Token.word = functionWords name params) {opening : Token}
    (hopening : opening.kind = .leftBrace) (hp : p.rest = head ++ opening :: more)
    (hfuel : p.rest.length ≤ fuel) :
    ∃ q, Arrives p [] more q ∧ q.rest.length < p.rest.length ∧ declaration (fuel + 1) p =
      (inFunction (blockBody fuel (declaration fuel)) >>= fun body => spanFrom p.current.span >>=
        fun span => pure (.function name params body span)) q := by
  have hcurrent : p.current.kind = .funzione := by
    have hahead := ahead_eq_append hp hhead
    exact current_mark hahead
  obtain ⟨q, hq, hread⟩ := functionHead_read hhead hp hfuel (declaration fuel)
  have hbrace : q.current.kind = .leftBrace := by rwa [current, hq.rest_eq]
  have hnext := arrives_next hq.rest_eq (by simp [hopening])
  have hlength : q.next.rest.length < p.rest.length := by
    rw [hnext.rest_eq, hp]
    simp only [List.length_append, List.length_cons]
    omega
  have hconsume : discard (consume .leftBrace "'\x7b' before function body") q = .ok () q.next :=
    Run.map_of_ok (consume_of_mark _ hbrace rfl)
  refine ⟨q.next, hq.trans hnext, hlength, ?_⟩
  rw [declaration, Run.bind_of_ok (peekKind_apply p), hcurrent]
  change functionDeclaration fuel (declaration fuel) p = _
  rw [hread, Run.bind_of_ok hconsume]

theorem functionDeclaration_through (h : Overcome true ts ms) {name : String} {params : List String}
    {head : List Token} (hhead : head.map Token.word = functionWords name params)
    {opening closing : Token} (hopening : opening.kind = .leftBrace)
    (hclosing : closing.kind = .rightBrace)
    (hp : p.rest = head ++ opening :: (ts ++ [closing]) ++ more)
    (hfuel : 2 * p.rest.length + 2 ≤ fuel) : Through (declaration fuel) p more ms := by
  obtain ⟨fuel, rfl⟩ : ∃ k, fuel = k + 1 := ⟨fuel - 1, by omega⟩
  rw [List.append_assoc, List.cons_append, List.append_assoc, List.singleton_append] at hp
  obtain ⟨q, hq, hlength, hread⟩ := functionOpening_read hhead hopening hp
    (show p.rest.length ≤ fuel by omega)
  let entered : Parser := { q with functionDepth := q.functionDepth + 1 }
  have hbody : Through (blockBody fuel (declaration fuel)) entered more ms :=
    blockBody_through h hclosing hq.rest_eq (by simp [entered])
      (show 2 * q.rest.length + 2 ≤ fuel by omega)
  obtain ⟨body, r, es, hrun, hr, hes⟩ := inFunction_through hbody
  refine ⟨.function name params body (p.current.span.through r.previous.span), r, es, ?_,
    hq.trans hr, hes⟩
  rw [hread, Run.bind_of_ok hrun]
  rfl

theorem loopHead_read {condition : Expr} (hcondition : condition.WellFormed) {head : List Token}
    (hhead : head.map Token.word = headWords .mentre condition) (hp : p.rest = head ++ more)
    (hfuel : 2 * p.rest.length ≤ fuel) :
    ∃ condition' q, Arrives p [] more q ∧ statement (fuel + 1) p =
      (statement fuel >>= fun body => spanFrom p.current.span >>= fun span =>
        pure (.loop condition' body span)) q := by
  have hahead := ahead_eq_append hp hhead
  simp only [headWords, List.cons_append, List.append_assoc] at hahead
  obtain ⟨condition', q, hopen, hparen, hrun, hclose, -, hpassed, -⟩ :=
    condition_finds (readBack hcondition).expression rfl hahead hfuel
  refine ⟨condition', q.next, hpassed.arrives hp hhead, ?_⟩
  rw [statement, Run.bind_of_ok (peekKind_apply p), current_mark hahead]
  change whileStatement (expression fuel) (statement fuel) p = _
  rw [whileStatement, Run.bind_of_ok (advance_of_mark (current_mark hahead) rfl),
    Run.bind_of_ok (hopen _), Run.bind_of_ok (check_apply _ _), if_neg (by simpa using hparen)]
  change (expression fuel >>= fun _ => discard (consume .rightParen _) >>= fun _ =>
    statement fuel >>= fun _ => _) _ = _
  rw [Run.bind_of_ok hrun, Run.bind_of_ok (hclose _)]

theorem condHead_read {condition : Expr} (hcondition : condition.WellFormed) {head : List Token}
    (hhead : head.map Token.word = headWords .se condition) (hp : p.rest = head ++ more)
    (hfuel : 2 * p.rest.length ≤ fuel) :
    ∃ condition' q, Arrives p [] more q ∧ statement (fuel + 1) p =
      (statement fuel >>= fun thenBranch => accept .oppure >>= fun given =>
        (if given then some <$> statement fuel else pure none) >>= fun elseBranch =>
          spanFrom p.current.span >>= fun span =>
            pure (.cond condition' thenBranch elseBranch span)) q := by
  have hahead := ahead_eq_append hp hhead
  simp only [headWords, List.cons_append, List.append_assoc] at hahead
  obtain ⟨condition', q, hopen, -, hrun, hclose, -, hpassed, -⟩ :=
    condition_finds (readBack hcondition).expression rfl hahead hfuel
  refine ⟨condition', q.next, hpassed.arrives hp hhead, ?_⟩
  rw [statement, Run.bind_of_ok (peekKind_apply p), current_mark hahead]
  change ifStatement (expression fuel) (statement fuel) p = _
  rw [ifStatement, Run.bind_of_ok (advance_of_mark (current_mark hahead) rfl),
    Run.bind_of_ok (hopen _), Run.bind_of_ok hrun, Run.bind_of_ok (hclose _)]
  refine congrArg (fun f => (statement fuel >>= f) q.next) ?_
  funext thenBranch
  refine congrArg (accept .oppure >>= ·) ?_
  funext given
  cases given <;> rfl

end Parser
end Copione
