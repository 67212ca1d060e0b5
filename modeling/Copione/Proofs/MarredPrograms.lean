import Copione.Proofs.FlawedRuns
import Copione.Proofs.MalformedStatements
/-!
# Programs with malformed statements in them

Any number of the declarations of a well-formed program may be replaced by malformed simple
statements, and so may the branches and the bodies of loops. Each of these flaws is reported once, at
one of its tokens, and nothing else is.
-/
namespace Copione

mutual

/-- The tokens `ts` say the statement `s`, but for the flaws `ms` that stand in the places of some of
its parts. If it is cut, the last flaw takes the place of a branch, of the body of a loop or of the
whole statement; otherwise all of them stand in blocks. -/
inductive Marred : (inside branch cut : Bool) → Stmt → List Token → List (List Token) → Prop
  | sound {inside branch : Bool} {s : Stmt} {ts : List Token} (hts : ts.map Token.word = s.words) :
    Marred inside branch false s ts []
  | flaw {inside branch : Bool} {m : List Token} (hm : Malformed inside branch m) (s : Stmt) :
    Marred inside branch true s m [m]
  | block {inside branch : Bool} {body : List Stmt} {opening closing : Token} {ts : List Token}
    {ms : List (List Token)} (hopening : opening.kind = .leftBrace)
    (hbody : MarredAll inside body ts ms) (hclosing : closing.kind = .rightBrace) (span : Span) :
    Marred inside branch false (.block body span) (opening :: (ts ++ [closing])) ms
  | function {inside branch : Bool} {name : String} {params : List String} {body : List Stmt}
    {head ts : List Token} {opening closing : Token} {ms : List (List Token)}
    (hhead : head.map Token.word = functionWords name params) (hopening : opening.kind = .leftBrace)
    (hbody : MarredAll true body ts ms) (hclosing : closing.kind = .rightBrace) (span : Span) :
    Marred inside branch false (.function name params body span)
      (head ++ opening :: (ts ++ [closing])) ms
  | loop {inside branch cut : Bool} {condition : Expr} {body : Stmt} {head ts : List Token}
    {ms : List (List Token)} (hhead : head.map Token.word = headWords .mentre condition)
    (hbody : Marred inside true cut body ts ms) (span : Span) :
    Marred inside branch cut (.loop condition body span) (head ++ ts) ms
  | onlyThen {inside branch cut : Bool} {condition : Expr} {thenBranch : Stmt} {head ts : List Token}
    {ms : List (List Token)} (hhead : head.map Token.word = headWords .se condition)
    (hthen : Marred inside true cut thenBranch ts ms) (span : Span) :
    Marred inside branch cut (.cond condition thenBranch none span) (head ++ ts) ms
  | thenElse {inside branch cut : Bool} {condition : Expr} {thenBranch elseBranch : Stmt}
    {head ts ts' : List Token} {sign : Token} {ms ms' : List (List Token)}
    (hhead : head.map Token.word = headWords .se condition)
    (hthen : Marred inside true false thenBranch ts ms) (hsign : sign.kind = .oppure)
    (helse : Marred inside true cut elseBranch ts' ms') (span : Span) :
    Marred inside branch cut (.cond condition thenBranch (some elseBranch) span)
      (head ++ (ts ++ sign :: ts')) (ms ++ ms')
  | cutThen {inside branch : Bool} {condition : Expr} {thenBranch elseBranch : Stmt}
    {head ts ts' : List Token} {sign : Token} {ms : List (List Token)}
    (hhead : head.map Token.word = headWords .se condition)
    (hthen : Marred inside true true thenBranch ts ms) (hsign : sign.kind = .oppure)
    (helse : ts'.map Token.word = elseBranch.words) (span : Span) :
    Marred inside branch true (.cond condition thenBranch (some elseBranch) span)
      (head ++ (ts ++ sign :: ts')) ms

inductive MarredAll : (inside : Bool) → List Stmt → List Token → List (List Token) → Prop
  | nil {inside : Bool} : MarredAll inside [] [] []
  | cons {inside cut : Bool} {s : Stmt} {ss : List Stmt} {ts ts' : List Token}
    {ms ms' : List (List Token)} (h : Marred inside false cut s ts ms)
    (hs : MarredAll inside ss ts' ms') : MarredAll inside (s :: ss) (ts ++ ts') (ms ++ ms')

end

private theorem Marred.begins {inside branch cut : Bool} {s : Stmt} {ts : List Token}
    {ms : List (List Token)} (h : Marred inside branch cut s ts ms) :
    ∃ t rest, ts = t :: rest ∧ t.kind ∉ [.rightBrace, .eof, .oppure] := by
  cases h with
  | sound hts => exact Parser.begins_of_words hts
  | @flaw inside branch m hm s =>
    obtain ⟨t, rest, rfl⟩ := List.exists_cons_of_ne_nil hm.ne_nil
    refine ⟨t, rest, rfl, ?_⟩
    have hbrace := hm.kind_ne_rightBrace List.mem_cons_self
    have heof := hm.kind_ne_eof List.mem_cons_self
    have hoppure := hm.begins t rfl
    simp [hbrace, heof, hoppure]
  | block hopening hbody hclosing span => exact ⟨_, _, rfl, by simp [hopening]⟩
  | function hhead hopening hbody hclosing span => exact Parser.begins_of_mark hhead (by decide)
  | loop hhead hbody span => exact Parser.begins_of_mark hhead (by decide)
  | onlyThen hhead hthen span => exact Parser.begins_of_mark hhead (by decide)
  | thenElse hhead hthen hsign helse span => exact Parser.begins_of_mark hhead (by decide)
  | cutThen hhead hthen hsign helse span => exact Parser.begins_of_mark hhead (by decide)

private theorem MarredAll.begins {inside : Bool} {ss : List Stmt} {ts : List Token}
    {ms : List (List Token)}
    (h : MarredAll inside ss ts ms) : Parser.Begins ts := by
  cases h with
  | nil => simp [Parser.Begins]
  | cons h hs =>
    obtain ⟨t, rest, rfl, ht⟩ := h.begins
    intro t' ht'
    obtain rfl : t = t' := by simpa using ht'
    exact ht

namespace Parser

variable {p q : Parser} {ts ts' more : List Token} {ms ms' : List (List Token)} {fuel : Nat}
  {inside branch cut : Bool} {s : Stmt} {α β : Type} {x : Parse α}

def reader (branch : Bool) (fuel : Nat) : Parse Stmt :=
  if branch then statement fuel else declaration fuel

def Ends (cut : Bool) (x : Parse α) (p : Parser) (more : List Token) (ms : List (List Token)) : Prop :=
  if cut then Stumble x p more ms else Through x p more ms

def Outcome (inside branch cut : Bool) (s : Stmt) (ts : List Token) (ms : List (List Token)) : Prop :=
  ∀ ⦃fuel : Nat⦄ ⦃p : Parser⦄ ⦃more : List Token⦄, p.rest = ts ++ more →
    (cut = false → s.endsOpen → NoBranch more) → inside = decide (0 < p.functionDepth) →
    2 * p.rest.length + (if branch then 1 else 2) ≤ fuel → Ends cut (reader branch fuel) p more ms

private theorem Ends.of_eq {y : Parse α} (h : Ends cut y q more ms) (hq : Arrives p [] ts q)
    (hx : x p = y q) : Ends cut x p more ms := by
  cases cut with
  | false =>
    obtain ⟨a, r, es, hy, hr, hes⟩ := h
    exact ⟨a, r, es, hx.trans hy, hq.trans hr, hes⟩
  | true =>
    obtain ⟨e, r, es, hy, hr, hresumes, hes⟩ := h
    exact ⟨e, r, es, hx.trans hy, hq.trans hr, hresumes, hes⟩

private theorem Ends.bind {f : α → Parse β} (h : Ends cut x p more ms)
    (hf : ∀ a q, q.rest = more → ∃ b, f a q = .ok b q) : Ends cut (x >>= f) p more ms := by
  cases cut with
  | false =>
    obtain ⟨a, r, es, hx, hr, hes⟩ := h
    obtain ⟨b, hb⟩ := hf a r hr.rest_eq
    exact ⟨b, r, es, (Run.bind_of_ok hx).trans hb, hr, hes⟩
  | true => exact Stumble.bind h f

private theorem current_kind_ne_oppure (hp : p.rest = more) (h : NoBranch more) :
    p.current.kind ≠ .oppure := by
  subst hp
  unfold current
  cases hrest : p.rest with
  | nil => simp
  | cons t rest => exact h t (by simp [hrest])

private theorem outcome_of_statement {t : Token} (ht : t.kind ∉ [.variabile, .funzione])
    (h : ∀ ⦃fuel : Nat⦄ ⦃p : Parser⦄ ⦃more : List Token⦄, p.rest = t :: ts ++ more →
      (cut = false → s.endsOpen → NoBranch more) → inside = decide (0 < p.functionDepth) →
      2 * p.rest.length + 1 ≤ fuel → Ends cut (statement fuel) p more ms) :
    Outcome inside branch cut s (t :: ts) ms := by
  intro fuel p more hp hmore hinside hfuel
  cases branch with
  | true => exact h hp hmore hinside hfuel
  | false =>
    have hcurrent : p.current = t := by rw [current, hp]; rfl
    simp only [List.mem_cons, List.not_mem_nil, or_false, not_or] at ht
    simp only [Bool.false_eq_true, if_false] at hfuel
    obtain ⟨fuel, rfl⟩ : ∃ k, fuel = k + 1 := ⟨fuel - 1, by omega⟩
    have hends : Ends cut (statement fuel) p more ms := h hp hmore hinside (by omega)
    apply hends.of_eq (arrives_self rfl)
    exact declaration_of_statement (by rw [hcurrent]; exact ht.1) (by rw [hcurrent]; exact ht.2)

theorem outcome_sound (hs : s.WellFormed inside) (hkind : branch → s.isDeclaration = false)
    (hts : ts.map Token.word = s.words) : Outcome inside branch false s ts [] := by
  intro fuel p more hp hmore hinside hfuel
  have hahead := ahead_eq_append hp hts
  have hends : s.Ends (more.map Token.word) := by
    intro hopen hhead
    cases more with
    | nil => simp at hhead
    | cons t more =>
      have ht : t.word = .mark .oppure := Option.some.inj hhead
      refine hmore rfl hopen t rfl ?_
      rw [← Token.word_kind, ht]
      rfl
  have hinside' : inside → 0 < p.functionDepth := by
    rintro rfl
    exact of_decide_eq_true hinside.symm
  obtain ⟨hdeclaration, hstatement⟩ := readsDeclaration_of_wellFormed hs
  cases branch with
  | true =>
    obtain ⟨s', q, hrun, hpassed, -⟩ := hstatement (hkind rfl) hahead hends hinside' hfuel
    exact ⟨s', q, [], hrun, hpassed.arrives hp hts, .nil⟩
  | false =>
    obtain ⟨s', q, hrun, hpassed, -⟩ := hdeclaration hahead hends hinside' hfuel
    exact ⟨s', q, [], hrun, hpassed.arrives hp hts, .nil⟩

private theorem outcome_flaw {m : List Token} (hm : Malformed inside branch m) (s : Stmt) :
    Outcome inside branch true s m [m] := by
  intro fuel p more hp _ hinside hfuel
  have hfails : FailsAt m more p (reader branch fuel) p := by
    cases branch with
    | true => exact hm.statement_fails hp hinside hfuel fun s hs hkind => hm.unread s hs fun _ => hkind
    | false => exact hm.declaration_fails hp hinside hfuel
  obtain ⟨e, q, hrun, hq, he⟩ := hfails
  refine ⟨e, q, [], hrun, ?_, hm.resumesAt hq, .cons he .nil⟩
  refine ⟨rfl, ?_, hq.functionDepth_eq, hq.blockDepth_eq⟩
  rw [hq.errors_eq, List.append_nil]

theorem outcome_block (h : Overcome inside ts ms) {opening closing : Token}
    (hopening : opening.kind = .leftBrace) (hclosing : closing.kind = .rightBrace) :
    Outcome inside branch false s (opening :: (ts ++ [closing])) ms := by
  apply outcome_of_statement (by simp [hopening])
  intro fuel p more hp _ hinside hfuel
  exact blockStatement_through h hopening hclosing hp hinside hfuel

theorem outcome_function (h : Overcome true ts ms) {name : String} {params : List String}
    {head : List Token} (hhead : head.map Token.word = functionWords name params)
    {opening closing : Token} (hopening : opening.kind = .leftBrace)
    (hclosing : closing.kind = .rightBrace) :
    Outcome inside false false s (head ++ opening :: (ts ++ [closing])) ms := by
  intro fuel p more hp _ _ hfuel
  exact functionDeclaration_through h hhead hopening hclosing hp hfuel

private theorem outcome_of_head {kind : TokenKind} {condition : Expr} {head : List Token}
    (hhead : head.map Token.word = headWords kind condition) (hkind : kind ∉ [.variabile, .funzione])
    (h : ∀ ⦃fuel : Nat⦄ ⦃p : Parser⦄ ⦃more : List Token⦄, p.rest = head ++ (ts ++ more) →
      (cut = false → s.endsOpen → NoBranch more) → inside = decide (0 < p.functionDepth) →
      2 * (ts ++ more).length + 1 ≤ fuel → 2 * p.rest.length ≤ fuel →
      Ends cut (statement (fuel + 1)) p more ms) :
    Outcome inside branch cut s (head ++ ts) ms := by
  obtain ⟨t, rest, rfl, ht, -⟩ := List.map_eq_cons_iff.mp hhead
  have hfirst : t.kind ∉ [.variabile, .funzione] := by
    rw [← Token.word_kind, ht]
    exact hkind
  apply outcome_of_statement hfirst
  intro fuel p more hp hmore hinside hfuel
  obtain ⟨fuel, rfl⟩ : ∃ k, fuel = k + 1 := ⟨fuel - 1, by omega⟩
  replace hp : p.rest = t :: rest ++ (ts ++ more) := by
    rw [hp]
    simp
  have hlength := congrArg List.length hp
  rw [List.length_append, List.length_cons] at hlength
  exact h hp hmore hinside (by omega) (by omega)

theorem outcome_loop {condition : Expr} {body : Stmt} {head : List Token} (span : Span)
    (hcondition : condition.WellFormed) (hhead : head.map Token.word = headWords .mentre condition)
    (hbody : Outcome inside true cut body ts ms) :
    Outcome inside branch cut (.loop condition body span) (head ++ ts) ms := by
  apply outcome_of_head hhead (by decide)
  intro fuel p more hp hmore hinside hfuel hfuel'
  obtain ⟨condition', q, hq, hread⟩ := loopHead_read hcondition hhead hp hfuel'
  have hinside' : inside = decide (0 < q.functionDepth) := by rw [hq.functionDepth_eq, hinside]
  have hends : Ends cut (statement fuel) q more ms :=
    hbody hq.rest_eq hmore hinside' (by rw [hq.rest_eq]; exact hfuel)
  apply (hends.bind _).of_eq hq hread
  intro body' r _
  exact ⟨_, rfl⟩

theorem outcome_onlyThen {condition : Expr} {thenBranch : Stmt} {head : List Token} (span : Span)
    (hcondition : condition.WellFormed) (hhead : head.map Token.word = headWords .se condition)
    (hthen : Outcome inside true cut thenBranch ts ms) :
    Outcome inside branch cut (.cond condition thenBranch none span) (head ++ ts) ms := by
  apply outcome_of_head hhead (by decide)
  intro fuel p more hp hmore hinside hfuel hfuel'
  obtain ⟨condition', q, hq, hread⟩ := condHead_read hcondition hhead hp hfuel'
  have hinside' : inside = decide (0 < q.functionDepth) := by rw [hq.functionDepth_eq, hinside]
  have hends : Ends cut (statement fuel) q more ms :=
    hthen hq.rest_eq (fun hcut _ => hmore hcut rfl) hinside' (by rw [hq.rest_eq]; exact hfuel)
  cases cut with
  | true => exact Ends.of_eq (Stumble.bind hends _) hq hread
  | false =>
    apply (hends.bind _).of_eq hq hread
    intro thenBranch' r hr
    have hoppure := current_kind_ne_oppure hr (hmore rfl rfl)
    exact ⟨_, by rw [Run.bind_of_ok (accept_of_ne hoppure)]; rfl⟩

theorem outcome_thenElse {condition : Expr} {thenBranch elseBranch : Stmt} {head : List Token}
    {sign : Token} (span : Span) (hcondition : condition.WellFormed)
    (hclosed : thenBranch.endsOpen = false) (hhead : head.map Token.word = headWords .se condition)
    (hthen : Outcome inside true false thenBranch ts ms) (hsign : sign.kind = .oppure)
    (helse : Outcome inside true cut elseBranch ts' ms') :
    Outcome inside branch cut (.cond condition thenBranch (some elseBranch) span)
      (head ++ (ts ++ sign :: ts')) (ms ++ ms') := by
  apply outcome_of_head hhead (by decide)
  intro fuel p more hp hmore hinside hfuel hfuel'
  rw [List.append_assoc, List.cons_append] at hp hfuel
  obtain ⟨condition', q, hq, hread⟩ := condHead_read hcondition hhead hp hfuel'
  have hinside' : inside = decide (0 < q.functionDepth) := by rw [hq.functionDepth_eq, hinside]
  have hends : Through (statement fuel) q (sign :: (ts' ++ more)) ms := by
    apply hthen hq.rest_eq (by simp [hclosed]) hinside'
    rw [hq.rest_eq]
    exact hfuel
  have hbranch (r : Parser) (es : List CompileError) (hr : Arrives q es (sign :: (ts' ++ more)) r) :
      accept .oppure r = .ok true r.next ∧ Arrives r [] (ts' ++ more) r.next ∧
        Ends cut (statement fuel) r.next more ms' := by
    have hcurrent : r.current.kind = .oppure := by rwa [current, hr.rest_eq]
    have hnext := arrives_next hr.rest_eq (by simp [hsign])
    refine ⟨by rw [accept_apply, if_pos hcurrent], hnext, ?_⟩
    apply helse hnext.rest_eq hmore
    · rw [hnext.functionDepth_eq, hr.functionDepth_eq, hinside']
    · rw [hnext.rest_eq]
      simp only [List.length_append, List.length_cons, if_true] at hfuel ⊢
      omega
  refine Ends.of_eq ?_ hq hread
  cases cut with
  | false =>
    apply Through.bind hends
    intro thenBranch' r es hr
    obtain ⟨haccept, hnext, elseBranch', r', es', hrun, hr', hes'⟩ := hbranch r es hr
    refine ⟨.cond condition' thenBranch' (some elseBranch') (p.current.span.through r'.previous.span),
      r', es', ?_, hnext.trans hr', hes'⟩
    rw [Run.bind_of_ok haccept, if_pos rfl, Run.bind_of_ok (Run.map_of_ok hrun)]
    rfl
  | true =>
    apply Through.bind_stumble hends
    intro thenBranch' r es hr
    obtain ⟨haccept, hnext, e, r', es', hrun, hr', hresumes, hes'⟩ := hbranch r es hr
    refine ⟨e, r', es', ?_, hnext.trans hr', hresumes, hes'⟩
    rw [Run.bind_of_ok haccept, if_pos rfl, Run.bind_of_error (Run.map_of_error hrun)]

private theorem outcome_cutThen {condition : Expr} {thenBranch elseBranch : Stmt} {head : List Token}
    {sign : Token} (span : Span) (hcondition : condition.WellFormed)
    (hhead : head.map Token.word = headWords .se condition)
    (hthen : Outcome inside true true thenBranch ts ms) (hsign : sign.kind = .oppure)
    (helse : elseBranch.WellFormed inside) (helseKind : elseBranch.isDeclaration = false)
    (hts' : ts'.map Token.word = elseBranch.words) :
    Outcome inside branch true (.cond condition thenBranch (some elseBranch) span)
      (head ++ (ts ++ sign :: ts')) ms := by
  apply outcome_of_head hhead (by decide)
  intro fuel p more hp _ hinside hfuel hfuel'
  rw [List.append_assoc] at hp hfuel
  obtain ⟨condition', q, hq, hread⟩ := condHead_read hcondition hhead hp hfuel'
  have hinside' : inside = decide (0 < q.functionDepth) := by rw [hq.functionDepth_eq, hinside]
  have hskipped : SkippedBranches (sign :: ts') := by
    obtain ⟨first, others, rfl, hfirst, hothers⟩ := skipped_of_wellFormed helse helseKind hts'
    exact .cons hsign hfirst hothers
  have hstumble : Stumble (statement fuel) q (sign :: ts' ++ more) ms := by
    apply hthen hq.rest_eq (by simp) hinside'
    rw [hq.rest_eq]
    exact hfuel
  obtain ⟨e, r, es, hrun, hr, hresumes, hes⟩ := hstumble
  refine Ends.of_eq ?_ hq hread
  exact Stumble.bind ⟨e, r, es, hrun, hr, hresumes.past hskipped, hes⟩ _

theorem Outcome.overcome {t : Token} (h : Outcome inside false cut s (t :: ts) ms)
    (ht : t.kind ∉ [.rightBrace, .eof]) : Overcome inside (t :: ts) ms := by
  apply overcome_of_recovering ht
  intro fuel p more hp hmore hinside hfuel
  have hends := h hp (fun _ _ => hmore) hinside hfuel
  cases cut with
  | false => exact Through.recovering hends
  | true => exact Stumble.recovering hends hmore

end Parser

open Copione.Parser

mutual

theorem Marred.outcome {inside branch cut : Bool} {s : Stmt} {ts : List Token}
    {ms : List (List Token)} (h : Marred inside branch cut s ts ms) (hs : s.WellFormed inside)
    (hkind : branch → s.isDeclaration = false) : Outcome inside branch cut s ts ms := by
  cases h with
  | sound hts => exact outcome_sound hs hkind hts
  | flaw hm => exact outcome_flaw hm s
  | block hopening hbody hclosing span =>
    cases hs with
    | block hs => exact outcome_block (hbody.overcome hs) hopening hclosing
  | function hhead hopening hbody hclosing span =>
    cases hs with
    | function hs =>
      cases branch with
      | true => cases hkind rfl
      | false => exact outcome_function (hbody.overcome hs) hhead hopening hclosing
  | loop hhead hbody span =>
    cases hs with
    | loop hcondition hs hbodyKind =>
      exact outcome_loop span hcondition hhead (hbody.outcome hs fun _ => hbodyKind)
  | onlyThen hhead hthen span =>
    cases hs with
    | cond hcondition hs hthenKind =>
      exact outcome_onlyThen span hcondition hhead (hthen.outcome hs fun _ => hthenKind)
  | thenElse hhead hthen hsign helse span =>
    cases hs with
    | cond hcondition hs hthenKind hs' helseKind hclosed =>
      exact outcome_thenElse span hcondition (hclosed rfl) hhead
        (hthen.outcome hs fun _ => hthenKind) hsign
        (helse.outcome (hs' _ rfl) fun _ => helseKind _ rfl)
  | cutThen hhead hthen hsign helse span =>
    cases hs with
    | cond hcondition hs hthenKind hs' helseKind hclosed =>
      exact outcome_cutThen span hcondition hhead (hthen.outcome hs fun _ => hthenKind) hsign
        (hs' _ rfl) (helseKind _ rfl) helse

theorem MarredAll.overcome {inside : Bool} {ss : List Stmt} {ts : List Token}
    {ms : List (List Token)} (h : MarredAll inside ss ts ms) (hs : ∀ s ∈ ss, s.WellFormed inside) :
    Overcome inside ts ms := by
  cases h with
  | nil => exact overcome_nil
  | cons h hrest =>
    have hfirst := h.outcome (hs _ List.mem_cons_self) (by simp)
    have hothers := hrest.overcome fun s hmem => hs s (List.mem_cons_of_mem _ hmem)
    obtain ⟨t, rest, rfl, ht⟩ := h.begins
    exact (hfirst.overcome (by simp_all)).append hothers hrest.begins

end

namespace Program

/-- Tokens that the parser gets over are told their flaws, and nothing else. -/
theorem parse_of_overcome {ts : List Token} {ms : List (List Token)} (h : Overcome false ts ms)
    {last : Token} (hlast : last.kind = .eof) :
    (ms = [] → ∃ ss, parse (ts ++ [last]) = .ok ss) ∧
      (ms ≠ [] → ∃ es, parse (ts ++ [last]) = .error es ∧ Reported ms es) := by
  let tokens := ts ++ [last]
  have hfuel : fuelFor tokens.length = 4 * tokens.length + 4 := rfl
  have hstop : StopsAtEnd isAtEnd := by
    intro p hkind
    simp only [List.mem_cons, List.not_mem_nil, or_false, not_or] at hkind
    simp [isAtEnd, hkind]
  have hnoBranch : NoBranch [last] := by simp [NoBranch, hlast]
  have hsteps : 2 * (ofTokens tokens).rest.length + 2 ≤ fuelFor tokens.length := by
    change 2 * tokens.length + 2 ≤ _
    omega
  have hcount : (ofTokens tokens).rest.length ≤ fuelFor tokens.length := by omega
  obtain ⟨ss, q, es, n, hq, hes, hn, hgoes⟩ := h hstop rfl hnoBranch rfl hsteps hcount
  have hend : declarations isAtEnd (declaration (fuelFor tokens.length)) n q = .ok [] q := by
    rw [hq.rest_eq, List.length_singleton] at hn
    obtain ⟨n, rfl⟩ : ∃ k, n = k + 1 := ⟨n - 1, by omega⟩
    have hatEnd : q.isAtEnd = true := by simp [isAtEnd, current, hq.rest_eq, hlast]
    rw [declarations, Run.bind_of_ok Run.get_apply, if_pos hatEnd]
    rfl
  have hrun : Parser.program (fuelFor tokens.length) (.ofTokens tokens) = .ok ss q := by
    have hrun := hgoes _ _ hend
    rwa [List.append_nil] at hrun
  have herrors : q.errors.toList = es := hq.errors_eq
  have hempty : q.errors.isEmpty = es.isEmpty := by rw [← herrors, Array.isEmpty_toList]
  have hparse : parse tokens = if es.isEmpty then .ok ss else .error es := by
    rw [parse, hrun]
    dsimp only
    rw [hempty, herrors]
  constructor
  · rintro rfl
    obtain rfl : es = [] := List.forall₂_nil_left_iff.mp hes
    exact ⟨ss, hparse⟩
  · intro hms
    have hes' : es ≠ [] := by
      rintro rfl
      exact hms (List.forall₂_nil_right_iff.mp hes)
    rw [if_neg (by simpa using hes')] at hparse
    exact ⟨es, hparse, hes⟩

/-- Of a well-formed program in which some declarations, branches and bodies of loops were replaced
by malformed statements, each of these is reported once, in their order, at a token of it. -/
theorem parse_marred {program : List Stmt} (hprogram : ∀ s ∈ program, s.WellFormed false)
    {ts : List Token} {ms : List (List Token)} (hmarred : MarredAll false program ts ms)
    {last : Token} (hlast : last.kind = .eof) :
    (ms = [] → ∃ ss, parse (ts ++ [last]) = .ok ss) ∧
      (ms ≠ [] → ∃ es, parse (ts ++ [last]) = .error es ∧ Reported ms es) :=
  parse_of_overcome (hmarred.overcome hprogram) hlast

/-- Three flaws: a lone `;` and a declaration as the body of a loop, both inside of a function, and a
branch that begins with a parenthesis. -/
theorem parse_marred_three_flaws :
    let at0 : Span := ⟨0, 0, 0⟩
    let a : Expr := .name "a" at0
    let body : List Stmt := [.expr a at0, .loop a (.expr a at0) at0]
    let program : List Stmt :=
      [.function "f" [] body at0, .cond a (.expr a at0) (some (.block [] at0)) at0]
    let mark (kind : TokenKind) : Token := Word.token (.mark kind)
    let name (n : String) : Token := Word.token (.name n)
    let ms : List (List Token) := [[mark .semicolon], [mark .variabile, name "a", mark .semicolon],
      [mark .rightParen, mark .semicolon]]
    let ts : List Token := [mark .funzione, name "f", mark .leftParen, mark .rightParen, mark .leftBrace,
      mark .semicolon, mark .mentre, mark .leftParen, name "a", mark .rightParen, mark .variabile,
      name "a", mark .semicolon, mark .rightBrace, mark .se, mark .leftParen, name "a",
      mark .rightParen, mark .rightParen, mark .semicolon, mark .oppure, mark .leftBrace,
      mark .rightBrace]
    (∀ s ∈ program, s.WellFormed false) ∧ MarredAll false program ts ms ∧
      ∃ es, parse (ts ++ [mark .eof]) = .error es ∧ Reported ms es := by
  intro at0 a body program mark name ms ts
  have hunread {s : Stmt} {w : Word} {ws : List Word} (hw : w.kind.beginsStmt = false) :
      s.words ≠ w :: ws := by
    intro hwords
    obtain ⟨w', ws', hwords', hw'⟩ := s.words_eq_cons
    rw [hwords] at hwords'
    obtain ⟨rfl, -⟩ := List.cons.inj hwords'
    rw [hw] at hw'
    cases hw'
  have hsemicolon : Malformed true false [mark .semicolon] :=
    ⟨⟨[], mark .semicolon, rfl, by simp, rfl⟩, by simp [mark, Word.token], by simp,
      fun s _ _ => hunread rfl⟩
  have hvar : Malformed true true [mark .variabile, name "a", mark .semicolon] := by
    refine ⟨⟨[mark .variabile, name "a"], mark .semicolon, rfl, ?_, rfl⟩, ?_, ?_, ?_⟩
    · simp [mark, name, Word.token, TokenKind.isPlain]
    · simp [mark, Word.token]
    · simp [mark, name, Word.token, TokenKind.isKeyword]
    · intro s _ hkind hwords
      obtain ⟨w, ws, hfirst, hne, -⟩ := Parser.first_of_not_declaration (hkind rfl)
      rw [hfirst] at hwords
      obtain ⟨rfl, -⟩ := List.cons.inj hwords
      exact hne rfl
  have hparen : Malformed false true [mark .rightParen, mark .semicolon] := by
    refine ⟨⟨[mark .rightParen], mark .semicolon, rfl, ?_, rfl⟩, ?_, ?_, fun s _ _ => hunread rfl⟩
    · simp [mark, Word.token, TokenKind.isPlain]
    · simp [mark, Word.token]
    · simp [mark, Word.token, TokenKind.isKeyword]
  have hprogram : ∀ s ∈ program, s.WellFormed false := by
    have hexpr (inside : Bool) : Stmt.WellFormed inside (.expr a at0) := .expr (.name _ _) _
    have hloop : Stmt.WellFormed true (.loop a (.expr a at0) at0) :=
      .loop (.name _ _) (hexpr true) rfl _
    have hbody : ∀ s ∈ body, s.WellFormed true := by simp [body, hexpr true, hloop]
    have hblock : Stmt.WellFormed false (.block [] at0) := .block (by simp) _
    have hcond : Stmt.WellFormed false (.cond a (.expr a at0) (some (.block [] at0)) at0) :=
      .cond (.name _ _) (hexpr false) rfl (by simp [hblock]) (by simp [Stmt.isDeclaration])
        (fun _ => rfl) _
    have hfunction : Stmt.WellFormed false (.function "f" [] body at0) := .function hbody _ _ _
    simp [program, hfunction, hcond]
  have hmarred : MarredAll false program ts ms := by
    let head (kind : TokenKind) : List Token :=
      [mark kind, mark .leftParen, name "a", mark .rightParen]
    let functionHead : List Token := [mark .funzione, name "f", mark .leftParen, mark .rightParen]
    let loop : List Token := head .mentre ++ [mark .variabile, name "a", mark .semicolon]
    have hloop : Marred true false true (.loop a (.expr a at0) at0) loop _ :=
      .loop rfl (.flaw hvar _) _
    have hbody : MarredAll true body _ _ := .cons (.flaw hsemicolon _) (.cons hloop .nil)
    have hfunction : Marred false false false (.function "f" [] body at0)
        (functionHead ++ mark .leftBrace :: (_ ++ [mark .rightBrace])) _ :=
      .function rfl rfl hbody rfl _
    have hcond : Marred false false true (.cond a (.expr a at0) (some (.block [] at0)) at0)
        (head .se ++ (_ ++ mark .oppure :: [mark .leftBrace, mark .rightBrace])) _ :=
      .cutThen rfl (.flaw hparen _) rfl rfl _
    exact .cons hfunction (.cons hcond .nil)
  refine ⟨hprogram, hmarred, ?_⟩
  exact (parse_marred hprogram hmarred rfl).2 (by simp [ms])

end Program

end Copione
