import Copione.Proofs.Balance
import Copione.Proofs.MarredPrograms
/-!
# Derailment

A parser that resumed inside of a block which it never opened finds more closing braces ahead than
it has blocks open. Nothing that is read without an error makes up for that, so there is an error to
come.
-/
namespace Copione

open Copione.Bracket

namespace Parser

variable {α β : Type} {p q r : Parser} {x : Parse α} {f : α → Parse β} {ts ts' more : List Token}
  {ws : List Word} {fuel count : Nat} {inside : Bool} {stop : Parser → Bool} {decl : Parse Stmt}

def Off (p : Parser) : Prop := braces.balance p.ahead + p.blockDepth < 0

private theorem Off.of_passes (h : Off p) (hpassed : Passes p ws q) (hws : braces.Balanced ws) :
    Off q := by
  unfold Off at h ⊢
  rw [hpassed.ahead_eq, balance_append, hws.balance_eq] at h
  rw [hpassed.blockDepth_eq]
  omega

private theorem Off.closed (h : Off q) (hdepth : 0 < q.blockDepth)
    (hpassed : Passes { q with blockDepth := q.blockDepth - 1 } [.mark .rightBrace] r) : Off r := by
  have hahead : q.ahead = [.mark .rightBrace] ++ r.ahead := hpassed.ahead_eq
  have hdepth' : r.blockDepth = q.blockDepth - 1 := hpassed.blockDepth_eq
  have hweight : braces.weight (.mark .rightBrace) = -1 := braces.weight_closing
  unfold Off at h ⊢
  rw [hahead, List.singleton_append, balance_cons, hweight] at h
  omega

theorem not_off_of_isAtEnd {k : Nat} {last : Token} (h : Onward k p q) (hp : p.rest = ts ++ [last])
    (hts : ∀ t ∈ ts, t.kind ≠ .eof) (hend : q.isAtEnd) : ¬Off q := by
  have hahead : braces.balance q.ahead = 0 := by
    obtain ⟨passed, hpassed, -⟩ := h.passed
    rw [hp] at hpassed
    rw [ahead]
    cases hrest : q.rest with
    | nil => rfl
    | cons t rest =>
      rw [hrest] at hpassed
      have ht : t.kind = .eof := by simpa [isAtEnd, current, hrest] using hend
      have hweight : braces.weight t.word = 0 := by simp [weight, braces, ht]
      have htail : rest = [] := by
        rcases List.append_eq_append_iff.mp hpassed with ⟨us, -, hlast⟩ | ⟨us, hus, hlast⟩
        · cases us with
          | nil => exact (List.cons.inj hlast).2.symm
          | cons u us => simp at hlast
        · cases us with
          | nil => exact (List.cons.inj hlast).2
          | cons u us =>
            obtain ⟨rfl, -⟩ := List.cons.inj hlast
            exact absurd ht (hts t (by simp [hus]))
      simp [htail, hweight]
  unfold Off
  omega

private theorem Passes.onward (h : Passes p ws q) : Onward 0 p q := by
  obtain ⟨ts, -, -, hrest, -⟩ := h.passed
  exact ⟨⟨ts, hrest, Nat.zero_le _⟩, h.functionDepth_eq, h.blockDepth_eq⟩

private theorem Arrives.onward {es : List CompileError} (h : Arrives p es more q)
    (hp : p.rest = ts ++ more) :
    Onward 0 p q :=
  ⟨⟨ts, by rw [hp, h.rest_eq], Nat.zero_le _⟩, h.functionDepth_eq, h.blockDepth_eq⟩

theorem Arrives.errors_size {es : List CompileError} (h : Arrives p es more q) :
    q.errors.size = p.errors.size + es.length := by
  rw [← Array.length_toList, h.errors_eq, List.length_append, Array.length_toList]

/-- If `x` ends well from `p`, it has reported something or is off. -/
def Keeps (x : Parse α) (p : Parser) : Prop :=
  ∀ ⦃a : α⦄ ⦃q : Parser⦄, x p = .ok a q → p.errors.size < q.errors.size ∨ Off q ∧ Onward 0 p q

private theorem Keeps.bind (hx : Keeps x p) (hgrows : Grows x) (hgrows' : ∀ a, Grows (f a))
    (hf : ∀ a q, Off q → Onward 0 p q → Keeps (f a) q) : Keeps (x >>= f) p := by
  intro b r h
  obtain ⟨a, q, hrun, h⟩ := Run.of_bind_ok h
  have hpq := hgrows.of_ok hrun
  have hqr := (hgrows' a).of_ok h
  rcases hx hrun with hmore | ⟨hoff, honward⟩
  · exact .inl (by omega)
  · rcases hf a q hoff honward h with hmore | ⟨hoff', honward'⟩
    · exact .inl (by omega)
    · exact .inr ⟨hoff', honward.trans honward'⟩

private theorem keeps_pure (h : Off p) (a : α) : Keeps (pure a) p := by
  intro b q hrun
  obtain ⟨-, rfl⟩ := EStateM.Result.ok.inj hrun
  exact .inr ⟨h, .refl p⟩

private theorem Keeps.map (hx : Keeps x p) (f : α → β) : Keeps (f <$> x) p := by
  intro b q h
  obtain ⟨a, hrun, -⟩ := Run.of_map_ok h
  exact hx hrun

private theorem keeps_accept_oppure (h : Off p) : Keeps (accept .oppure) p := by
  intro b q hrun
  rw [accept_apply] at hrun
  split at hrun
  · next hkind =>
    obtain ⟨-, rfl⟩ := EStateM.Result.ok.inj hrun
    have hpassed := passes_mark hkind rfl
    have hweight : braces.Balanced [.mark .oppure] := balanced_of_weight_eq_zero (by decide)
    exact .inr ⟨h.of_passes hpassed hweight, hpassed.onward⟩
  · obtain ⟨-, rfl⟩ := EStateM.Result.ok.inj hrun
    exact .inr ⟨h, .refl p⟩

private theorem keeps_statement (h : Off p) (hfuel : 2 * p.rest.length + 1 ≤ fuel) :
    Keeps (statement fuel) p := by
  intro s q hrun
  by_cases hclean : q.errors.size ≤ p.errors.size
  · obtain ⟨hthere, -⟩ := (declaration_statement_reads fuel).2 _ hfuel (Nat.le_refl _) hrun hclean
    exact .inr ⟨h.of_passes hthere.passes hthere.wellFormed.braces_balanced, hthere.passes.onward⟩
  · exact .inl (by omega)

private theorem keeps_declarations (h : Off p) (hstop : ∀ p : Parser, p.rest = [] → stop p)
    (hfuel : 2 * p.rest.length + 2 ≤ fuel) (hcount : p.rest.length ≤ count) :
    Keeps (declarations stop (declaration fuel) count) p := by
  intro ss q hrun
  by_cases hclean : q.errors.size ≤ p.errors.size
  · have hreads := (declaration_statement_reads fuel).1 _ hfuel
    have hgrows := (grows_declaration_statement fuel).1
    obtain ⟨hpassed, hwell, -⟩ :=
      declarations_passes hstop hgrows hreads hrun hcount (Nat.le_refl _) hclean
    exact .inr ⟨h.of_passes hpassed (wordsOfAll_balanced hwell), hpassed.onward⟩
  · exact .inl (by omega)

/-- From `p`, `x` reports an error, and then another one or is off. -/
structure Derails (x : Parse α) (p : Parser) : Prop where
  of_ok : ∀ ⦃a : α⦄ ⦃q : Parser⦄, x p = .ok a q → p.errors.size + 2 ≤ q.errors.size ∨
    p.errors.size + 1 ≤ q.errors.size ∧ Off q ∧ Onward 1 p q
  of_error : ∀ ⦃e : CompileError⦄ ⦃q : Parser⦄, x p = .error e q → p.errors.size + 1 ≤ q.errors.size

private theorem Derails.of_eq {y : Parse α} (h : Derails y q) (hx : x p = y q)
    (herrors : q.errors.size = p.errors.size) (honward : Onward 0 p q) : Derails x p := by
  constructor
  · intro a r hrun
    rw [hx] at hrun
    rcases h.of_ok hrun with htwo | ⟨hone, hoff, honward'⟩
    · exact .inl (by omega)
    · exact .inr ⟨by omega, hoff, (honward.trans honward').mono (by omega)⟩
  · intro e r hrun
    rw [hx] at hrun
    have herror := h.of_error hrun
    omega

private theorem Derails.bind (hx : Derails x p) (hgrows : ∀ a, Grows (f a))
    (hf : ∀ a q, Off q → Onward 1 p q → Keeps (f a) q) : Derails (x >>= f) p := by
  cases hrun : x p with
  | error e q =>
    constructor
    · intro b r h
      rw [Run.bind_of_error hrun] at h
      cases h
    · intro e' r h
      rw [Run.bind_of_error hrun] at h
      obtain ⟨-, rfl⟩ := EStateM.Result.error.inj h
      exact hx.of_error hrun
  | ok a q =>
    constructor
    · intro b r h
      rw [Run.bind_of_ok hrun] at h
      have hqr := (hgrows a).of_ok h
      rcases hx.of_ok hrun with htwo | ⟨hone, hoff, honward⟩
      · exact .inl (by omega)
      · rcases hf a q hoff honward h with hmore | ⟨hoff', honward'⟩
        · exact .inl (by omega)
        · exact .inr ⟨by omega, hoff', honward.trans honward'⟩
    · intro e r h
      rw [Run.bind_of_ok hrun] at h
      have hqr := (hgrows a).of_error h
      rcases hx.of_ok hrun with htwo | ⟨hone, -⟩ <;> omega

private theorem Derails.map (hx : Derails x p) (f : α → β) : Derails (f <$> x) p := by
  constructor
  · intro b q hrun
    obtain ⟨a, hrun, -⟩ := Run.of_map_ok hrun
    exact hx.of_ok hrun
  · intro e q hrun
    cases hcase : x p with
    | ok a r =>
      rw [Run.map_of_ok hcase] at hrun
      cases hrun
    | error e' r =>
      rw [Run.map_of_error hcase] at hrun
      obtain ⟨-, rfl⟩ := EStateM.Result.error.inj hrun
      exact hx.of_error hcase

private theorem Derails.spanned (hx : Derails x p) (start : Span) (f : α → Span → β) :
    Derails (x >>= fun a => spanFrom start >>= fun span => pure (f a span)) p := by
  apply hx.bind
  · intro a
    exact (grows_spanFrom start).bind fun span => grows_pure _
  · intro a q hoff _ b r hrun
    obtain ⟨-, rfl⟩ := EStateM.Result.ok.inj hrun
    exact .inr ⟨hoff, .refl q⟩

theorem Derails.recovering (h : Derails decl p) : Derails (recovering decl) p := by
  unfold Parser.recovering
  constructor
  · intro s r hrun
    split at hrun
    · next s' q hdecl =>
      obtain ⟨-, rfl⟩ := EStateM.Result.ok.inj hrun
      exact h.of_ok hdecl
    · next e q hdecl =>
      obtain ⟨-, rfl⟩ := EStateM.Result.ok.inj hrun
      have herror := h.of_error hdecl
      rw [synchronize_errors, Array.size_push]
      exact .inl (by omega)
  · intro e r hrun
    split at hrun <;> cases hrun

/-- Declarations that derail, and unless there are two errors go on to where they stop. -/
structure DerailsTo (stop : Parser → Bool) (x : Parse (List Stmt)) (p : Parser) : Prop
    extends Derails x p where
  stops : ∀ ⦃ss : List Stmt⦄ ⦃q : Parser⦄, x p = .ok ss q → q.errors.size < p.errors.size + 2 → stop q

private theorem Derails.declarations (h : Derails (Parser.recovering (declaration fuel)) p)
    (hgoesOn : stop p = false) (hstop : ∀ p : Parser, p.rest = [] → stop p)
    (hfuel : 2 * p.rest.length + 2 ≤ fuel) (hcount : p.rest.length ≤ count + 1) :
    DerailsTo stop (declarations stop (declaration fuel) (count + 1)) p := by
  have hgrows := grows_declarations (grows_declaration_statement fuel).1 stop count
  have hunfold : Parser.declarations stop (declaration fuel) (count + 1) p =
      (Parser.recovering (declaration fuel) >>= fun s =>
        Parser.declarations stop (declaration fuel) count >>= fun ss => pure (s.toList ++ ss)) p := by
    rw [Parser.declarations, Run.bind_of_ok Run.get_apply, if_neg (by simp [hgoesOn])]
  refine ⟨Derails.of_eq ?_ hunfold rfl (.refl p), ?_⟩
  · apply h.bind
    · intro s
      exact hgrows.bind fun ss => grows_pure _
    · intro s q hoff honward
      have hlength := honward.length_le
      apply (keeps_declarations hoff hstop (by omega) (by omega)).bind hgrows
      · intro ss
        exact grows_pure _
      · intro ss r hoff' _
        exact keeps_pure hoff' _
  · intro ss r hrun hfew
    rw [hunfold] at hrun
    obtain ⟨s, q, hfirst, hrun⟩ := Run.of_bind_ok hrun
    obtain ⟨ss', r', hothers, hrun⟩ := Run.of_bind_ok hrun
    obtain ⟨-, rfl⟩ := EStateM.Result.ok.inj hrun
    have hqr := hgrows.of_ok hothers
    -- One error is there already, so the others are read without any.
    rcases h.of_ok hfirst with htwo | ⟨hone, -, honward⟩
    · omega
    · have hlength := honward.length_le
      have hreads := (declaration_statement_reads fuel).1 q.rest.length (by omega)
      exact (declarations_passes hstop (grows_declaration_statement fuel).1 hreads hothers (by omega)
        (Nat.le_refl _) (by omega)).2.2

private theorem Derails.blockBody
    (h : Derails (Parser.declarations (fun p => p.current.kind == .rightBrace || p.isAtEnd) decl fuel)
      { p with blockDepth := p.blockDepth + 1 }) :
    Derails (blockBody fuel decl) p := by
  obtain ⟨ss, q, hrun⟩ := declarations_eq_ok
    (fun p => p.current.kind == .rightBrace || p.isAtEnd) decl fuel { p with blockDepth := p.blockDepth + 1 }
  have hq := h.of_ok hrun
  constructor
  · intro body r hr
    rw [blockBody_of_ok hrun] at hr
    obtain ⟨_, r', hclose, hr⟩ := Run.of_bind_ok hr
    obtain ⟨-, rfl⟩ := EStateM.Result.ok.inj hr
    have hpassed := passes_of_consume hclose rfl
    rw [hpassed.errors_eq]
    refine hq.imp id ?_
    rintro ⟨hone, hoff, honward⟩
    have hdepth : q.blockDepth = p.blockDepth + 1 := honward.blockDepth_eq
    exact ⟨hone, hoff.closed (by omega) hpassed, honward.closed.trans hpassed.onward⟩
  · intro e r hr
    rw [blockBody_of_ok hrun] at hr
    have hgrows : Grows (discard (consume .rightBrace "'\x7d' after block") >>= fun _ => pure ss) :=
      (grows_consume _ _).discard.bind fun _ => grows_pure _
    have hqr := hgrows.of_error hr
    dsimp only at hqr
    have hpq : p.errors.size + 1 ≤ q.errors.size := by
      rcases hq with htwo | ⟨hone, -⟩
      · exact Nat.le_of_succ_le htwo
      · exact hone
    omega

private theorem Derails.inFunction
    (h : Derails x { p with functionDepth := p.functionDepth + 1 }) : Derails (inFunction x) p := by
  cases hx : x { p with functionDepth := p.functionDepth + 1 } with
  | ok a q =>
    constructor
    · intro a' r hrun
      rw [inFunction_of_ok hx] at hrun
      obtain ⟨-, rfl⟩ := EStateM.Result.ok.inj hrun
      refine (h.of_ok hx).imp id ?_
      rintro ⟨hone, hoff, honward⟩
      exact ⟨hone, hoff, honward.left⟩
    · intro e r hrun
      rw [inFunction_of_ok hx] at hrun
      cases hrun
  | error e q =>
    constructor
    · intro a r hrun
      rw [inFunction_of_error hx] at hrun
      cases hrun
    · intro e' r hrun
      rw [inFunction_of_error hx] at hrun
      obtain ⟨-, rfl⟩ := EStateM.Result.error.inj hrun
      have herror : p.errors.size + 1 ≤ q.errors.size := h.of_error hx
      exact herror

/-- Wherever the tokens come as declarations, as many blocks being closed behind them as are open,
the parser derails. -/
def DerailsAll (inside : Bool) (ts : List Token) : Prop :=
  ∀ ⦃stop : Parser → Bool⦄ ⦃fuel count : Nat⦄ ⦃p : Parser⦄ ⦃more : List Token⦄, StopsAtEnd stop →
    (∀ p : Parser, p.rest = [] → stop p) → p.rest = ts ++ more → NoBranch more →
    inside = decide (0 < p.functionDepth) → 2 * p.rest.length + 2 ≤ fuel → p.rest.length ≤ count →
    braces.balance (more.map Token.word) + p.blockDepth = 0 →
    DerailsTo stop (declarations stop (declaration fuel) count) p

def DerailsStmt (inside branch : Bool) (ts : List Token) : Prop :=
  ∀ ⦃fuel : Nat⦄ ⦃p : Parser⦄ ⦃more : List Token⦄, p.rest = ts ++ more →
    inside = decide (0 < p.functionDepth) →
    2 * p.rest.length + (if branch then 1 else 2) ≤ fuel →
    braces.balance (more.map Token.word) + p.blockDepth = 0 → Derails (reader branch fuel) p

theorem derailsAll_cons {t : Token} (ht : t.kind ∉ [.rightBrace, .eof])
    (h : ∀ ⦃fuel : Nat⦄ ⦃p : Parser⦄ ⦃more : List Token⦄, p.rest = t :: ts ++ more → NoBranch more →
      inside = decide (0 < p.functionDepth) → 2 * p.rest.length + 2 ≤ fuel →
      braces.balance (more.map Token.word) + p.blockDepth = 0 →
      Derails (recovering (declaration fuel)) p)
    {ss : List Stmt} (hss : ∀ s ∈ ss, s.WellFormed inside)
    (hts' : ts'.map Token.word = Stmt.wordsOfAll ss) : DerailsAll inside (t :: ts ++ ts') := by
  intro stop fuel count p more hstop hempty hp hmore hinside hfuel hcount hdepth
  rw [List.append_assoc] at hp
  have hcurrent : p.current = t := by rw [current, hp]; rfl
  have hgoesOn : stop p = false := hstop p (by rwa [hcurrent])
  have hpos : 0 < p.rest.length := by simp [hp]
  obtain ⟨count, rfl⟩ : ∃ k, count = k + 1 := ⟨count - 1, by omega⟩
  apply Derails.declarations _ hgoesOn hempty hfuel hcount
  apply h hp ((begins_of_wordsOfAll hts').noBranch hmore) hinside hfuel
  rw [List.map_append, balance_append, hts', (wordsOfAll_balanced hss).balance_eq]
  omega

/-- Sound declarations before the broken one change nothing. -/
theorem DerailsAll.behind (h : DerailsAll inside ts') (hbegins : Begins ts')
    (hts : Overcome inside ts []) : DerailsAll inside (ts ++ ts') := by
  intro stop fuel count p more hstop hempty hp hmore hinside hfuel hcount hdepth
  rw [List.append_assoc] at hp
  obtain ⟨ss, q, es, n, hq, hes, hn, hgoes⟩ :=
    hts hstop hp (hbegins.noBranch hmore) hinside hfuel hcount
  obtain rfl : es = [] := List.forall₂_nil_left_iff.mp hes
  have honward := hq.onward hp
  have hlength := honward.length_le
  have hderails : DerailsTo stop (declarations stop (declaration fuel) n) q := by
    apply h hstop hempty hq.rest_eq hmore _ (by omega) hn
    · rwa [hq.blockDepth_eq]
    · rw [hq.functionDepth_eq, hinside]
  obtain ⟨ss', r, hrun⟩ := declarations_eq_ok stop (declaration fuel) n q
  have hwhole := hgoes ss' r hrun
  have herrors := hq.errors_size
  simp only [List.length_nil, Nat.add_zero] at herrors
  refine ⟨⟨?_, ?_⟩, ?_⟩
  · intro a r' hrun'
    rw [hwhole] at hrun'
    obtain ⟨-, rfl⟩ := EStateM.Result.ok.inj hrun'
    rw [← herrors]
    refine (hderails.of_ok hrun).imp id ?_
    rintro ⟨hone, hoff, honward'⟩
    exact ⟨hone, hoff, (honward.trans honward').mono (by omega)⟩
  · intro e r' hrun'
    rw [hwhole] at hrun'
    cases hrun'
  · intro ss'' r' hrun' hfew
    rw [hwhole] at hrun'
    obtain ⟨-, rfl⟩ := EStateM.Result.ok.inj hrun'
    exact hderails.stops hrun (by omega)

private theorem derailsStmt_of_statement {branch : Bool} {t : Token}
    (ht : t.kind ∉ [.variabile, .funzione])
    (h : ∀ ⦃fuel : Nat⦄ ⦃p : Parser⦄ ⦃more : List Token⦄, p.rest = t :: ts ++ more →
      inside = decide (0 < p.functionDepth) → 2 * p.rest.length + 1 ≤ fuel →
      braces.balance (more.map Token.word) + p.blockDepth = 0 → Derails (statement fuel) p) :
    DerailsStmt inside branch (t :: ts) := by
  intro fuel p more hp hinside hfuel hdepth
  cases branch with
  | true => exact h hp hinside hfuel hdepth
  | false =>
    have hcurrent : p.current = t := by rw [current, hp]; rfl
    simp only [List.mem_cons, List.not_mem_nil, or_false, not_or] at ht
    simp only [Bool.false_eq_true, if_false] at hfuel
    obtain ⟨fuel, rfl⟩ : ∃ k, fuel = k + 1 := ⟨fuel - 1, by omega⟩
    have hstatement : Derails (statement fuel) p := h hp hinside (by omega) hdepth
    apply hstatement.of_eq _ rfl (.refl p)
    exact declaration_of_statement (by rw [hcurrent]; exact ht.1) (by rw [hcurrent]; exact ht.2)

private theorem blockBody_derails (h : DerailsAll inside ts) {closing : Token}
    (hclosing : closing.kind = .rightBrace) (hp : p.rest = ts ++ closing :: more)
    (hinside : inside = decide (0 < p.functionDepth)) (hfuel : 2 * p.rest.length + 2 ≤ fuel)
    (hdepth : braces.balance (more.map Token.word) + p.blockDepth = 0) :
    Derails (blockBody fuel (declaration fuel)) p := by
  have hword := Token.word_of_mark hclosing rfl
  have hweight : braces.weight (.mark .rightBrace) = -1 := braces.weight_closing
  let opened : Parser := { p with blockDepth := p.blockDepth + 1 }
  have hopened : braces.balance ((closing :: more).map Token.word) + opened.blockDepth = 0 := by
    have hsucc : opened.blockDepth = p.blockDepth + 1 := rfl
    rw [List.map_cons, hword, balance_cons, hweight, hsucc]
    omega
  apply Derails.blockBody
  apply DerailsTo.toDerails
  apply h (p := opened) _ _ hp (by simp [NoBranch, hclosing]) hinside hfuel (show p.rest.length ≤ fuel by omega) hopened
  · intro p hkind
    simp only [List.mem_cons, List.not_mem_nil, or_false, not_or] at hkind
    simp [isAtEnd, hkind]
  · intro p hempty
    rw [isAtEnd, current, hempty]
    rfl

theorem derailsStmt_block {branch : Bool} (h : DerailsAll inside ts) {opening closing : Token}
    (hopening : opening.kind = .leftBrace) (hclosing : closing.kind = .rightBrace) :
    DerailsStmt inside branch (opening :: (ts ++ [closing])) := by
  apply derailsStmt_of_statement (by simp [hopening])
  intro fuel p more hp hinside hfuel hdepth
  rw [List.cons_append, List.append_assoc, List.singleton_append] at hp
  have hcurrent : p.current.kind = .leftBrace := by rwa [current, hp]
  have hnext := arrives_next hp (by simp [hopening])
  have hpassed := passes_mark hcurrent rfl
  have hlength := hpassed.length_lt
  obtain ⟨fuel, rfl⟩ : ∃ k, fuel = k + 1 := ⟨fuel - 1, by omega⟩
  have hbody : Derails (blockBody fuel (declaration fuel)) p.next := by
    apply blockBody_derails h hclosing hnext.rest_eq _ (by omega)
    · rwa [hnext.blockDepth_eq]
    · rw [hnext.functionDepth_eq, hinside]
  apply (hbody.spanned p.current.span Stmt.block).of_eq _ (by rw [next_errors]) hpassed.onward
  rw [statement, Run.bind_of_ok (peekKind_apply p), hcurrent]
  change blockStatement fuel (declaration fuel) p = _
  rw [blockStatement, Run.bind_of_ok (advance_of_mark hcurrent rfl)]

theorem derailsStmt_function (h : DerailsAll true ts) {name : String} {params : List String}
    {head : List Token} (hhead : head.map Token.word = functionWords name params)
    {opening closing : Token} (hopening : opening.kind = .leftBrace)
    (hclosing : closing.kind = .rightBrace) :
    DerailsStmt inside false (head ++ opening :: (ts ++ [closing])) := by
  intro fuel p more hp _ hfuel hdepth
  simp only [Bool.false_eq_true, if_false] at hfuel
  obtain ⟨fuel, rfl⟩ : ∃ k, fuel = k + 1 := ⟨fuel - 1, by omega⟩
  rw [List.append_assoc, List.cons_append, List.append_assoc, List.singleton_append] at hp
  obtain ⟨q, hq, hlength, hread⟩ := functionOpening_read hhead hopening hp
    (show p.rest.length ≤ fuel by omega)
  have honward : Onward 0 p q := hq.onward (by rw [hp, List.append_cons])
  let entered : Parser := { q with functionDepth := q.functionDepth + 1 }
  have hbody : Derails (blockBody fuel (declaration fuel)) entered := by
    apply blockBody_derails (p := entered) h hclosing hq.rest_eq (by simp [entered])
      (show 2 * q.rest.length + 2 ≤ fuel by omega)
    change _ + (q.blockDepth : Int) = 0
    rwa [hq.blockDepth_eq]
  exact (hbody.inFunction.spanned p.current.span (Stmt.function name params)).of_eq hread
    hq.errors_size honward

private theorem derailsStmt_of_head {branch : Bool} {kind : TokenKind} {condition : Expr}
    {head : List Token} (hhead : head.map Token.word = headWords kind condition)
    (hkind : kind ∉ [.variabile, .funzione])
    (h : ∀ ⦃fuel : Nat⦄ ⦃p : Parser⦄ ⦃more : List Token⦄, p.rest = head ++ (ts ++ more) →
      inside = decide (0 < p.functionDepth) → 2 * (ts ++ more).length + 1 ≤ fuel →
      2 * p.rest.length ≤ fuel → braces.balance (more.map Token.word) + p.blockDepth = 0 →
      Derails (statement (fuel + 1)) p) : DerailsStmt inside branch (head ++ ts) := by
  obtain ⟨t, rest, rfl, ht, -⟩ := List.map_eq_cons_iff.mp hhead
  have hfirst : t.kind ∉ [.variabile, .funzione] := by
    rw [← Token.word_kind, ht]
    exact hkind
  apply derailsStmt_of_statement hfirst
  intro fuel p more hp hinside hfuel hdepth
  obtain ⟨fuel, rfl⟩ : ∃ k, fuel = k + 1 := ⟨fuel - 1, by omega⟩
  replace hp : p.rest = t :: rest ++ (ts ++ more) := by
    rw [hp]
    simp
  have hlength := congrArg List.length hp
  rw [List.length_append, List.length_cons] at hlength
  exact h hp hinside (by omega) (by omega) hdepth

theorem derailsStmt_loop {branch : Bool} {condition : Expr} {head : List Token}
    (hcondition : condition.WellFormed) (hhead : head.map Token.word = headWords .mentre condition)
    (hbody : DerailsStmt inside true ts) : DerailsStmt inside branch (head ++ ts) := by
  apply derailsStmt_of_head hhead (by decide)
  intro fuel p more hp hinside hfuel hfuel' hdepth
  obtain ⟨condition', q, hq, hread⟩ := loopHead_read hcondition hhead hp hfuel'
  have hderails : Derails (statement fuel) q := by
    apply hbody hq.rest_eq _ (by rw [hq.rest_eq]; exact hfuel)
    · rwa [hq.blockDepth_eq]
    · rw [hq.functionDepth_eq, hinside]
  exact (hderails.spanned p.current.span (Stmt.loop condition')).of_eq hread (by rw [hq.errors_size]; rfl)
    (hq.onward hp)

private theorem cond_derails {condition : Expr} {start : Span} (h : Derails (statement fuel) p)
    (hfuel : 2 * p.rest.length + 1 ≤ fuel) :
    Derails (statement fuel >>= fun thenBranch => accept .oppure >>= fun given =>
      (if given then some <$> statement fuel else pure none) >>= fun elseBranch =>
        spanFrom start >>= fun span => pure (Stmt.cond condition thenBranch elseBranch span)) p := by
  have hgrows := (grows_declaration_statement fuel).2
  have hgrowsElse (given : Bool) :
      Grows (if given then some <$> statement fuel else pure none : Parse (Option Stmt)) := by
    cases given with
    | true => exact hgrows.map some
    | false => exact grows_pure none
  have hgrowsEnd (thenBranch : Stmt) (elseBranch : Option Stmt) :
      Grows (spanFrom start >>= fun span => pure (Stmt.cond condition thenBranch elseBranch span)) :=
    (grows_spanFrom start).bind fun span => grows_pure _
  apply h.bind
  · intro thenBranch
    exact (grows_accept .oppure).bind fun given => (hgrowsElse given).bind (hgrowsEnd thenBranch)
  · intro thenBranch q hoff honward
    apply (keeps_accept_oppure hoff).bind (grows_accept .oppure)
    · intro given
      exact (hgrowsElse given).bind (hgrowsEnd thenBranch)
    · intro given r hoff' honward'
      have hlength := (honward.trans honward').length_le
      apply Keeps.bind _ (hgrowsElse given) (hgrowsEnd thenBranch)
      · intro elseBranch r' hoff'' _ s r'' hrun
        obtain ⟨-, rfl⟩ := EStateM.Result.ok.inj hrun
        exact .inr ⟨hoff'', .refl r'⟩
      · cases given with
        | true => exact (keeps_statement hoff' (by omega)).map some
        | false => exact keeps_pure hoff' none

theorem derailsStmt_then {branch : Bool} {condition : Expr} {head : List Token}
    (hcondition : condition.WellFormed) (hhead : head.map Token.word = headWords .se condition)
    (hthen : DerailsStmt inside true ts) (hbranches : braces.balance (ts'.map Token.word) = 0) :
    DerailsStmt inside branch (head ++ (ts ++ ts')) := by
  apply derailsStmt_of_head hhead (by decide)
  intro fuel p more hp hinside hfuel hfuel' hdepth
  rw [List.append_assoc] at hp hfuel
  obtain ⟨condition', q, hq, hread⟩ := condHead_read hcondition hhead hp hfuel'
  have hfuelq : 2 * q.rest.length + 1 ≤ fuel := by rwa [hq.rest_eq]
  have hderails : Derails (statement fuel) q := by
    apply hthen hq.rest_eq _ hfuelq
    · rw [hq.blockDepth_eq, List.map_append, balance_append, hbranches]
      omega
    · rw [hq.functionDepth_eq, hinside]
  exact (cond_derails hderails hfuelq).of_eq hread (by rw [hq.errors_size]; rfl) (hq.onward hp)

theorem derailsStmt_else {branch : Bool} {condition : Expr} {thenBranch : Stmt} {head : List Token}
    {sign : Token} (hcondition : condition.WellFormed)
    (hhead : head.map Token.word = headWords .se condition) (hs : thenBranch.WellFormed inside)
    (hkind : thenBranch.isDeclaration = false) (hclosed : thenBranch.endsOpen = false)
    (hts : ts.map Token.word = thenBranch.words) (hsign : sign.kind = .oppure)
    (helse : DerailsStmt inside true ts') : DerailsStmt inside branch (head ++ (ts ++ sign :: ts')) := by
  apply derailsStmt_of_head hhead (by decide)
  intro fuel p more hp hinside hfuel hfuel' hdepth
  rw [List.append_assoc, List.cons_append] at hp hfuel
  obtain ⟨condition', q, hq, hread⟩ := condHead_read hcondition hhead hp hfuel'
  have hinside' : inside = decide (0 < q.functionDepth) := by rw [hq.functionDepth_eq, hinside]
  have hthen : Outcome inside true false thenBranch ts [] := outcome_sound hs (fun _ => hkind) hts
  have hthrough : Through (statement fuel) q (sign :: (ts' ++ more)) [] :=
    hthen hq.rest_eq (by simp [hclosed]) hinside' (by rw [hq.rest_eq]; exact hfuel)
  obtain ⟨thenBranch', r, es, hrun, hr, hes⟩ := hthrough
  obtain rfl : es = [] := List.forall₂_nil_left_iff.mp hes
  have hcurrent : r.current.kind = .oppure := by rwa [current, hr.rest_eq]
  have hnext := arrives_next hr.rest_eq (by simp [hsign])
  have haccept : accept .oppure r = .ok true r.next := by rw [accept_apply, if_pos hcurrent]
  have hderails : Derails (statement fuel) r.next := by
    apply helse hnext.rest_eq
    · rw [hnext.functionDepth_eq, hr.functionDepth_eq, hinside']
    · rw [hnext.rest_eq]
      simp only [List.length_append, List.length_cons, if_true] at hfuel ⊢
      omega
    · rwa [hnext.blockDepth_eq, hr.blockDepth_eq, hq.blockDepth_eq]
  have honward : Onward 0 p r.next :=
    ((hq.onward hp).trans (hr.onward hq.rest_eq)).trans (passes_mark hcurrent rfl).onward
  apply ((hderails.map some).spanned p.current.span (Stmt.cond condition' thenBranch')).of_eq _ _ honward
  · rw [hread, Run.bind_of_ok hrun, Run.bind_of_ok haccept, if_pos rfl]
  · rw [next_errors, hr.errors_size, hq.errors_size]
    rfl

end Parser
end Copione
