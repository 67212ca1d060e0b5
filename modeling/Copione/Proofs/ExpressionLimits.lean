import Copione.Proofs.ParserSteps
/-!
# Where expressions end

An expression is read, or given up, at or before the first token that cannot stand in one. What is
reported then is a token up to there.
-/
namespace Copione

def TokenKind.inExpr : TokenKind → Bool
  | .leftBrace | .rightBrace | .semicolon | .se | .oppure | .mentre | .variabile | .funzione | .ritorna
  | .eof => false
  | _ => true

private theorem PairOp.kind_inExpr (op : PairOp) : op.kind.inExpr := by
  rcases op with op | op <;> cases op <;> rfl

private theorem UnaryOp.kind_inExpr (op : UnaryOp) : op.kind.inExpr := by cases op <;> rfl

private theorem TokenKind.inExpr_of_beginsExpr {kind : TokenKind} (h : kind.beginsExpr) :
    kind.inExpr := by
  cases kind <;> first | rfl | cases h

private theorem Constant.kind_inExpr (value : Constant) : value.kind.inExpr :=
  TokenKind.inExpr_of_beginsExpr value.kind_beginsExpr

def Word.inExpr (w : Word) : Bool := w.kind.inExpr

@[simp] theorem Word.inExpr_mark (kind : TokenKind) : (mark kind).inExpr = kind.inExpr := rfl

@[simp] theorem Word.inExpr_name (n : String) : (name n).inExpr = true := rfl

@[simp] theorem Word.inExpr_constant (value : Constant) : (constant value).inExpr = true :=
  value.kind_inExpr

theorem commas_inExpr {items : List (List Word)} (h : ∀ item ∈ items, item.all Word.inExpr) :
    (commas items).all Word.inExpr := by
  refine commas_of_items (P := fun ws => ws.all Word.inExpr) rfl (fun ws ws' hws hws' => ?_) h
  simp [hws, hws', TokenKind.inExpr]

theorem Expr.WellFormed.words_inExpr {e : Expr} (h : e.WellFormed) : e.words.all Word.inExpr := by
  induction h with
  | literal | name | questo | super => simp [words, TokenKind.inExpr]
  | group h span ih => simp [words, TokenKind.inExpr, ih]
  | unary h hlevel op span ih => simp [words, op.kind_inExpr, ih]
  | @binary left right op hleft hright hleftLevel hrightLevel span ihleft ihright =>
    have hop : op.kind.inExpr := (PairOp.binary op).kind_inExpr
    simp [words, hop, ihleft, ihright]
  | @logical left right op hleft hright hleftLevel hrightLevel span ihleft ihright =>
    have hop : op.kind.inExpr := (PairOp.logical op).kind_inExpr
    simp [words, hop, ihleft, ihright]
  | assign h n span ih => simp [words, TokenKind.inExpr, ih]
  | call hcallee hlevel harguments span ih iharguments =>
    have hcommas := commas_inExpr (List.forall_mem_map.mpr iharguments)
    simp [words, wordsOfAll_eq, TokenKind.inExpr, ih, hcommas]
  | get h hlevel n span ih => simp [words, TokenKind.inExpr, ih]
  | set hobject hlevel hvalue n span ihobject ihvalue =>
    simp [words, TokenKind.inExpr, ihobject, ihvalue]

theorem inExpr_of_map_word {ts : List Token} {ws : List Word} (h : ts.map Token.word = ws)
    (hws : ws.all Word.inExpr) : ∀ t ∈ ts, t.kind.inExpr := by
  intro t ht
  have hword : t.word ∈ ws := h ▸ List.mem_map_of_mem ht
  have hinExpr := List.all_eq_true.mp hws t.word hword
  rwa [Word.inExpr, Token.word_kind] at hinExpr

/-- What is reported is one of the tokens. -/
def CompileError.Blames (e : CompileError) (ts : List Token) : Prop :=
  ∃ t ∈ ts, ∃ fault : ParseFault, e = fault.report t

theorem CompileError.Blames.mono {e : CompileError} {ts ts' : List Token} (h : e.Blames ts)
    (hts : ts ⊆ ts') : e.Blames ts' := by
  obtain ⟨t, ht, hfault⟩ := h
  exact ⟨t, hts ht, hfault⟩

namespace Parser

/-- The place is before one of the tokens `ts`, behind which `more` comes. Since `start` nothing
happened but that tokens were passed. -/
structure Within (ts more : List Token) (start p : Parser) : Prop where
  place : ∃ passed left, passed ++ left = ts ∧ left ≠ [] ∧ p.rest = left ++ more
  errors_eq : p.errors = start.errors
  functionDepth_eq : p.functionDepth = start.functionDepth
  blockDepth_eq : p.blockDepth = start.blockDepth

/-- No expression goes on through the last of the tokens. -/
def Closed (ts : List Token) : Prop := ∀ t ∈ ts.getLast?, t.kind.inExpr = false

theorem closed_append_singleton {last : Token} (h : last.kind.inExpr = false) (ts : List Token) :
    Closed (ts ++ [last]) := by
  intro t ht
  obtain rfl : last = t := by simpa using ht
  exact h

/-- Started at `p`, `x` ends within the tokens, and if it fails it reports one of them. -/
def StaysAt {α : Type} (ts more : List Token) (start : Parser) (x : Parse α) (p : Parser) : Prop :=
  match x p with
  | .ok _ q => Within ts more start q
  | .error e q => Within ts more start q ∧ e.Blames ts

def Stays {α : Type} (ts more : List Token) (start : Parser) (x : Parse α) : Prop :=
  ∀ ⦃p : Parser⦄, Within ts more start p → StaysAt ts more start x p

section

variable {α β : Type} {ts more : List Token} {start p q : Parser} {x : Parse α} {f : α → Parse β}
  {expr : Parse Expr}

theorem within_start (h : p.rest = ts ++ more) (hts : ts ≠ []) : Within ts more p p :=
  ⟨⟨[], ts, rfl, hts, h⟩, rfl, rfl, rfl⟩

theorem Within.current_mem (h : Within ts more start p) : p.current ∈ ts := by
  obtain ⟨passed, left, rfl, hleft, hrest⟩ := h.place
  cases left with
  | nil => exact absurd rfl hleft
  | cons t left =>
    have hcurrent : p.current = t := by rw [current, hrest]; rfl
    simp [hcurrent]

theorem Within.rest_eq_cons (h : Within ts more start p) :
    ∃ passed left, passed ++ p.current :: left = ts ∧ p.rest = p.current :: (left ++ more) := by
  obtain ⟨passed, left, hts, hleft, hrest⟩ := h.place
  cases left with
  | nil => exact absurd rfl hleft
  | cons t left =>
    have hcurrent : p.current = t := by rw [current, hrest]; rfl
    rw [hcurrent]
    exact ⟨passed, left, hts, hrest⟩

theorem next_eq_of_cons {t : Token} {rest : List Token} (h : p.rest = t :: rest) (ht : t.kind ≠ .eof) :
    p.next = { p with before := t :: p.before, rest } := by
  simp [next, h, ht]

private theorem Within.next (h : Within ts more start p) (hclosed : Closed ts)
    (hkind : p.current.kind.inExpr) :
    Within ts more start p.next := by
  obtain ⟨passed, left, hts, hrest⟩ := h.rest_eq_cons
  have heof : p.current.kind ≠ .eof := by
    intro heof
    rw [heof] at hkind
    cases hkind
  rw [next_eq_of_cons hrest heof]
  refine ⟨⟨passed ++ [p.current], left, by simpa using hts, ?_, rfl⟩, h.errors_eq, h.functionDepth_eq,
    h.blockDepth_eq⟩
  rintro rfl
  have hlast : p.current ∈ ts.getLast? := by simp [← hts]
  rw [hclosed p.current hlast] at hkind
  cases hkind

theorem StaysAt.of_ok {a : α} (hx : StaysAt ts more start x p) (h : x p = .ok a q) :
    Within ts more start q := by
  rwa [StaysAt, h] at hx

theorem StaysAt.of_error {e : CompileError} (hx : StaysAt ts more start x p) (h : x p = .error e q) :
    Within ts more start q ∧ e.Blames ts := by
  rwa [StaysAt, h] at hx

private theorem StaysAt.bind (hx : StaysAt ts more start x p)
    (hf : ∀ a q, Within ts more start q → StaysAt ts more start (f a) q) :
    StaysAt ts more start (x >>= f) p := by
  cases hrun : x p with
  | ok a q =>
    rw [StaysAt, Run.bind_of_ok hrun]
    exact hf a q (hx.of_ok hrun)
  | error e q =>
    rw [StaysAt, Run.bind_of_error hrun]
    exact hx.of_error hrun

private theorem Stays.bind (hx : Stays ts more start x) (hf : ∀ a, Stays ts more start (f a)) :
    Stays ts more start (x >>= f) :=
  fun _ hp => (hx hp).bind fun a _ hq => hf a hq

theorem Stays.map (hx : Stays ts more start x) (f : α → β) : Stays ts more start (f <$> x) := by
  intro p hp
  cases hrun : x p with
  | ok a q =>
    rw [StaysAt, Run.map_of_ok hrun]
    exact (hx hp).of_ok hrun
  | error e q =>
    rw [StaysAt, Run.map_of_error hrun]
    exact (hx hp).of_error hrun

theorem Stays.discard (hx : Stays ts more start x) : Stays ts more start (Functor.discard x) := hx.map _

private theorem stays_pure (a : α) : Stays ts more start (pure a) := fun _ hp => hp

private theorem stays_spanFrom (span : Span) : Stays ts more start (spanFrom span) := fun _ hp => hp

private theorem stays_fail {t : Token} (ht : t ∈ ts) (fault : ParseFault) :
    Stays ts more start (failAt t fault : Parse α) :=
  fun _ hp => ⟨hp, t, ht, fault, rfl⟩

private theorem stays_failExpression : Stays ts more start (failExpression : Parse α) :=
  fun _ hp => ⟨hp, _, hp.current_mem, _, rfl⟩

private theorem stays_peekKind {f : TokenKind → Parse β}
    (hf : ∀ p, Within ts more start p → StaysAt ts more start (f p.current.kind) p) :
    Stays ts more start (peekKind >>= f) := by
  intro p hp
  rw [StaysAt, Run.bind_of_ok (peekKind_apply p)]
  exact hf p hp

private theorem stays_check (kind : TokenKind) : Stays ts more start (check kind) := fun _ hp => hp

private theorem staysAt_next (hclosed : Closed ts) (hp : Within ts more start p)
    (hkind : p.current.kind.inExpr) :
    StaysAt ts more start (modify next) p :=
  hp.next hclosed hkind

private theorem staysAt_advance {f : Token → Parse β} (hclosed : Closed ts)
    (hp : Within ts more start p)
    (hkind : p.current.kind.inExpr) (hf : ∀ t ∈ ts, Stays ts more start (f t)) :
    StaysAt ts more start (advance >>= f) p := by
  have heof : p.current.kind ≠ .eof := by
    intro heof
    rw [heof] at hkind
    cases hkind
  rw [StaysAt, Run.bind_of_ok (advance_apply heof)]
  exact hf p.current hp.current_mem (hp.next hclosed hkind)

theorem stays_accept (hclosed : Closed ts) {kind : TokenKind} (hkind : kind.inExpr) :
    Stays ts more start (accept kind) := by
  intro p hp
  rw [StaysAt, accept_apply]
  by_cases hcurrent : p.current.kind = kind
  · rw [if_pos hcurrent]
    exact hp.next hclosed (by rwa [hcurrent])
  · rw [if_neg hcurrent]
    exact hp

theorem stays_consume (hclosed : Closed ts) {kind : TokenKind} (hkind : kind.inExpr) (what : String) :
    Stays ts more start (consume kind what) := by
  intro p hp
  rw [StaysAt, consume_apply]
  by_cases hcurrent : p.current.kind = kind
  · have heof : p.current.kind ≠ .eof := by
      intro heof
      rw [← hcurrent, heof] at hkind
      cases hkind
    rw [if_pos hcurrent, advance_apply heof]
    exact hp.next hclosed (by rwa [hcurrent])
  · rw [if_neg hcurrent]
    exact ⟨hp, _, hp.current_mem, _, rfl⟩

theorem stays_expectName (hclosed : Closed ts) (what : String) :
    Stays ts more start (expectName what) :=
  (stays_consume hclosed rfl what).bind fun _ => stays_pure _

private theorem foldPairs_stays (hclosed : Closed ts) {operand : Parse Expr}
    (hoperand : Stays ts more start operand) (ops : List PairOp) (fuel : Nat) (left : Expr) :
    Stays ts more start (foldPairs ops operand fuel left) := by
  induction fuel generalizing left with
  | zero => exact stays_pure left
  | succ fuel ih =>
    rw [foldPairs]
    apply stays_peekKind
    intro p hp
    split
    · exact stays_pure left hp
    · next op hop =>
      have hkind : op.kind = p.current.kind := by simpa using List.find?_some hop
      apply (staysAt_next hclosed hp (hkind ▸ op.kind_inExpr)).bind
      intro _ q hq
      exact hoperand.bind (fun right => ih _) hq

private theorem pairs_stays (hclosed : Closed ts) {operand : Parse Expr}
    (hoperand : Stays ts more start operand) (fuel : Nat) (levels : List (List PairOp)) :
    Stays ts more start (pairs fuel operand levels) := by
  induction levels with
  | nil => exact hoperand
  | cons ops tighter ih => exact ih.bind fun left => foldPairs_stays hclosed ih ops fuel left

private theorem commaSeparated_stays (hclosed : Closed ts) {item : Parse α}
    (hitem : Stays ts more start item)
    (count : Nat) : Stays ts more start (commaSeparated item count) := by
  induction count with
  | zero => exact stays_pure []
  | succ count ih =>
    rw [commaSeparated]
    apply hitem.bind
    intro first
    apply (stays_accept hclosed rfl).bind
    intro goesOn
    split
    · exact ih.bind fun _ => stays_pure _
    · exact stays_pure _

theorem listed_stays (hclosed : Closed ts) {item : Parse α} (hitem : Stays ts more start item)
    (count : Nat) : Stays ts more start (listed count item) := by
  apply (stays_check .rightParen).bind
  intro empty
  split
  · exact stays_pure []
  · exact commaSeparated_stays hclosed hitem count

private theorem primary_stays (hclosed : Closed ts) (hexpr : Stays ts more start expr) :
    Stays ts more start (primary expr) := by
  intro p hp
  rw [primary, StaysAt, Run.bind_of_ok Run.get_apply, ← StaysAt]
  have hnext (hkind : p.current.kind.inExpr) : StaysAt ts more start (modify next) p :=
    staysAt_next hclosed hp hkind
  split
  · next value hvalue =>
    apply (hnext ?_).bind fun _ _ hq => stays_pure _ hq
    rw [constant?_eq_some] at hvalue
    rw [← Token.word_kind, hvalue]
    exact TokenKind.inExpr_of_beginsExpr value.kind_beginsExpr
  split
  · next hkind => exact (hnext (by rw [hkind]; rfl)).bind fun _ _ hq => stays_pure _ hq
  · next hkind =>
    apply (hnext (by rw [hkind]; rfl)).bind
    intro _ q hq
    apply (stays_consume hclosed rfl _).discard.bind _ hq
    intro _
    exact (stays_expectName hclosed _).bind fun _ => (stays_spanFrom _).bind fun _ => stays_pure _
  · next hkind => exact (hnext (by rw [hkind]; rfl)).bind fun _ _ hq => stays_pure _ hq
  · next hkind =>
    apply (hnext (by rw [hkind]; rfl)).bind
    intro _ q hq
    apply hexpr.bind _ hq
    intro inner
    apply (stays_consume hclosed rfl _).discard.bind
    intro _
    exact (stays_spanFrom _).bind fun _ => stays_pure _
  · exact stays_failExpression hp

private theorem trailers_stays (hclosed : Closed ts) (hexpr : Stays ts more start expr)
    (fuel count : Nat) (object : Expr) :
    Stays ts more start (trailers fuel expr count object) := by
  induction count generalizing object with
  | zero => exact stays_pure object
  | succ count ih =>
    rw [trailers]
    apply (stays_accept hclosed rfl).bind
    intro opened
    split
    · apply (listed_stays hclosed hexpr fuel).bind
      intro arguments
      apply (stays_consume hclosed rfl _).discard.bind
      intro _
      exact (stays_spanFrom _).bind fun _ => ih _
    apply (stays_accept hclosed rfl).bind
    intro dotted
    split
    · exact (stays_expectName hclosed _).bind fun _ => (stays_spanFrom _).bind fun _ => ih _
    · exact stays_pure object

private theorem expression_unary_stay (hclosed : Closed ts) (fuel : Nat) :
    Stays ts more start (expression fuel) ∧ Stays ts more start (unary fuel) := by
  induction fuel with
  | zero => exact ⟨stays_failExpression, stays_failExpression⟩
  | succ fuel ih =>
    obtain ⟨hexpression, hunary⟩ := ih
    constructor
    · rw [expression]
      apply (pairs_stays hclosed hunary fuel _).bind
      intro target p hp
      rw [StaysAt, Run.bind_of_ok (check_apply _ p), ← StaysAt]
      split
      · exact stays_pure target hp
      · next hkind =>
        have hequal : p.current.kind = .equal := by simpa using hkind
        apply staysAt_advance hclosed hp (by rw [hequal]; rfl)
        intro sign hsign
        apply hexpression.bind
        intro value
        dsimp only
        split
        · exact stays_pure _
        · exact stays_pure _
        · exact stays_fail hsign _
    · rw [unary]
      apply stays_peekKind
      intro p hp
      split
      · exact (primary_stays hclosed hexpression).bind
          (fun _ => trailers_stays hclosed hexpression fuel fuel _) hp
      · next op hop =>
        apply staysAt_advance hclosed hp (UnaryOp.kind_of_ofKind? hop ▸ op.kind_inExpr)
        intro sign _
        exact hunary.bind fun _ => stays_pure _

theorem expression_stays (hclosed : Closed ts) (fuel : Nat) : Stays ts more start (expression fuel) :=
  (expression_unary_stay hclosed fuel).1

end

end Parser
end Copione
