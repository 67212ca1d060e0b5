import Copione.Proofs.ParserSteps
/-!
# Expressions are read back

The words of a well-formed expression, wherever it may stand, are read as that expression, up to
spans.
-/
namespace Copione

mutual

def Expr.erase : Expr → Expr
  | .literal value _ => .literal value ⟨0, 0, 0⟩
  | .name n _ => .name n ⟨0, 0, 0⟩
  | .group inner _ => .group inner.erase ⟨0, 0, 0⟩
  | .unary op operand _ => .unary op operand.erase ⟨0, 0, 0⟩
  | .binary op left right _ => .binary op left.erase right.erase ⟨0, 0, 0⟩
  | .logical op left right _ => .logical op left.erase right.erase ⟨0, 0, 0⟩
  | .assign n value _ => .assign n value.erase ⟨0, 0, 0⟩
  | .call callee arguments _ => .call callee.erase (Expr.eraseAll arguments) ⟨0, 0, 0⟩
  | .get object n _ => .get object.erase n ⟨0, 0, 0⟩
  | .set object n value _ => .set object.erase n value.erase ⟨0, 0, 0⟩
  | .questo _ => .questo ⟨0, 0, 0⟩
  | .super method _ => .super method ⟨0, 0, 0⟩

def Expr.eraseAll : List Expr → List Expr
  | [] => []
  | e :: es => e.erase :: Expr.eraseAll es

end

private theorem Expr.eraseAll_eq (es : List Expr) : eraseAll es = es.map erase := by
  induction es with
  | nil => rfl
  | cons e es ih => rw [eraseAll, ih, List.map_cons]

private theorem PairOp.join_erase {op : PairOp} {left left' right right' : Expr}
    (hleft : left'.erase = left.erase) (hright : right'.erase = right.erase) :
    (op.join left' right').erase = (op.join left right).erase := by
  cases op <;> simp only [join, Expr.erase, hleft, hright]

namespace Word

/-- How tightly a word that goes on with an expression holds what is before it. -/
def pull? : Word → Option Nat
  | .mark .equal => some 0
  | .mark .leftParen | .mark .dot => some 10
  | .mark kind => (PairOp.levels.flatten.find? (·.kind == kind)).map PairOp.level
  | _ => none

private theorem pull?_pair (op : PairOp) : (mark op.kind).pull? = some op.level := by
  rcases op with op | op <;> cases op <;> rfl

end Word

/-- What comes next holds what is before it less tightly than `k`. -/
def Loose (k : Nat) (ws : List Word) : Prop := ∀ w ∈ ws.head?, ∀ n ∈ w.pull?, n < k

private theorem Loose.mono {k m : Nat} {ws : List Word} (h : Loose k ws) (hk : k ≤ m) : Loose m ws :=
  fun w hw n hn => Nat.lt_of_lt_of_le (h w hw n hn) hk

private theorem loose_of_pull? {k : Nat} {w : Word} {ws : List Word} (h : ∀ n ∈ w.pull?, n < k) :
    Loose k (w :: ws) := by
  intro w' hw'
  obtain rfl := Option.some.inj hw'
  exact h

theorem loose_of_none {k : Nat} {w : Word} {ws : List Word} (h : w.pull? = none) :
    Loose k (w :: ws) :=
  loose_of_pull? (by simp [h])

namespace Parser

variable {α : Type} {p q : Parser} {w : Word} {ws more : List Word} {kind : TokenKind} {k fuel : Nat}
  {e : Expr} {expr : Parse Expr}

def ahead (p : Parser) : List Word := p.rest.map Token.word

theorem Passes.ahead_eq (h : Passes p ws q) : p.ahead = ws ++ q.ahead := by
  obtain ⟨ts, rfl, -, hrest, -⟩ := h.passed
  rw [ahead, ahead, hrest, List.map_append]

theorem Passes.ahead_of (h : Passes p ws q) (hp : p.ahead = ws ++ more) : q.ahead = more := by
  rw [h.ahead_eq] at hp
  exact List.append_cancel_left hp

private theorem current_word (h : p.ahead = w :: more) : p.current.word = w := by
  obtain ⟨before, rest, errors, functionDepth, blockDepth⟩ := p
  cases rest with
  | nil => cases h
  | cons t rest => exact (List.cons.inj h).1

theorem current_kind (h : p.ahead = w :: more) : p.current.kind = w.kind := by
  rw [← Token.word_kind, current_word h]

theorem current_kind_ne (h : p.ahead = w :: more) (hw : w.kind ≠ kind) : p.current.kind ≠ kind := by
  rwa [current_kind h]

theorem length_pos_of_append (h : p.ahead = ws ++ w :: more) : 0 < p.rest.length := by
  rw [← List.length_map, show p.rest.map Token.word = _ from h, List.length_append, List.length_cons]
  omega

theorem length_pos (h : p.ahead = w :: more) : 0 < p.rest.length := by
  rw [← List.nil_append (w :: more)] at h
  exact length_pos_of_append h

theorem current_mark (h : p.ahead = .mark kind :: more) : p.current.kind = kind := current_kind h

theorem accept_ahead (h : p.ahead = .mark kind :: more) : accept kind p = .ok true p.next := by
  rw [accept_apply, if_pos (current_mark h)]

theorem accept_of_ne (h : p.current.kind ≠ kind) : accept kind p = .ok false p := by
  rw [accept_apply, if_neg h]

theorem passes_mark_ahead (h : p.ahead = .mark kind :: more) (hkind : kind.isMark) :
    Passes p [.mark kind] p.next ∧ p.next.ahead = more := by
  have hpassed := passes_mark (current_kind h) hkind
  exact ⟨hpassed, hpassed.ahead_of h⟩

theorem consume_ahead (h : p.ahead = .mark kind :: more) (hkind : kind.isMark) (what : String) :
    Functor.discard (consume kind what) p = .ok () p.next :=
  Run.map_of_ok (consume_of_mark what (current_mark h) hkind)

private theorem current_name {n : String} (h : p.ahead = .name n :: more) :
    p.current.kind = .identifier ∧ p.current.lexeme = n := by
  have hkind : p.current.kind = .identifier := current_kind h
  have hword := current_word h
  rw [Token.word_of_identifier hkind] at hword
  exact ⟨hkind, Word.name.inj hword⟩

theorem expectName_ahead {n : String} (h : p.ahead = .name n :: more) (what : String) :
    expectName what p = .ok n p.next := by
  obtain ⟨hkind, rfl⟩ := current_name h
  exact expectName_of_identifier what hkind

theorem passes_name_ahead {n : String} (h : p.ahead = .name n :: more) :
    Passes p [.name n] p.next ∧ p.next.ahead = more := by
  obtain ⟨hkind, rfl⟩ := current_name h
  have hpassed := passes_name hkind
  exact ⟨hpassed, hpassed.ahead_of h⟩

theorem kind_ne_of_head (h : p.ahead.head? ≠ some (.mark kind)) (hkind : kind.isMark) :
    p.current.kind ≠ kind := by
  intro hcurrent
  rw [(passes_mark hcurrent hkind).ahead_eq] at h
  exact h rfl

private theorem kind_ne_of_loose (h : Loose k p.ahead) {n : Nat}
    (hpull : (Word.mark kind).pull? = some n)
    (hk : k ≤ n) (hkind : kind.isMark) : p.current.kind ≠ kind := by
  refine kind_ne_of_head (fun hhead => ?_) hkind
  have hlt := h (.mark kind) hhead n hpull
  omega

/-- From `p`, `x` passes `ws` and gives something good. -/
def Finds (x : Parse α) (p : Parser) (ws : List Word) (good : α → Prop) : Prop :=
  ∃ a q, x p = .ok a q ∧ Passes p ws q ∧ good a

def FindsExpr (x : Parse Expr) (p : Parser) (e : Expr) : Prop :=
  Finds x p e.words fun e' => e'.erase = e.erase

-- A loop that reads to the left goes on with what it has read.

private theorem foldPairs_stops {ops : List PairOp} {operand : Parse Expr}
    (hops : ∀ op ∈ ops, op.level = k) (h : Loose k p.ahead) :
    foldPairs ops operand fuel e p = .ok e p := by
  cases fuel with
  | zero => rfl
  | succ fuel =>
    have hnone : ops.find? (·.kind == p.current.kind) = none := by
      rw [List.find?_eq_none]
      intro op hop hkind
      have hk : k ≤ op.level := Nat.le_of_eq (hops op hop).symm
      exact kind_ne_of_loose h (Word.pull?_pair op) hk op.isMark_kind (eq_of_beq hkind).symm
    rw [foldPairs, Run.bind_of_ok (peekKind_apply p), hnone]
    rfl

private theorem foldPairs_goes_on {ops : List PairOp} {operand : Parse Expr} {op : PairOp}
    {left right : Expr} (hop : op ∈ ops) (hkind : p.current.kind = op.kind)
    (hright : operand p.next = .ok right q) :
    foldPairs ops operand (fuel + 1) left p = foldPairs ops operand fuel (op.join left right) q := by
  have hfind : ops.find? (·.kind == p.current.kind) = some op := by
    cases hfind : ops.find? (·.kind == p.current.kind) with
    | none =>
      have := List.find?_eq_none.mp hfind op hop
      simp [hkind] at this
    | some op' =>
      have hkind' : op'.kind = p.current.kind := by simpa using List.find?_some hfind
      rw [PairOp.kind_inj (hkind'.trans hkind)]
  rw [foldPairs, Run.bind_of_ok (peekKind_apply p), hfind]
  change (modify next >>= fun _ => operand >>= fun right => _) p = _
  rw [Run.bind_of_ok (Run.modify_apply next), Run.bind_of_ok hright]

/-- Wherever the words of `e` are ahead, a level of operators that is not tighter than `e` reads
them, and then goes on. -/
def ReadsFold (k : Nat) (ops : List PairOp) (tighter : List (List PairOp)) (e : Expr) : Prop :=
  ∀ ⦃fuel : Nat⦄ ⦃p : Parser⦄ ⦃more : List Word⦄, p.ahead = e.words ++ more → Loose (k + 1) more →
    2 * p.rest.length ≤ fuel + 1 →
    ∃ count e' q, pairs fuel (unary fuel) (ops :: tighter) p =
        foldPairs ops (pairs fuel (unary fuel) tighter) count e' q ∧
      q.rest.length ≤ count ∧ Passes p e.words q ∧ e'.erase = e.erase

def ReadsPairs (k : Nat) (levels : List (List PairOp)) (e : Expr) : Prop :=
  ∀ ⦃fuel : Nat⦄ ⦃p : Parser⦄ ⦃more : List Word⦄, p.ahead = e.words ++ more → Loose k more →
    2 * p.rest.length ≤ fuel + 1 → FindsExpr (pairs fuel (unary fuel) levels) p e

def ReadsUnary (e : Expr) : Prop :=
  ∀ ⦃fuel : Nat⦄ ⦃p : Parser⦄ ⦃more : List Word⦄, p.ahead = e.words ++ more → Loose 10 more →
    2 * p.rest.length ≤ fuel + 1 → FindsExpr (unary fuel) p e

def ReadsCall (e : Expr) : Prop :=
  ∀ ⦃fuel : Nat⦄ ⦃p : Parser⦄ ⦃more : List Word⦄, p.ahead = e.words ++ more →
    2 * p.rest.length ≤ fuel + 2 →
    ∃ count e' q, call fuel (expression fuel) p = trailers fuel (expression fuel) count e' q ∧
      q.rest.length ≤ count ∧ Passes p e.words q ∧ e'.erase = e.erase

def ReadsExpr (e : Expr) : Prop :=
  ∀ ⦃fuel : Nat⦄ ⦃p : Parser⦄ ⦃more : List Word⦄, p.ahead = e.words ++ more → Loose 0 more →
    2 * p.rest.length ≤ fuel → FindsExpr (expression fuel) p e

private theorem ReadsFold.readsPairs {ops : List PairOp} {tighter : List (List PairOp)}
    (hops : ∀ op ∈ ops, op.level = k) (h : ReadsFold k ops tighter e) :
    ReadsPairs k (ops :: tighter) e := by
  intro fuel p more hp hmore hfuel
  obtain ⟨count, e', q, hrun, -, hpassed, he'⟩ := h hp (hmore.mono (Nat.le_succ k)) hfuel
  refine ⟨e', q, ?_, hpassed, he'⟩
  rw [hrun, foldPairs_stops hops]
  rwa [hpassed.ahead_of hp]

private theorem ReadsPairs.readsFold {ops : List PairOp} {tighter : List (List PairOp)}
    (h : ReadsPairs (k + 1) tighter e) : ReadsFold k ops tighter e := by
  intro fuel p more hp hmore hfuel
  obtain ⟨e', q, hrun, hpassed, he'⟩ := h hp hmore hfuel
  refine ⟨fuel, e', q, Run.bind_of_ok hrun, ?_, hpassed, he'⟩
  have hlength := hpassed.length_le
  omega

private theorem ReadsFold.join {op : PairOp} {ops : List PairOp} {tighter : List (List PairOp)}
    {left right : Expr} (hop : op ∈ ops) (hleft : ReadsFold op.level ops tighter left)
    (hright : ReadsPairs (op.level + 1) tighter right) :
    ReadsFold op.level ops tighter (op.join left right) := by
  intro fuel p more hp hmore hfuel
  rw [PairOp.join_words, List.append_assoc, List.cons_append] at hp
  have hpull : Loose (op.level + 1) (.mark op.kind :: (right.words ++ more)) :=
    loose_of_pull? (by simp [Word.pull?_pair])
  obtain ⟨count, left', q, hrun, hcount, hpassed, hleft'⟩ := hleft hp hpull hfuel
  have hq := hpassed.ahead_of hp
  have hlength := hpassed.length_le
  have hpos := length_pos hq
  obtain ⟨hmark, hnext⟩ := passes_mark_ahead hq op.isMark_kind
  have hfuelRight : 2 * q.next.rest.length ≤ fuel + 1 := by
    have := hmark.length_le
    omega
  obtain ⟨right', r, hrunRight, hpassedRight, hright'⟩ := hright hnext hmore hfuelRight
  obtain ⟨count, rfl⟩ : ∃ n, count = n + 1 := ⟨count - 1, by omega⟩
  refine ⟨count, op.join left' right', r, ?_, ?_, ?_, PairOp.join_erase hleft' hright'⟩
  · rw [hrun, foldPairs_goes_on hop (current_kind hq) hrunRight]
  · exact (hmark.trans hpassedRight).length_le_pred hcount
  · rw [PairOp.join_words]
    exact hpassed.trans (hmark.trans hpassedRight)

private theorem ReadsFold.congr {e' : Expr} {ops : List PairOp} {tighter : List (List PairOp)}
    (h : ReadsFold k ops tighter e) (hwords : e'.words = e.words) (herase : e'.erase = e.erase) :
    ReadsFold k ops tighter e' := by
  unfold ReadsFold
  rw [hwords, herase]
  exact h

private theorem trailers_stops {count : Nat} (h : Loose 10 p.ahead) :
    trailers fuel expr count e p = .ok e p := by
  cases count with
  | zero => rfl
  | succ count =>
    have hparen : accept .leftParen p = .ok false p :=
      accept_of_ne (kind_ne_of_loose h rfl (Nat.le_refl 10) rfl)
    have hdot : accept .dot p = .ok false p :=
      accept_of_ne (kind_ne_of_loose h rfl (Nat.le_refl 10) rfl)
    rw [trailers, Run.bind_of_ok hparen]
    change (accept .dot >>= fun _ => _) p = _
    rw [Run.bind_of_ok hdot]
    rfl

private theorem ReadsCall.readsUnary
    (hfirst : ∃ w ws, e.words = w :: ws ∧ UnaryOp.ofKind? w.kind = none)
    (h : ReadsCall e) : ReadsUnary e := by
  intro fuel p more hp hmore hfuel
  obtain ⟨w, ws, hwords, hw⟩ := hfirst
  have hp' := hp
  rw [hwords, List.cons_append] at hp'
  have hpos := length_pos hp'
  obtain ⟨fuel, rfl⟩ : ∃ n, fuel = n + 1 := ⟨fuel - 1, by omega⟩
  obtain ⟨count, e', q, hrun, -, hpassed, he'⟩ := h hp hfuel
  refine ⟨e', q, ?_, hpassed, he'⟩
  rw [unary, Run.bind_of_ok (peekKind_apply p), current_kind hp', hw]
  change call fuel (expression fuel) p = _
  rw [hrun, trailers_stops]
  rwa [hpassed.ahead_of hp]

/-- How an expression is read in each place that it is tight enough for. -/
structure ReadBack (e : Expr) : Prop where
  call : 10 ≤ e.level → ReadsCall e
  unary : 9 ≤ e.level → ReadsUnary e
  fold : ∀ ⦃k : Nat⦄ ⦃ops : List PairOp⦄ ⦃tighter : List (List PairOp)⦄, Ranked k (ops :: tighter) →
    1 ≤ k → k ≤ e.level → ReadsFold k ops tighter e
  pairs : ∀ ⦃k : Nat⦄ ⦃levels : List (List PairOp)⦄, Ranked k levels → 1 ≤ k → k ≤ e.level →
    ReadsPairs k levels e
  expression : ReadsExpr e

/-- The levels that are looser than an expression hand it on. -/
private theorem reads_levels (hunary : 9 ≤ e.level → ReadsUnary e)
    (hfold : ∀ ⦃ops : List PairOp⦄ ⦃tighter : List (List PairOp)⦄, Ranked e.level (ops :: tighter) →
      ReadsFold e.level ops tighter e) {levels : List (List PairOp)} (hlevels : Ranked k levels)
    (hk : k ≤ e.level) :
    ReadsPairs k levels e ∧ ∀ ops tighter, levels = ops :: tighter → ReadsFold k ops tighter e := by
  induction levels generalizing k with
  | nil =>
    obtain rfl : k = 9 := hlevels
    refine ⟨?_, fun ops tighter h => (by cases h)⟩
    intro fuel p more hp hmore hfuel
    exact hunary hk hp (hmore.mono (Nat.le_succ 9)) hfuel
  | cons ops tighter ih =>
    have hfolds : ReadsFold k ops tighter e := by
      rcases Nat.eq_or_lt_of_le hk with rfl | hlt
      · exact hfold hlevels
      · exact (ih hlevels.2 hlt).1.readsFold
    refine ⟨hfolds.readsPairs fun op => (hlevels.1 op).mp, ?_⟩
    rintro ops' tighter' h
    obtain ⟨rfl, rfl⟩ := List.cons.inj h
    exact hfolds

private theorem ReadsPairs.readsExpr (h : ReadsPairs 1 PairOp.levels e) : ReadsExpr e := by
  intro fuel p more hp hmore hfuel
  obtain ⟨w, ws, hwords, -⟩ := e.words_eq_cons
  have hpos : 0 < p.rest.length := by
    rw [hwords, List.cons_append] at hp
    exact length_pos hp
  obtain ⟨fuel, rfl⟩ : ∃ n, fuel = n + 1 := ⟨fuel - 1, by omega⟩
  obtain ⟨e', q, hrun, hpassed, he'⟩ := h hp (hmore.mono (Nat.zero_le 1)) hfuel
  refine ⟨e', q, ?_, hpassed, he'⟩
  have hequal : q.current.kind ≠ .equal := by
    refine kind_ne_of_loose (k := 0) ?_ rfl (Nat.le_refl 0) rfl
    rwa [hpassed.ahead_of hp]
  rw [expression, Run.bind_of_ok hrun, Run.bind_of_ok (check_apply _ q),
    if_pos (by simpa using hequal)]
  rfl

private theorem ReadBack.of_level_pos (hpos : 1 ≤ e.level) (hcall : 10 ≤ e.level → ReadsCall e)
    (hunary : 9 ≤ e.level → ReadsUnary e)
    (hfold : ∀ ⦃ops : List PairOp⦄ ⦃tighter : List (List PairOp)⦄, Ranked e.level (ops :: tighter) →
      ReadsFold e.level ops tighter e) : ReadBack e where
  call := hcall
  unary := hunary
  fold _ _ _ hlevels _ hk := (reads_levels hunary hfold hlevels hk).2 _ _ rfl
  pairs _ _ hlevels _ hk := (reads_levels hunary hfold hlevels hk).1
  expression := (reads_levels hunary hfold PairOp.ranked_levels hpos).1.readsExpr

private theorem commaSeparated_finds {β : Type} {item : Parse α} {words : α → List Word}
    {same : α → β} {as : List α} {count n : Nat}
    (hitem : ∀ a ∈ as, ∀ ⦃p : Parser⦄ ⦃more : List Word⦄, p.ahead = words a ++ more → Loose 0 more →
      p.rest.length ≤ n → Finds item p (words a) fun a' => same a' = same a)
    (has : as ≠ []) (hp : p.ahead = commas (as.map words) ++ .mark .rightParen :: more)
    (hn : p.rest.length ≤ n) (hcount : p.rest.length ≤ count) :
    Finds (commaSeparated item count) p (commas (as.map words)) fun as' =>
      as'.map same = as.map same := by
  induction as generalizing p count with
  | nil => exact absurd rfl has
  | cons a as ih =>
    have hpos := length_pos_of_append hp
    obtain ⟨count, rfl⟩ : ∃ m, count = m + 1 := ⟨count - 1, by omega⟩
    cases as with
    | nil =>
      obtain ⟨a', q, hrun, hpassed, ha'⟩ :=
        hitem a List.mem_cons_self hp (loose_of_none rfl) hn
      have hq := hpassed.ahead_of hp
      have hcomma : accept .comma q = .ok false q :=
        accept_of_ne (current_kind_ne hq (by decide))
      refine ⟨[a'], q, ?_, hpassed, by simp [ha']⟩
      rw [commaSeparated, Run.bind_of_ok hrun, Run.bind_of_ok hcomma]
      rfl
    | cons b bs =>
      rw [List.map_cons, commas_cons _ (by simp), List.append_assoc, List.cons_append] at hp
      obtain ⟨a', q, hrun, hpassed, ha'⟩ :=
        hitem a List.mem_cons_self hp (loose_of_none rfl) hn
      have hq := hpassed.ahead_of hp
      obtain ⟨hmark, hnext⟩ := passes_mark_ahead hq rfl
      have hlength := hpassed.length_le
      have hlength' := hmark.length_le
      obtain ⟨as', r, hrun', hpassed', has'⟩ :=
        ih (fun a ha => hitem a (List.mem_cons_of_mem _ ha)) (by simp) hnext (by omega)
          (hmark.length_le_pred (Nat.le_trans hlength hcount))
      refine ⟨a' :: as', r, ?_, ?_, by simp [ha', has']⟩
      · rw [commaSeparated, Run.bind_of_ok hrun, Run.bind_of_ok (accept_ahead hq)]
        change (commaSeparated item count >>= fun as => _) q.next = _
        rw [Run.bind_of_ok hrun']
        rfl
      · rw [List.map_cons, commas_cons _ (by simp)]
        exact hpassed.trans (hmark.trans hpassed')

theorem listed_finds {β : Type} {item : Parse α} {words : α → List Word} {same : α → β}
    {as : List α} {count n : Nat}
    (hitem : ∀ a ∈ as, ∀ ⦃p : Parser⦄ ⦃more : List Word⦄, p.ahead = words a ++ more → Loose 0 more →
      p.rest.length ≤ n → Finds item p (words a) fun a' => same a' = same a)
    (hfirst : ∀ a ∈ as, ∃ w ws, words a = w :: ws ∧ w.kind ≠ .rightParen)
    (hp : p.ahead = commas (as.map words) ++ .mark .rightParen :: more)
    (hn : p.rest.length ≤ n) (hcount : p.rest.length ≤ count) :
    Finds (listed count item) p (commas (as.map words)) fun as' => as'.map same = as.map same := by
  cases as with
  | nil =>
    refine ⟨[], p, ?_, .refl p, rfl⟩
    rw [listed, Run.bind_of_ok (check_apply _ p), if_pos (beq_iff_eq.mpr (current_mark hp))]
    rfl
  | cons a as =>
    obtain ⟨a', q, hrun, hpassed, ha'⟩ :=
      commaSeparated_finds hitem (List.cons_ne_nil a as) hp hn hcount
    refine ⟨a', q, ?_, hpassed, ha'⟩
    obtain ⟨w, ws, hwords, hw⟩ := hfirst a List.mem_cons_self
    have hkind : p.current.kind ≠ .rightParen := by
      obtain ⟨tail, htail⟩ := exists_commas_eq_cons w ws (as.map words)
      rw [List.map_cons, hwords, htail] at hp
      exact current_kind_ne hp hw
    rw [listed, Run.bind_of_ok (check_apply _ p), if_neg (by simpa using hkind), hrun]

def ReadsPrimary (e : Expr) : Prop :=
  ∀ ⦃fuel : Nat⦄ ⦃p : Parser⦄ ⦃more : List Word⦄, p.ahead = e.words ++ more →
    2 * p.rest.length ≤ fuel + 2 → FindsExpr (primary (expression fuel)) p e

private theorem ReadsPrimary.readsCall (h : ReadsPrimary e) : ReadsCall e := by
  intro fuel p more hp hfuel
  obtain ⟨e', q, hrun, hpassed, he'⟩ := h hp hfuel
  refine ⟨fuel, e', q, Run.bind_of_ok hrun, ?_, hpassed, he'⟩
  obtain ⟨w, ws, hwords, -⟩ := e.words_eq_cons
  have hlength := (hwords ▸ hpassed).length_lt
  omega

private theorem constant?_none (h : p.ahead = w :: more) (hw : ∀ value, w ≠ .constant value) :
    constant? p.current = none := by
  cases hconstant : constant? p.current with
  | none => rfl
  | some value =>
    have hword := constant?_eq_some.mp hconstant
    rw [current_word h] at hword
    exact absurd hword (hw value)

private theorem readsPrimary_literal (value : Constant) (span : Span) :
    ReadsPrimary (.literal value span) := by
  intro fuel p more hp hfuel
  rw [Expr.words, List.singleton_append] at hp
  have hword := current_word hp
  refine ⟨.literal value p.current.span, p.next, ?_, passes_constant hword, rfl⟩
  rw [primary, Run.bind_of_ok Run.get_apply]
  rw [constant?_eq_some.mpr hword]
  rfl

private theorem readsPrimary_name (n : String) (span : Span) : ReadsPrimary (.name n span) := by
  intro fuel p more hp hfuel
  rw [Expr.words, List.singleton_append] at hp
  obtain ⟨hkind, hlexeme⟩ := current_name hp
  refine ⟨.name p.current.lexeme p.current.span, p.next, ?_, (passes_name_ahead hp).1, ?_⟩
  · rw [primary, Run.bind_of_ok Run.get_apply, constant?_none hp (by simp), hkind]
    rfl
  · simp only [Expr.erase, hlexeme]

private theorem readsPrimary_questo (span : Span) : ReadsPrimary (.questo span) := by
  intro fuel p more hp hfuel
  rw [Expr.words, List.singleton_append] at hp
  refine ⟨.questo p.current.span, p.next, ?_, (passes_mark_ahead hp rfl).1, rfl⟩
  rw [primary, Run.bind_of_ok Run.get_apply, constant?_none hp (by simp), current_mark hp]
  rfl

private theorem readsPrimary_super (method : String) (span : Span) : ReadsPrimary
    (.super method span) := by
  intro fuel p more hp hfuel
  rw [Expr.words] at hp
  obtain ⟨hsuper, hdot⟩ := passes_mark_ahead hp rfl
  obtain ⟨hpassed, hname⟩ := passes_mark_ahead hdot rfl
  refine ⟨.super method (p.current.span.through p.next.next.next.previous.span), p.next.next.next,
    ?_, hsuper.trans (hpassed.trans (passes_name_ahead hname).1), rfl⟩
  rw [primary, Run.bind_of_ok Run.get_apply, constant?_none hp (by simp), current_mark hp]
  change (modify next >>= fun _ => discard (consume .dot _) >>= fun _ =>
    expectName _ >>= fun _ => _) p = _
  rw [Run.bind_of_ok (Run.modify_apply next), Run.bind_of_ok (consume_ahead hdot rfl _),
    Run.bind_of_ok (expectName_ahead hname _)]
  rfl

private theorem readsPrimary_group {inner : Expr} (h : ReadsExpr inner) (span : Span) :
    ReadsPrimary (.group inner span) := by
  intro fuel p more hp hfuel
  rw [Expr.words, List.cons_append, List.cons_append, List.append_assoc, List.singleton_append] at hp
  obtain ⟨hopen, hinner⟩ := passes_mark_ahead hp rfl
  have hfuel' : 2 * p.next.rest.length ≤ fuel := by
    have hlength := hopen.length_lt
    omega
  obtain ⟨inner', q, hrun, hpassed, hinner'⟩ := h hinner (loose_of_none rfl) hfuel'
  have hq := hpassed.ahead_of hinner
  refine ⟨.group inner' (p.current.span.through q.next.previous.span), q.next, ?_, ?_, ?_⟩
  · rw [primary, Run.bind_of_ok Run.get_apply, constant?_none hp (by simp), current_mark hp]
    change (modify next >>= fun _ => expression fuel >>= fun _ =>
      discard (consume .rightParen _) >>= fun _ => _) p = _
    rw [Run.bind_of_ok (Run.modify_apply next), Run.bind_of_ok hrun,
      Run.bind_of_ok (consume_ahead hq rfl _)]
    rfl
  · rw [Expr.words]
    exact (hopen.trans hpassed).trans (passes_mark_ahead hq rfl).1
  · simp only [Expr.erase, hinner']

private theorem ReadsCall.call {callee : Expr} {arguments : List Expr} (h : ReadsCall callee)
    (harguments : ∀ a ∈ arguments, ReadsExpr a) (span : Span) :
    ReadsCall (.call callee arguments span) := by
  intro fuel p more hp hfuel
  rw [Expr.words, Expr.wordsOfAll_eq] at hp
  simp only [List.append_assoc, List.cons_append, List.nil_append] at hp
  obtain ⟨count, callee', q, hrun, hcount, hpassed, hcallee'⟩ := h hp hfuel
  have hq := hpassed.ahead_of hp
  obtain ⟨hopen, hinner⟩ := passes_mark_ahead hq rfl
  obtain ⟨count, rfl⟩ : ∃ n, count = n + 1 := ⟨count - 1, by have := length_pos hq; omega⟩
  have hfuel' : 2 * q.next.rest.length ≤ fuel := by
    have hlength := hpassed.length_le
    have hlength' := hopen.length_lt
    omega
  have hcount' : q.next.rest.length ≤ fuel := by omega
  have hitem (a : Expr) (ha : a ∈ arguments) ⦃p : Parser⦄ ⦃more : List Word⦄
      (hp : p.ahead = a.words ++ more) (hmore : Loose 0 more)
      (hlength : p.rest.length ≤ q.next.rest.length) :
      Finds (expression fuel) p a.words fun a' => a'.erase = a.erase :=
    harguments a ha hp hmore (by omega)
  have hfirst (a : Expr) (_ : a ∈ arguments) : ∃ w ws, a.words = w :: ws ∧ w.kind ≠ .rightParen := by
    obtain ⟨w, ws, hwords, hw⟩ := a.words_eq_cons
    exact ⟨w, ws, hwords, TokenKind.ne_of_beginsExpr hw rfl⟩
  obtain ⟨arguments', r, hlisted, hpassed', harguments'⟩ :=
    listed_finds hitem hfirst hinner (Nat.le_refl _) hcount'
  have hr := hpassed'.ahead_of hinner
  have hclose := (passes_mark_ahead hr rfl).1
  refine ⟨count, .call callee' arguments' (callee'.span.through r.next.previous.span), r.next,
    ?_, ?_, ?_, ?_⟩
  · rw [hrun, trailers, Run.bind_of_ok (accept_ahead hq)]
    change (listed fuel (expression fuel) >>= fun _ =>
      discard (consume .rightParen _) >>= fun _ => _) q.next = _
    rw [Run.bind_of_ok hlisted, Run.bind_of_ok (consume_ahead hr rfl _)]
    rfl
  · exact (hopen.trans (hpassed'.trans hclose)).length_le_pred hcount
  · rw [Expr.words, Expr.wordsOfAll_eq]
    simpa using hpassed.trans (hopen.trans (hpassed'.trans hclose))
  · simp only [Expr.erase, Expr.eraseAll_eq, hcallee', harguments']

private theorem ReadsCall.get {object : Expr} (h : ReadsCall object) (n : String) (span : Span) :
    ReadsCall (.get object n span) := by
  intro fuel p more hp hfuel
  rw [Expr.words, List.append_assoc] at hp
  obtain ⟨count, object', q, hrun, hcount, hpassed, hobject'⟩ := h hp hfuel
  have hq := hpassed.ahead_of hp
  obtain ⟨hdot, hname⟩ := passes_mark_ahead hq rfl
  obtain ⟨count, rfl⟩ : ∃ n, count = n + 1 := ⟨count - 1, by have := length_pos hq; omega⟩
  have hpassed' := hdot.trans (passes_name_ahead hname).1
  refine ⟨count, .get object' n (object'.span.through q.next.next.previous.span), q.next.next,
    ?_, ?_, ?_, ?_⟩
  · have hparen : accept .leftParen q = .ok false q :=
      accept_of_ne (current_kind_ne hq (by decide))
    rw [hrun, trailers, Run.bind_of_ok hparen]
    change (accept .dot >>= fun _ => _) q = _
    rw [Run.bind_of_ok (accept_ahead hq)]
    change (expectName _ >>= fun _ => _) q.next = _
    rw [Run.bind_of_ok (expectName_ahead hname _)]
    rfl
  · exact hpassed'.length_le_pred hcount
  · rw [Expr.words]
    exact hpassed.trans hpassed'
  · simp only [Expr.erase, hobject']

private theorem ReadsUnary.unary {operand : Expr} (h : ReadsUnary operand) (op : UnaryOp)
    (span : Span) :
    ReadsUnary (.unary op operand span) := by
  intro fuel p more hp hmore hfuel
  rw [Expr.words, List.cons_append] at hp
  obtain ⟨hmark, hnext⟩ := passes_mark_ahead hp op.isMark_kind
  have hlength := hmark.length_lt
  obtain ⟨fuel, rfl⟩ : ∃ n, fuel = n + 1 := ⟨fuel - 1, by omega⟩
  have hfuel' : 2 * p.next.rest.length ≤ fuel + 1 := by omega
  obtain ⟨operand', q, hrun, hpassed, hoperand'⟩ := h hnext hmore hfuel'
  refine ⟨.unary op operand' (p.current.span.through operand'.span), q, ?_, ?_, ?_⟩
  · have hkind := current_mark hp
    rw [Parser.unary, Run.bind_of_ok (peekKind_apply p), hkind, UnaryOp.ofKind?_kind]
    change (advance >>= fun _ => Parser.unary fuel >>= fun _ => _) p = _
    rw [Run.bind_of_ok (advance_of_mark hkind op.isMark_kind), Run.bind_of_ok hrun]
    rfl
  · rw [Expr.words]
    exact hmark.trans hpassed
  · simp only [Expr.erase, hoperand']

private def assignTo? (target value : Expr) : Option Expr :=
  let span := target.span.through value.span
  match target with
  | .name n _ => some (.assign n value span)
  | .get object n _ => some (.set object n value span)
  | _ => none

private theorem expression_assigns {target value : Expr} {r : Parser}
    (htarget : pairs fuel (unary fuel) PairOp.levels p = .ok target q)
    (hq : q.ahead = .mark .equal :: more) (hvalue : expression fuel q.next = .ok value r)
    (he : assignTo? target value = some e) : expression (fuel + 1) p = .ok e r := by
  have hkind := current_mark hq
  rw [expression, Run.bind_of_ok htarget, Run.bind_of_ok (check_apply _ q), if_neg (by simp [hkind]),
    Run.bind_of_ok (advance_of_mark hkind rfl), Run.bind_of_ok hvalue]
  cases target with
  | name n s => rw [← Option.some.inj he]; rfl
  | get object n s => rw [← Option.some.inj he]; rfl
  | _ => cases he

private theorem ReadsExpr.assign {target value : Expr} (htarget : ReadsPairs 1 PairOp.levels target)
    (hvalue : ReadsExpr value) (hwords : e.words = target.words ++ .mark .equal :: value.words)
    (hassign : ∀ {target' value' : Expr}, target'.erase = target.erase → value'.erase = value.erase →
      ∃ e', assignTo? target' value' = some e' ∧ e'.erase = e.erase) : ReadsExpr e := by
  intro fuel p more hp hmore hfuel
  rw [hwords, List.append_assoc, List.cons_append] at hp
  have hpos := length_pos_of_append hp
  obtain ⟨fuel, rfl⟩ : ∃ n, fuel = n + 1 := ⟨fuel - 1, by omega⟩
  obtain ⟨target', q, hrun, hpassed, htarget'⟩ :=
    htarget hp (loose_of_pull? (by simp [Word.pull?])) hfuel
  have hq := hpassed.ahead_of hp
  obtain ⟨hequal, hnext⟩ := passes_mark_ahead hq rfl
  have hfuel' : 2 * q.next.rest.length ≤ fuel := by
    have hlength := hpassed.length_le
    have hlength' := hequal.length_lt
    omega
  obtain ⟨value', r, hrun', hpassed', hvalue'⟩ := hvalue hnext hmore hfuel'
  obtain ⟨e', he', herase⟩ := hassign htarget' hvalue'
  refine ⟨e', r, expression_assigns hrun hq hrun' he', ?_, herase⟩
  rw [hwords]
  exact hpassed.trans (hequal.trans hpassed')

private theorem ReadBack.of_assignment (hlevel : e.level = 0) (h : ReadsExpr e) : ReadBack e where
  call hcall := by omega
  unary hunary := by omega
  fold k _ _ _ hpos hk := by omega
  pairs k _ _ hpos hk := by omega
  expression := h

private theorem words_eq_cons_of_call (h : e.WellFormed) (hlevel : 10 ≤ e.level) :
    ∃ w ws, e.words = w :: ws ∧ UnaryOp.ofKind? w.kind = none := by
  induction h with
  | literal value span =>
    refine ⟨.constant value, [], by rw [Expr.words], ?_⟩
    rcases value with _ | ⟨_ | _⟩ | _ | _ | _ <;> rfl
  | name n span => exact ⟨.name n, [], by rw [Expr.words], rfl⟩
  | questo span => exact ⟨.mark .questo, [], by rw [Expr.words], rfl⟩
  | super method span => exact ⟨.mark .super, _, by rw [Expr.words], rfl⟩
  | group h span => exact ⟨.mark .leftParen, _, by rw [Expr.words]; rfl, rfl⟩
  | call hcallee hcalleeLevel harguments span ih =>
    obtain ⟨w, ws, hwords, hw⟩ := ih hcalleeLevel
    exact ⟨w, _, by rw [Expr.words, hwords]; rfl, hw⟩
  | get h hobjectLevel n span ih =>
    obtain ⟨w, ws, hwords, hw⟩ := ih hobjectLevel
    exact ⟨w, _, by rw [Expr.words, hwords]; rfl, hw⟩
  | unary | assign | set => simp [Expr.level] at hlevel
  | @binary left right op =>
    have : (PairOp.binary op).level ≤ 8 := PairOp.level_le _
    simp only [Expr.level] at hlevel
    omega
  | @logical left right op =>
    have : (PairOp.logical op).level ≤ 8 := PairOp.level_le _
    simp only [Expr.level] at hlevel
    omega

private theorem ReadBack.of_call (hwell : e.WellFormed) (hlevel : 10 ≤ e.level) (h : ReadsCall e) :
    ReadBack e := by
  have hunary := h.readsUnary (words_eq_cons_of_call hwell hlevel)
  refine .of_level_pos (by omega) (fun _ => h) (fun _ => hunary) ?_
  intro ops tighter hranked
  have := hranked.2.le
  omega

private theorem ReadBack.join {op : PairOp} {left right : Expr} (hleft : ReadBack left)
    (hright : ReadBack right) (hleftLevel : op.level ≤ left.level)
    (hrightLevel : op.level + 1 ≤ right.level) (hlevel : e.level = op.level)
    (hwords : e.words = (op.join left right).words) (herase : e.erase = (op.join left right).erase) :
    ReadBack e := by
  have hpos := op.level_pos
  have hle := op.level_le
  refine .of_level_pos (by omega) (fun _ => by omega) (fun _ => by omega) ?_
  rw [hlevel]
  intro ops tighter hranked
  have hfold := hleft.fold hranked hpos hleftLevel
  have hpairs := hright.pairs hranked.2 (Nat.le_succ_of_le hpos) hrightLevel
  exact (ReadsFold.join ((hranked.1 op).mpr rfl) hfold hpairs).congr hwords herase

theorem readBack (h : e.WellFormed) : ReadBack e := by
  induction h with
  | literal value span =>
    exact .of_call (.literal value span) (Nat.le_succ 10) (readsPrimary_literal value span).readsCall
  | name n span =>
    exact .of_call (.name n span) (Nat.le_succ 10) (readsPrimary_name n span).readsCall
  | questo span =>
    exact .of_call (.questo span) (Nat.le_succ 10) (readsPrimary_questo span).readsCall
  | super method span =>
    exact .of_call (.super method span) (Nat.le_succ 10) (readsPrimary_super method span).readsCall
  | group h span ih =>
    exact .of_call (.group h span) (Nat.le_succ 10) (readsPrimary_group ih.expression span).readsCall
  | call hcallee hlevel harguments span ih iharguments =>
    refine .of_call (.call hcallee hlevel harguments span) (Nat.le_refl 10) ?_
    exact (ih.call hlevel).call (fun a ha => (iharguments a ha).expression) span
  | get h hlevel n span ih =>
    exact .of_call (.get h hlevel n span) (Nat.le_refl 10) ((ih.call hlevel).get n span)
  | unary h hlevel op span ih =>
    refine .of_level_pos (by simp [Expr.level]) (by simp [Expr.level]) ?_ ?_
    · intro _
      exact (ih.unary hlevel).unary op span
    · intro ops tighter hranked
      exact absurd hranked.2.le (by simp [Expr.level])
  | @binary left right op hleft hright hleftLevel hrightLevel span ihleft ihright =>
    exact .join ihleft ihright hleftLevel hrightLevel rfl
      (PairOp.join_words (.binary op) left right).symm rfl
  | @logical left right op hleft hright hleftLevel hrightLevel span ihleft ihright =>
    exact .join ihleft ihright hleftLevel hrightLevel rfl
      (PairOp.join_words (.logical op) left right).symm rfl
  | @assign value h n span ih =>
    have hname : ReadBack (.name n span) :=
      .of_call (.name n span) (Nat.le_succ 10) (readsPrimary_name n span).readsCall
    have htarget := hname.pairs PairOp.ranked_levels (Nat.le_refl 1) (by simp [Expr.level])
    refine .of_assignment rfl (.assign htarget ih.expression (by simp [Expr.words]) ?_)
    intro target' value' htarget hvalue
    cases target' with
    | name n' s' =>
      obtain rfl : n' = n := by simpa [Expr.erase] using htarget
      exact ⟨_, rfl, by simp only [Expr.erase, hvalue]⟩
    | _ => simp [Expr.erase] at htarget
  | @set object value hobject hlevel hvalue n span ihobject ihvalue =>
    have hget : ReadBack (.get object n span) :=
      .of_call (.get hobject hlevel n span) (Nat.le_refl 10) ((ihobject.call hlevel).get n span)
    have htarget := hget.pairs PairOp.ranked_levels (Nat.le_refl 1) (by simp [Expr.level])
    refine .of_assignment rfl (.assign htarget ihvalue.expression (by simp [Expr.words]) ?_)
    intro target' value' htarget hvalue
    cases target' with
    | get object' n' s' =>
      obtain ⟨hobject', rfl⟩ : object'.erase = object.erase ∧ n' = n := by
        simpa [Expr.erase] using htarget
      exact ⟨_, rfl, by simp only [Expr.erase, hobject', hvalue]⟩
    | _ => simp [Expr.erase] at htarget

end Parser
end Copione
