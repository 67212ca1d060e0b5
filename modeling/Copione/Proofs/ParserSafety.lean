import Mathlib.Data.List.Forall2
import Mathlib.Tactic.FinCases
import Copione.Proofs.ParserProgress
import Copione.Proofs.WatchedParser
/-!
# The parser never goes wrong

The watched parser does, token by token, what the parser does, and raises no alarm. So the parser
ends on all tokens whose last one is `eof`, looks up only tokens that are there, never passes an
`eof`, meets only operators that it knows, and keeps the depths of blocks and functions in balance.
-/
namespace Copione

/-- The watched parser `w` is at the place of `p`, with an `eof` still to come. -/
structure Shows (w : Watched) (p : Parser) : Prop where
  tokens_eq : w.tokens = p.before.reverse ++ p.rest
  place_eq : w.place = p.before.length
  before_ne : ∀ t ∈ p.before, t.kind ≠ .eof
  ended : ∃ t ∈ p.rest, t.kind = .eof
  errors_eq : w.errors = p.errors
  functionDepth_eq : w.functionDepth = p.functionDepth
  blockDepth_eq : w.blockDepth = p.blockDepth

namespace Shows

variable {w : Watched} {p : Parser}

private theorem length_pos (h : Shows w p) : 0 < p.rest.length := by
  obtain ⟨t, ht, -⟩ := h.ended
  exact List.length_pos_of_mem ht

private theorem tokenAt_eq (h : Shows w p) {number : Nat} (hnumber : number ≤ p.before.length)
    {t : Token}
    (ht : w.tokens[number]? = some t) : Watched.tokenAt number w = .ok t w := by
  have hclean : (w.tokens.take number).any (·.kind == .eof) = false := by
    rw [h.tokens_eq, List.take_append_of_le_length (by simpa using hnumber), List.any_eq_false]
    intro s hs
    have hmem : s ∈ p.before := List.mem_reverse.mp (List.mem_of_mem_take hs)
    simpa using h.before_ne s hmem
  rw [Watched.tokenAt, Run.bind_of_ok Run.get_apply]
  rw [if_neg (by simp [hclean]), ht]
  rfl

private theorem current_eq (h : Shows w p) : Watched.current w = .ok p.current w := by
  rw [Watched.current, Run.bind_of_ok Run.get_apply, h.place_eq]
  apply h.tokenAt_eq (Nat.le_refl _)
  have hpos := h.length_pos
  rw [h.tokens_eq]
  cases hrest : p.rest with
  | nil => simp [hrest] at hpos
  | cons t rest => simp [Parser.current, hrest]

private theorem previous_eq (h : Shows w p) : Watched.previous w = .ok p.previous w := by
  rw [Watched.previous, Run.bind_of_ok Run.get_apply, h.place_eq]
  apply h.tokenAt_eq (Nat.sub_le _ _)
  have hpos := h.length_pos
  rw [h.tokens_eq]
  cases hbefore : p.before with
  | nil =>
    cases hrest : p.rest with
    | nil => simp [hrest] at hpos
    | cons t rest => simp [Parser.previous, Parser.current, hbefore, hrest]
  | cons t before => simp [Parser.previous, hbefore]

private theorem push (h : Shows w p) (e : CompileError) :
    Shows { w with errors := w.errors.push e } { p with errors := p.errors.push e } :=
  ⟨h.tokens_eq, h.place_eq, h.before_ne, h.ended, congrArg (·.push e) h.errors_eq,
    h.functionDepth_eq, h.blockDepth_eq⟩

private theorem passed (h : Shows w p) (hne : p.current.kind ≠ .eof) :
    Shows { w with place := w.place + 1 } p.next := by
  obtain ⟨before, rest, errors, functionDepth, blockDepth⟩ := p
  cases rest with
  | nil => exact absurd rfl hne
  | cons t rest =>
    have ht : t.kind ≠ .eof := hne
    have hnext : Parser.next ⟨before, t :: rest, errors, functionDepth, blockDepth⟩ =
        ⟨t :: before, rest, errors, functionDepth, blockDepth⟩ := by simp [Parser.next, ht]
    rw [hnext]
    refine ⟨?_, ?_, ?_, ?_, h.errors_eq, h.functionDepth_eq, h.blockDepth_eq⟩
    · simpa using h.tokens_eq
    · simpa using h.place_eq
    · intro s hs
      rcases List.mem_cons.mp hs with rfl | hs
      · exact ht
      · exact h.before_ne s hs
    · obtain ⟨s, hs, heof⟩ := h.ended
      rcases List.mem_cons.mp hs with rfl | hs
      · exact absurd heof ht
      · exact ⟨s, hs, heof⟩

end Shows

def Agree {α : Type} (k : Nat) (w : Watched) (p : Parser) (x : Watch α) (y : Parse α) : Prop :=
  (∃ a w' q, x w = .ok a w' ∧ y p = .ok a q ∧ Shows w' q ∧ p.Onward k q) ∨
    ∃ e w' q, x w = .error (.fault e) w' ∧ y p = .error e q ∧ Shows w' q ∧ p.Onward 0 q

/-- From places with at most `n` tokens to come where `good` holds, `x` does what `y` does and
passes at least `k` tokens. -/
def Follows {α : Type} (good : Parser → Prop) (n k : Nat) (x : Watch α) (y : Parse α) : Prop :=
  ∀ ⦃w : Watched⦄ ⦃p : Parser⦄, Shows w p → good p → p.rest.length ≤ n → Agree k w p x y

abbrev Always (n k : Nat) {α : Type} (x : Watch α) (y : Parse α) : Prop :=
  Follows (fun _ => True) n k x y

section

variable {α β : Type} {good : Parser → Prop} {k m n : Nat} {x : Watch α} {y : Parse α}
  {f : α → Watch β} {g : α → Parse β}

private theorem Agree.of_eq {w : Watched} {p : Parser} {x' : Watch α} {y' : Parse α} (hx : x w = x' w)
    (hy : y p = y' p) (h : Agree k w p x' y') : Agree k w p x y := by
  rw [Agree, hx, hy]
  exact h

private theorem Follows.mono (h : Follows good n k x y) {n' k' : Nat} (hn : n' ≤ n) (hk : k' ≤ k) :
    Follows good n' k' x y := by
  intro w p hshows hgood hp
  rcases h hshows hgood (Nat.le_trans hp hn) with ⟨a, w', q, hx, hy, hshows', honward⟩ | hfail
  · exact .inl ⟨a, w', q, hx, hy, hshows', honward.mono hk⟩
  · exact .inr hfail

private theorem Follows.loose (h : Follows good n k x y) : Follows good n 0 x y :=
  h.mono (Nat.le_refl n) (Nat.zero_le k)

private theorem Follows.pred (h : Follows good n k x y) : Follows good (n - 1) k x y :=
  h.mono (Nat.sub_le n 1) (Nat.le_refl k)

private theorem Follows.at (h : Always n k x y) (good : Parser → Prop) : Follows good n k x y :=
  fun _ _ hshows _ hp => h hshows trivial hp

private theorem Follows.bind_keeping {good' : Parser → Prop} {j : Nat} (hx : Follows good n j x y)
    (hkeep : ∀ ⦃p q : Parser⦄, good p → p.Onward j q → good' q)
    (hf : ∀ a, Follows good' (n - j) m (f a) (g a)) (hk : k ≤ j + m) :
    Follows good n k (x >>= f) (y >>= g) := by
  intro w p hshows hgood hp
  rcases hx hshows hgood hp with
    ⟨a, w', q, hx, hy, hshows', honward⟩ | ⟨e, w', q, hx, hy, hshows', honward⟩
  · have hlength := honward.length_le
    rw [Agree, Run.bind_of_ok hx, Run.bind_of_ok hy]
    rcases hf a hshows' (hkeep hgood honward) (by omega) with
      ⟨b, w'', r, hfa, hga, hshows'', honward'⟩ | ⟨e, w'', r, hfa, hga, hshows'', honward'⟩
    · exact .inl ⟨b, w'', r, hfa, hga, hshows'', (honward.trans honward').mono hk⟩
    · have hall := (honward.trans honward').mono (Nat.zero_le _)
      exact .inr ⟨e, w'', r, hfa, hga, hshows'', hall⟩
  · rw [Agree, Run.bind_of_error hx, Run.bind_of_error hy]
    exact .inr ⟨e, w', q, rfl, rfl, hshows', honward⟩

private theorem Follows.bind {j : Nat} (hx : Follows good n j x y) (hf : ∀ a, Always n k (f a) (g a)) :
    Follows good n k (x >>= f) (y >>= g) := by
  apply hx.bind_keeping (fun _ _ _ _ => trivial) _ (Nat.le_add_left k j)
  intro a
  exact (hf a).mono (Nat.sub_le n j) (Nat.le_refl k)

private theorem Follows.bind_less {j : Nat} (hx : Follows good n 1 x y) (hk : k ≤ 1)
    (hf : ∀ a, Always (n - 1) j (f a) (g a)) :
    Follows good n k (x >>= f) (y >>= g) :=
  hx.bind_keeping (fun _ _ _ _ => trivial) hf (Nat.le_trans hk (Nat.le_add_right 1 j))

private theorem Follows.map (hx : Follows good n k x y) (f : α → β) : Follows good n k (f <$> x)
    (f <$> y) := by
  intro w p hshows hgood hp
  rcases hx hshows hgood hp with
    ⟨a, w', q, hx, hy, hshows', honward⟩ | ⟨e, w', q, hx, hy, hshows', honward⟩
  · exact .inl ⟨f a, w', q, Run.map_of_ok hx, Run.map_of_ok hy, hshows', honward⟩
  · exact .inr ⟨e, w', q, Run.map_of_error hx, Run.map_of_error hy, hshows', honward⟩

private theorem Follows.discard (hx : Follows good n k x y) :
    Follows good n k (Functor.discard x) (Functor.discard y) := hx.map _

private theorem follows_of_pos (h : 0 < n → Follows good n k x y) : Follows good n k x y :=
  fun _ _ hshows hgood hp => h (Nat.lt_of_lt_of_le hshows.length_pos hp) hshows hgood hp

private theorem always_pure (n : Nat) (a : α) : Always n 0 (pure a) (pure a) :=
  fun w p hshows _ _ => .inl ⟨a, w, p, rfl, rfl, hshows, .refl p⟩

end

namespace Watched

variable {α β : Type} {good : Parser → Prop} {k m n : Nat}

private theorem follows_fail (token : Token) (fault : ParseFault) :
    Follows good n k (failAt token fault : Watch α) (Parser.failAt token fault) :=
  fun w p hshows _ _ => .inr ⟨fault.report token, w, p, rfl, rfl, hshows, .refl p⟩

private theorem follows_current {f : Token → Watch α} {g : Parser → Parse α}
    (h : ∀ p, Follows (fun q => q = p ∧ good q) n k (f p.current) (g p)) :
    Follows good n k (current >>= f) (get >>= g) := by
  intro w p hshows hgood hp
  refine .of_eq (Run.bind_of_ok hshows.current_eq) (Run.bind_of_ok Run.get_apply) ?_
  exact h p hshows ⟨rfl, hgood⟩ hp

private theorem peekKind_eq {w : Watched} {p : Parser} (h : Shows w p) :
    peekKind w = .ok p.current.kind w := by
  rw [peekKind, Run.bind_of_ok h.current_eq]
  rfl

private theorem follows_peekKind {f : TokenKind → Watch α} {g : TokenKind → Parse α}
    (h : ∀ kind, Follows (fun q => q.current.kind = kind ∧ good q) n k (f kind) (g kind)) :
    Follows good n k (peekKind >>= f) (Parser.peekKind >>= g) := by
  intro w p hshows hgood hp
  refine .of_eq (Run.bind_of_ok (peekKind_eq hshows)) (Run.bind_of_ok (Parser.peekKind_apply p)) ?_
  exact h p.current.kind hshows ⟨rfl, hgood⟩ hp

private theorem check_eq {w : Watched} {p : Parser} (h : Shows w p) (kind : TokenKind) :
    check kind w = .ok (p.current.kind == kind) w := by
  rw [check, Run.bind_of_ok (peekKind_eq h)]
  rfl

private theorem follows_check (kind : TokenKind) {f : Bool → Watch α} {g : Bool → Parse α}
    (htrue : Follows (fun q => q.current.kind = kind ∧ good q) n k (f true) (g true))
    (hfalse : Follows (fun q => q.current.kind ≠ kind ∧ good q) n k (f false) (g false)) :
    Follows good n k (check kind >>= f) (Parser.check kind >>= g) := by
  intro w p hshows hgood hp
  refine .of_eq (Run.bind_of_ok (check_eq hshows kind)) (Run.bind_of_ok (Parser.check_apply kind p)) ?_
  by_cases hkind : p.current.kind = kind
  · rw [beq_iff_eq.mpr hkind]
    exact htrue hshows ⟨hkind, hgood⟩ hp
  · rw [beq_eq_false_iff_ne.mpr hkind]
    exact hfalse hshows ⟨hkind, hgood⟩ hp

private theorem next_eq {w : Watched} {p : Parser} (h : Shows w p) : ∃ w', next w = .ok
    () w' ∧ Shows w' p.next := by
  rw [next, isAtEnd, Run.bind_of_ok (check_eq h .eof)]
  by_cases hend : p.current.kind = .eof
  · rw [if_pos (beq_iff_eq.mpr hend), Parser.next_of_eof hend]
    exact ⟨w, rfl, h⟩
  · rw [if_neg (by simpa using hend)]
    exact ⟨{ w with place := w.place + 1 }, rfl, h.passed hend⟩

private theorem follows_next : Always n 0 next (modify Parser.next) := by
  intro w p hshows _ _
  obtain ⟨w', hnext, hshows'⟩ := next_eq hshows
  exact .inl ⟨(), w', p.next, hnext, rfl, hshows', Parser.onward_next p⟩

private theorem follows_next_of_ne (h : ∀ p, good p → p.current.kind ≠ .eof) :
    Follows good n 1 next (modify Parser.next) := by
  intro w p hshows hgood _
  obtain ⟨w', hnext, hshows'⟩ := next_eq hshows
  exact .inl ⟨(), w', p.next, hnext, rfl, hshows', Parser.onward_next_of_ne (h p hgood)⟩

private theorem follows_advance : Always n 0 advance Parser.advance := by
  intro w p hshows _ _
  obtain ⟨w', hnext, hshows'⟩ := next_eq hshows
  refine .inl ⟨p.next.previous, w', p.next, ?_, rfl, hshows', Parser.onward_next p⟩
  rw [advance, Run.bind_of_ok hnext, hshows'.previous_eq]

private theorem follows_advance_of_ne (h : ∀ p, good p → p.current.kind ≠ .eof) :
    Follows good n 1 advance Parser.advance := by
  intro w p hshows hgood _
  obtain ⟨w', hnext, hshows'⟩ := next_eq hshows
  refine .inl ⟨p.next.previous, w', p.next, ?_, rfl, hshows', Parser.onward_next_of_ne (h p hgood)⟩
  rw [advance, Run.bind_of_ok hnext, hshows'.previous_eq]

private theorem follows_accept (kind : TokenKind) : Always n 0 (accept kind) (Parser.accept kind) := by
  apply follows_check
  · exact (follows_next.at _).bind fun _ => always_pure _ true
  · exact (always_pure n false).at _

private theorem follows_consume {kind : TokenKind} (hkind : kind ≠ .eof) (what : String) :
    Always n 1 (consume kind what) (Parser.consume kind what) := by
  apply follows_check
  · apply follows_advance_of_ne
    rintro p ⟨rfl, -⟩
    exact hkind
  · apply follows_current
    intro p
    exact follows_fail _ _

private theorem follows_expectName (what : String) :
    Always n 1 (expectName what) (Parser.expectName what) :=
  (follows_consume (by decide) what).bind_less (Nat.le_refl 1) fun _ => always_pure _ _

private theorem follows_failExpression :
    Always n k (failExpression : Watch α) Parser.failExpression := by
  apply follows_current
  intro p
  exact follows_fail _ _

private theorem follows_spanFrom (start : Span) : Always n 0 (spanFrom start)
    (Parser.spanFrom start) := by
  intro w p hshows _ _
  refine .inl ⟨start.through p.previous.span, w, p, ?_, rfl, hshows, .refl p⟩
  rw [spanFrom, Run.bind_of_ok hshows.previous_eq]
  rfl

structure Serves (level : List TokenKind × Join) (ops : List PairOp) : Prop where
  found : ∀ kind, kind ∈ level.1 → ∃ op, level.2.op? kind = some op ∧
    ops.find? (·.kind == kind) = some op
  missed : ∀ kind, kind ∉ level.1 → ops.find? (·.kind == kind) = none

private theorem levels_serve : List.Forall₂ Serves levels PairOp.levels := by
  unfold levels PairOp.levels
  refine .cons ?_ (.cons ?_ (.cons ?_ (.cons ?_ (.cons ?_ (.cons ?_ (.cons ?_ (.cons ?_ .nil)))))))
  all_goals
    constructor
    · intro kind hkind
      fin_cases hkind <;> exact ⟨_, rfl, rfl⟩
    · intro kind hkind
      rw [List.find?_eq_none]
      intro op hop hsame
      apply hkind
      obtain rfl := eq_of_beq hsame
      fin_cases hop <;> decide

section

variable {fuel fuel' : Nat} {exprW : Watch Expr} {expr : Parse Expr}

private theorem foldPairs_follows {level : List TokenKind × Join} {ops : List PairOp}
    (hserves : Serves level ops) {operandW : Watch Expr} {operand : Parse Expr}
    (hoperand : Always n 1 operandW operand) (hfuel : n ≤ fuel) (hfuel' : n ≤ fuel') (left : Expr) :
    Always n 0 (foldPairs level.1 level.2 operandW fuel left)
      (Parser.foldPairs ops operand fuel' left) := by
  induction fuel generalizing n fuel' left with
  | zero => exact follows_of_pos fun hpos => absurd hfuel (by omega)
  | succ fuel ih =>
    apply follows_of_pos
    intro hpos
    obtain ⟨fuel', rfl⟩ : ∃ m, fuel' = m + 1 := ⟨fuel' - 1, by omega⟩
    rw [foldPairs, Parser.foldPairs]
    apply follows_peekKind
    intro kind
    by_cases hkind : kind ∈ level.1
    · obtain ⟨op, hop, hfind⟩ := hserves.found kind hkind
      have hbuild (right : Expr) : level.2.build left kind right = pure (op.join left right) := by
        rw [Join.build, hop]
      rw [if_pos (List.contains_iff_mem.mpr hkind), hfind]
      apply (follows_next.at _).bind
      intro _
      apply hoperand.bind_less (Nat.zero_le 1)
      intro right
      rw [hbuild, pure_bind]
      exact ih hoperand.pred (by omega) (by omega) _
    · rw [if_neg (by simpa using hkind), hserves.missed kind hkind]
      exact (always_pure n left).at _

private theorem pairs_follows {levels : List (List TokenKind × Join)} {levels' : List (List PairOp)}
    (hserve : List.Forall₂ Serves levels levels') (hexpr : Always n 1 exprW expr) (hfuel : n ≤ fuel)
    (hfuel' : n ≤ fuel') :
    Always n 1 (pairs fuel exprW levels) (Parser.pairs fuel' expr levels') := by
  induction hserve with
  | nil => exact hexpr
  | cons hserves _ ih =>
    rw [pairs, Parser.pairs]
    apply ih.bind_less (Nat.le_refl 1)
    intro left
    exact foldPairs_follows hserves ih.pred (by omega) (by omega) left

private theorem commaSeparated_follows {itemW : Watch α} {item : Parse α}
    (hitem : Always n 1 itemW item) (hfuel : n ≤ fuel) (hfuel' : n ≤ fuel') :
    Always n 1 (commaSeparated itemW fuel) (Parser.commaSeparated item fuel') := by
  induction fuel generalizing n fuel' with
  | zero => exact follows_of_pos fun hpos => absurd hfuel (by omega)
  | succ fuel ih =>
    apply follows_of_pos
    intro hpos
    obtain ⟨fuel', rfl⟩ : ∃ m, fuel' = m + 1 := ⟨fuel' - 1, by omega⟩
    rw [commaSeparated, Parser.commaSeparated]
    apply hitem.bind_less (Nat.le_refl 1)
    intro first
    apply (follows_accept .comma).bind
    intro more
    split
    · have hmore : Always (n - 1) 1 (commaSeparated itemW fuel) (Parser.commaSeparated item fuel') :=
        ih hitem.pred (by omega) (by omega)
      exact hmore.bind fun _ => always_pure _ _
    · exact always_pure _ _

private theorem listed_follows {itemW : Watch α} {item : Parse α}
    (hitem : Always n 1 itemW item) (hfuel : n ≤ fuel) (hfuel' : n ≤ fuel') :
    Always n 0 (listed fuel itemW) (Parser.listed fuel' item) := by
  apply follows_check
  · exact (always_pure n []).at _
  · exact (commaSeparated_follows hitem hfuel hfuel').loose.at _

private theorem primary_follows (hexpr : Always (n - 1) 1 exprW expr) :
    Always n 1 (primary exprW) (Parser.primary expr) := by
  apply follows_current
  intro p
  have hnext (h : p.current.kind ≠ .eof) :
      Follows (fun q => q = p ∧ True) n 1 next (modify Parser.next) := by
    apply follows_next_of_ne
    rintro q ⟨rfl, -⟩
    exact h
  dsimp only
  cases hconstant : Parser.constant? p.current with
  | some value =>
    have hne : p.current.kind ≠ .eof := by
      intro heof
      rw [Parser.constant?_eq_some] at hconstant
      have hkind := p.current.word_kind
      rw [hconstant, heof] at hkind
      exact TokenKind.ne_of_beginsExpr value.kind_beginsExpr rfl hkind
    exact (hnext hne).bind_less (Nat.le_refl 1) fun _ => always_pure _ _
  | none =>
    cases hkind : p.current.kind with
    | questo => exact (hnext (by simp [hkind])).bind_less (Nat.le_refl 1) fun _ => always_pure _ _
    | super =>
      apply (hnext (by simp [hkind])).bind_less (Nat.le_refl 1)
      intro _
      apply (follows_consume (by decide) _).discard.bind
      intro _
      apply (follows_expectName _).bind
      intro method
      exact (follows_spanFrom _).bind fun _ => always_pure _ _
    | identifier => exact (hnext (by simp [hkind])).bind_less (Nat.le_refl 1) fun _ => always_pure _ _
    | leftParen =>
      apply (hnext (by simp [hkind])).bind_less (Nat.le_refl 1)
      intro _
      apply hexpr.bind
      intro inner
      apply (follows_consume (by decide) _).discard.bind
      intro _
      exact (follows_spanFrom _).bind fun _ => always_pure _ _
    | _ => exact follows_failExpression.at _

private theorem trailers_follows (hexpr : Always n 1 exprW expr) {count count' : Nat}
    (hfuel : n ≤ fuel) (hfuel' : n ≤ fuel') (hcount : n ≤ count) (hcount' : n ≤ count')
    (object : Expr) :
    Always n 0 (trailers fuel exprW count object) (Parser.trailers fuel' expr count' object) := by
  induction count generalizing n count' object with
  | zero => exact follows_of_pos fun hpos => absurd hcount (by omega)
  | succ count ih =>
    apply follows_of_pos
    intro hpos
    obtain ⟨count', rfl⟩ : ∃ m, count' = m + 1 := ⟨count' - 1, by omega⟩
    rw [trailers, Parser.trailers]
    have hmore (object : Expr) :
        Always (n - 1) 0 (trailers fuel exprW count object) (Parser.trailers fuel' expr count' object) :=
      ih hexpr.pred (by omega) (by omega) (by omega) (by omega) object
    apply (follows_accept .leftParen).bind
    intro opened
    split
    · apply (listed_follows hexpr hfuel hfuel').bind
      intro arguments
      apply (follows_consume (by decide) _).discard.bind_less (Nat.zero_le 1)
      intro _
      exact (follows_spanFrom _).bind fun _ => hmore _
    apply (follows_accept .dot).bind
    intro dotted
    split
    · apply (follows_expectName _).bind_less (Nat.zero_le 1)
      intro name
      exact (follows_spanFrom _).bind fun _ => hmore _
    · exact always_pure _ _

private theorem call_follows (hexpr : Always (n - 1) 1 exprW expr) (hfuel : n - 1 ≤ fuel)
    (hfuel' : n - 1 ≤ fuel') : Always n 1 (call fuel exprW) (Parser.call fuel' expr) := by
  apply (primary_follows hexpr).bind_less (Nat.le_refl 1)
  intro object
  exact trailers_follows hexpr hfuel hfuel' hfuel hfuel' object

private theorem expression_succ_follows (hunary : Always n 1 (unary fuel) (Parser.unary fuel'))
    (hexpr : Always (n - 1) 1 (expression fuel) (Parser.expression fuel')) (hfuel : n ≤ fuel)
    (hfuel' : n ≤ fuel') : Always n 1 (expression (fuel + 1)) (Parser.expression (fuel' + 1)) := by
  rw [expression, Parser.expression]
  apply (pairs_follows levels_serve hunary hfuel hfuel').bind_less (Nat.le_refl 1)
  intro target
  apply follows_check
  · apply (follows_advance.at _).bind
    intro sign
    apply hexpr.bind
    intro value
    cases target with
    | name n s => exact always_pure _ _
    | get object n s => exact always_pure _ _
    | _ => exact follows_fail _ _
  · exact (always_pure _ target).at _

private theorem unary_succ_follows (hunary : Always (n - 1) 1 (unary fuel) (Parser.unary fuel'))
    (hexpr : Always (n - 1) 1 (expression fuel) (Parser.expression fuel')) (hfuel : n - 1 ≤ fuel)
    (hfuel' : n - 1 ≤ fuel') : Always n 1 (unary (fuel + 1)) (Parser.unary (fuel' + 1)) := by
  rw [unary, Parser.unary]
  apply follows_peekKind
  intro kind
  cases hop : UnaryOp.ofKind? kind with
  | none => exact (call_follows hexpr hfuel hfuel').at _
  | some op =>
    have hadvance : Follows (fun q => q.current.kind = kind ∧ True) n 1 advance Parser.advance := by
      apply follows_advance_of_ne
      rintro q ⟨rfl, -⟩ heof
      rw [heof] at hop
      cases hop
    apply hadvance.bind_less (Nat.le_refl 1)
    intro start
    exact hunary.bind fun _ => always_pure _ _

/-- Two steps for each token are enough, and with more steps nothing changes. -/
private theorem expression_unary_follow (fuel : Nat) :
    (∀ n fuel', 2 * n ≤ fuel → 2 * n ≤ fuel' →
      Always n 1 (expression fuel) (Parser.expression fuel')) ∧
    ∀ n fuel', 2 * n ≤ fuel + 1 → 2 * n ≤ fuel' + 1 →
      Always n 1 (unary fuel) (Parser.unary fuel') := by
  induction fuel with
  | zero =>
    constructor
    · intro n fuel' hn _
      exact follows_of_pos fun hpos => absurd hn (by omega)
    · intro n fuel' hn _
      exact follows_of_pos fun hpos => absurd hn (by omega)
  | succ fuel ih =>
    obtain ⟨hexpression, hunary⟩ := ih
    constructor
    · intro n fuel' hn hn'
      apply follows_of_pos
      intro hpos
      obtain ⟨fuel', rfl⟩ : ∃ m, fuel' = m + 1 := ⟨fuel' - 1, by omega⟩
      exact expression_succ_follows (hunary n fuel' (by omega) (by omega))
        (hexpression (n - 1) fuel' (by omega) (by omega)) (by omega) (by omega)
    · intro n fuel' hn hn'
      apply follows_of_pos
      intro hpos
      obtain ⟨fuel', rfl⟩ : ∃ m, fuel' = m + 1 := ⟨fuel' - 1, by omega⟩
      exact unary_succ_follows (hunary (n - 1) fuel' (by omega) (by omega))
        (hexpression (n - 1) fuel' (by omega) (by omega)) (by omega) (by omega)

private theorem expression_follows (h : 2 * n ≤ fuel) (h' : 2 * n ≤ fuel') :
    Always n 1 (expression fuel) (Parser.expression fuel') :=
  (expression_unary_follow fuel).1 n fuel' h h'

private theorem skipBranch_follows {depth : Nat} (hfuel : n ≤ fuel) :
    Always n 0 (skipBranch fuel depth) (modify fun p => p.skip (Parser.branchLength depth p.rest)) := by
  induction fuel generalizing n depth with
  | zero => exact follows_of_pos fun hpos => absurd hfuel (by omega)
  | succ fuel ih =>
    intro w p hshows _ hp
    obtain ⟨t, rest, hrest⟩ := List.exists_cons_of_length_pos hshows.length_pos
    have hkind : p.current.kind = t.kind := by rw [Parser.current, hrest]; rfl
    have hstay (hlength : Parser.branchLength depth p.rest = 0) :
        Agree 0 w p (pure ()) (modify fun p => p.skip (Parser.branchLength depth p.rest)) := by
      refine .inl ⟨(), w, p, rfl, ?_, hshows, .refl p⟩
      rw [Run.modify_apply, hlength]
      rfl
    have hlast (hlength : Parser.branchLength depth p.rest = 1) :
        Agree 0 w p next (modify fun p => p.skip (Parser.branchLength depth p.rest)) := by
      have hnext : Agree 0 w p next (modify Parser.next) := follows_next hshows trivial hp
      refine .of_eq rfl ?_ hnext
      rw [Run.modify_apply, hlength]
      rfl
    have hmore (depth' : Nat) (ht : t.kind ≠ .eof)
        (hlength : Parser.branchLength depth p.rest = 1 + Parser.branchLength depth' rest) :
        Agree 0 w p (next >>= fun _ => skipBranch fuel depth')
          (modify fun p => p.skip (Parser.branchLength depth p.rest)) := by
      have hgood : p.current.kind ≠ .eof := by rwa [hkind]
      have hnext : Follows (fun q => q = p) n 1 next (modify Parser.next) :=
        follows_next_of_ne fun q hq => hq ▸ hgood
      have hskip : Always (n - 1) 0 (skipBranch fuel depth')
          (modify fun p => p.skip (Parser.branchLength depth' p.rest)) := ih (by omega)
      have hboth := hnext.bind_less (Nat.zero_le 1) (fun _ => hskip) hshows rfl hp
      refine .of_eq rfl ?_ hboth
      rw [Run.modify_apply, hlength, Nat.add_comm, Parser.skip, Run.bind_of_ok (Run.modify_apply _),
        Run.modify_apply, Parser.next_rest_of_cons hrest ht]
    rw [Agree, skipBranch, Run.bind_of_ok (peekKind_eq hshows), ← Agree, hkind]
    split
    · next ht => exact hstay (by simp [hrest, Parser.branchLength, ht])
    · next ht => exact hstay (by simp [hrest, Parser.branchLength, ht])
    · next ht => exact hlast (by simp [hrest, Parser.branchLength, ht])
    · next ht => exact hlast (by simp [hrest, Parser.branchLength, ht])
    · next ht => exact hmore _ (by simp [ht]) (by simp [hrest, Parser.branchLength, ht])
    · next ht => exact hmore _ (by simp [ht]) (by simp [hrest, Parser.branchLength, ht])
    · next heof hopen hstray hclose hsemicolon hdeep =>
      apply hmore _ heof
      rw [hrest, Parser.branchLength.eq_def]
      grind

private theorem skipBranches_follows {count count' : Nat} (hfuel : n ≤ fuel) (hcount : n ≤ count)
    (hcount' : n ≤ count') :
    Always n 0 (skipBranches fuel count) (modify (Parser.skipBranches count')) := by
  induction count generalizing n count' with
  | zero => exact follows_of_pos fun hpos => absurd hcount (by omega)
  | succ count ih =>
    apply follows_of_pos
    intro hpos w p hshows _ hp
    obtain ⟨count', rfl⟩ : ∃ m, count' = m + 1 := ⟨count' - 1, by omega⟩
    by_cases hoppure : p.current.kind = .oppure
    · have hgood : p.current.kind ≠ .eof := by simp [hoppure]
      have hnext : Follows (fun q => q = p) n 1 next (modify Parser.next) :=
        follows_next_of_ne fun q hq => hq ▸ hgood
      have hskip : Always (n - 1) 0 (skipBranch fuel 0)
          (modify fun p => p.skip (Parser.branchLength 0 p.rest)) := skipBranch_follows (by omega)
      have hmore : Always (n - 1) 0 (skipBranches fuel count) (modify (Parser.skipBranches count')) :=
        ih (by omega) (by omega) (by omega)
      have hall := hnext.bind_less (Nat.zero_le 1) (fun _ => hskip.bind fun _ => hmore) hshows rfl
        hp
      refine .of_eq ?_ ?_ hall
      · obtain ⟨w', hw', -⟩ := next_eq hshows
        rw [skipBranches, Run.bind_of_ok hw', Run.bind_of_ok (t := w') (a := true)]
        · rfl
        · rw [accept, Run.bind_of_ok (check_eq hshows .oppure), if_pos (by simp [hoppure]),
            Run.bind_of_ok hw']
          rfl
      · rw [Run.modify_apply, Parser.skipBranches, if_pos (by simp [hoppure])]
        rfl
    · refine .inl ⟨(), w, p, ?_, ?_, hshows, .refl p⟩
      · rw [skipBranches, Run.bind_of_ok (t := w) (a := false)]
        · rfl
        · rw [accept, Run.bind_of_ok (check_eq hshows .oppure), if_neg (by simp [hoppure])]
          rfl
      · rw [Run.modify_apply, Parser.skipBranches, if_neg (by simp [hoppure])]

private theorem atBoundary_eq {w : Watched} {p : Parser} (h : Shows w p)
    (hoppure : p.current.kind ≠ .oppure) :
    atBoundary w =
      .ok (decide (p.previous.kind = .semicolon ∨ p.current.kind ∈ Parser.boundaries)) w := by
  rw [atBoundary, isAtEnd, Run.bind_of_ok (check_eq h .eof), Run.bind_of_ok h.previous_eq,
    Run.bind_of_ok (peekKind_eq h), Run.pure_apply]
  congr 1
  rw [Bool.eq_iff_iff]
  simp only [Parser.boundaries, List.contains_iff_mem, List.mem_cons, List.not_mem_nil, hoppure,
    Bool.or_eq_true, beq_iff_eq, decide_eq_true_eq, false_or, or_false]
  tauto

private theorem seekBoundary_follows {count : Nat} (hfuel : n ≤ fuel) (hcount : n ≤ count) :
    Always n 0 (seekBoundary fuel count) (modify Parser.settled) := by
  induction count generalizing n with
  | zero => exact follows_of_pos fun hpos => absurd hcount (by omega)
  | succ count ih =>
    intro w p hshows _ hp
    have hcheck := check_eq hshows .oppure
    by_cases hoppure : p.current.kind = .oppure
    · have hbranches : Agree 0 w p (skipBranches fuel fuel)
          (modify (Parser.skipBranches p.rest.length)) :=
        skipBranches_follows (n := p.rest.length) (by omega) (by omega) (Nat.le_refl _) hshows trivial
          (Nat.le_refl _)
      refine .of_eq ?_ ?_ hbranches
      · rw [seekBoundary, Run.bind_of_ok hcheck, if_pos (by simp [hoppure])]
      · rw [Run.modify_apply, Run.modify_apply,
          Parser.settled_of_boundary (.inr (by rw [hoppure]; decide))]
    have hat := atBoundary_eq hshows hoppure
    by_cases hboundary : p.previous.kind = .semicolon ∨ p.current.kind ∈ Parser.boundaries
    · refine .inl ⟨(), w, p, ?_, ?_, hshows, .refl p⟩
      · rw [seekBoundary, Run.bind_of_ok hcheck, if_neg (by simp [hoppure]), Run.bind_of_ok hat,
          if_pos (by simpa using hboundary)]
        rfl
      · rw [Run.modify_apply, Parser.settled_of_boundary hboundary, Parser.skipBranches_of_ne hoppure]
    · obtain ⟨hsemicolon, hkind⟩ := not_or.mp hboundary
      have hgood : p.current.kind ≠ .eof := by
        intro heof
        rw [heof] at hkind
        exact hkind (by decide)
      have hnext : Follows (fun q => q = p) n 1 next (modify Parser.next) :=
        follows_next_of_ne fun q hq => hq ▸ hgood
      have hmore := hnext.bind_less (Nat.zero_le 1)
        (fun _ => ih (n := n - 1) (by omega) (by omega)) hshows rfl hp
      refine .of_eq ?_ ?_ hmore
      · rw [seekBoundary, Run.bind_of_ok hcheck, if_neg (by simp [hoppure]), Run.bind_of_ok hat,
          if_neg (by simpa using hboundary)]
      · rw [Run.modify_apply, Parser.settled_next hsemicolon hkind]
        rfl

private theorem synchronize_follows (hfuel : n ≤ fuel) :
    Always n 0 (synchronize fuel) (modify Parser.synchronize) := by
  intro w p hshows _ hp
  have hcheck := check_eq hshows .rightBrace
  have hdepth := hshows.blockDepth_eq
  by_cases hclose : 0 < p.blockDepth ∧ p.current.kind = .rightBrace
  · refine .inl ⟨(), w, p, ?_, ?_, hshows, .refl p⟩
    · rw [synchronize, Run.bind_of_ok Run.get_apply, Run.bind_of_ok hcheck,
        if_pos (by simpa [hdepth] using hclose)]
      rfl
    · rw [Run.modify_apply, Parser.synchronize_eq, if_pos hclose]
  · have hboth := (follows_next (n := n)).bind (fun _ => seekBoundary_follows hfuel hfuel) hshows
      trivial hp
    refine .of_eq ?_ ?_ hboth
    · rw [synchronize, Run.bind_of_ok Run.get_apply, Run.bind_of_ok hcheck,
        if_neg (by simpa [hdepth] using hclose)]
    · rw [Run.modify_apply, Parser.synchronize_eq, if_neg hclose]
      rfl

private theorem recovering_follows {declW : Watch Stmt} {decl : Parse Stmt}
    (hdecl : Follows good n 1 declW decl) (hfuel : n ≤ fuel) :
    Follows (fun p => good p ∧ p.current.kind ≠ .eof ∧
      (p.blockDepth = 0 ∨ p.current.kind ≠ .rightBrace)) n 1
      (recovering fuel declW) (Parser.recovering decl) := by
  rintro w p hshows ⟨hgood, hend, hbrace⟩ hp
  rcases hdecl hshows hgood hp with
    ⟨s, w', q, hx, hy, hshows', honward⟩ | ⟨e, w', q, hx, hy, hshows', honward⟩
  · refine .inl ⟨some s, w', q, ?_, ?_, hshows', honward⟩
    · simp only [recovering, hx]
    · simp only [Parser.recovering, hy]
  · have hpushed := hshows'.push e
    let reported : Parser := { q with errors := q.errors.push e }
    have hlength : reported.rest.length ≤ n := by
      have := honward.length_le
      change q.rest.length ≤ n
      omega
    rcases synchronize_follows hfuel hpushed trivial hlength with
      ⟨_, w'', q', hx', hy', hshows'', -⟩ | ⟨e', w'', q', hx', hy', hshows'', -⟩
    · obtain ⟨-, rfl⟩ := EStateM.Result.ok.inj hy'
      refine .inl ⟨none, w'', reported.synchronize, ?_, ?_, hshows'', ?_⟩
      · simp only [recovering, hx]
        exact Run.map_of_ok hx'
      · simp only [Parser.recovering, hy]
        rfl
      · -- Either the fault lies behind the first token, or that token is passed now.
        have hreported : p.Onward 0 reported :=
          ⟨honward.passed, honward.functionDepth_eq, honward.blockDepth_eq⟩
        by_cases hsame : reported.current = p.current
        · refine hreported.trans (Parser.onward_synchronize_of_ne ?_ ?_)
          · rwa [hsame]
          · rwa [hsame, hreported.blockDepth_eq]
        · exact (hreported.of_current_ne hsame).trans (Parser.onward_synchronize reported)
    · cases hy'

private theorem declarations_follows {stopW : Watch Bool} {stop : Parser → Bool} {declW : Watch Stmt}
    {decl : Parse Stmt} {count count' : Nat}
    (hstop : ∀ ⦃w : Watched⦄ ⦃p : Parser⦄, Shows w p → stopW w = .ok (stop p) w)
    (hgoesOn : ∀ ⦃p : Parser⦄, good p → stop p = false →
      p.current.kind ≠ .eof ∧ (p.blockDepth = 0 ∨ p.current.kind ≠ .rightBrace))
    (hkeep : ∀ ⦃p q : Parser⦄, good p → p.Onward 1 q → good q)
    (hdecl : Follows good n 1 declW decl) (hfuel : n ≤ fuel) (hcount : n ≤ count)
    (hcount' : n ≤ count') :
    Follows good n 0 (declarations fuel stopW declW count)
      (Parser.declarations stop decl count') := by
  induction count generalizing n count' with
  | zero => exact follows_of_pos fun hpos => absurd hcount (by omega)
  | succ count ih =>
    apply follows_of_pos
    intro hpos w p hshows hgood hp
    obtain ⟨count', rfl⟩ : ∃ m, count' = m + 1 := ⟨count' - 1, by omega⟩
    rw [declarations, Parser.declarations]
    cases hstopped : stop p with
    | true =>
      refine .inl ⟨[], w, p, ?_, ?_, hshows, .refl p⟩
      · rw [Run.bind_of_ok (hstop hshows), if_pos hstopped]
        rfl
      · rw [Run.bind_of_ok Run.get_apply, if_pos hstopped]
        rfl
    | false =>
      have hmore : Follows good (n - 1) 0 (declarations fuel stopW declW count)
          (Parser.declarations stop decl count') :=
        ih hdecl.pred (by omega) (by omega) (by omega)
      have hall := (recovering_follows hdecl hfuel).bind_keeping (k := 0) (m := 0)
        (fun p q h => hkeep h.1)
        (fun s => hmore.bind fun ss => always_pure _ (s.toList ++ ss)) (by omega)
        hshows ⟨hgood, hgoesOn hgood hstopped⟩ hp
      refine .of_eq ?_ ?_ hall
      · rw [Run.bind_of_ok (hstop hshows), if_neg (by simp [hstopped])]
      · rw [Run.bind_of_ok Run.get_apply, if_neg (by simp [hstopped])]

variable {declW stmtW : Watch Stmt} {decl stmt : Parse Stmt}

private theorem stopBlock_eq {w : Watched} {p : Parser} (h : Shows w p) :
    (do return (← check .rightBrace) || (← isAtEnd) : Watch Bool) w =
      .ok (p.current.kind == .rightBrace || p.isAtEnd) w := by
  rw [Run.bind_of_ok (check_eq h .rightBrace), isAtEnd, Run.bind_of_ok (check_eq h .eof)]
  rfl

private theorem blockBody_follows (hdecl : Always n 1 declW decl) (hfuel : n ≤ fuel)
    (hfuel' : n ≤ fuel') : Always n 1 (blockBody fuel declW) (Parser.blockBody fuel' decl) := by
  intro w p hshows _ hp
  let entered : Parser := { p with blockDepth := p.blockDepth + 1 }
  have hentered : Shows { w with blockDepth := w.blockDepth + 1 } entered :=
    ⟨hshows.tokens_eq, hshows.place_eq, hshows.before_ne, hshows.ended, hshows.errors_eq,
      hshows.functionDepth_eq, congrArg (· + 1) hshows.blockDepth_eq⟩
  have hgoesOn ⦃p : Parser⦄ (_ : True) (h : (p.current.kind == .rightBrace || p.isAtEnd) = false) :
      p.current.kind ≠ .eof ∧ (p.blockDepth = 0 ∨ p.current.kind ≠ .rightBrace) := by
    simp only [Parser.isAtEnd, Bool.or_eq_false_iff, beq_eq_false_iff_ne] at h
    exact ⟨h.2, .inr h.1⟩
  obtain ⟨ss, q, hq⟩ := Parser.declarations_eq_ok
    (fun p => p.current.kind == .rightBrace || p.isAtEnd) decl fuel' entered
  rcases declarations_follows @stopBlock_eq hgoesOn (fun _ _ _ _ => trivial) hdecl hfuel hfuel hfuel'
    hentered trivial hp with ⟨ss', w', q', hx, hy, hshows', honward⟩ | ⟨e, w', q', hx, hy, -, -⟩
  · let left : Parser := { q' with blockDepth := q'.blockDepth - 1 }
    have hdepth : w'.blockDepth = w.blockDepth + 1 := by
      rw [hshows'.blockDepth_eq, honward.blockDepth_eq, hshows.blockDepth_eq]
    have hleave : leaveBlock w' = .ok () { w' with blockDepth := w.blockDepth } := by
      rw [leaveBlock, Run.bind_of_ok Run.get_apply, hdepth]
      rfl
    have hleft : Shows { w' with blockDepth := w.blockDepth } left := by
      refine ⟨hshows'.tokens_eq, hshows'.place_eq, hshows'.before_ne, hshows'.ended,
        hshows'.errors_eq, hshows'.functionDepth_eq, ?_⟩
      change w.blockDepth = q'.blockDepth - 1
      rw [honward.blockDepth_eq, hshows.blockDepth_eq]
      rfl
    have hbehind : p.Onward 0 left := honward.closed
    have hlength := hbehind.length_le
    have hend : Always n 1 (discard (consume .rightBrace "'\x7d' after block") >>= fun _ => pure ss')
        (discard (Parser.consume .rightBrace "'\x7d' after block") >>= fun _ => pure ss') :=
      (follows_consume (by decide) _).discard.bind_less (Nat.le_refl 1) fun _ => always_pure _ _
    have hstart : blockBody fuel declW w =
        (discard (consume .rightBrace "'\x7d' after block") >>= fun _ => pure ss')
          { w' with blockDepth := w.blockDepth } := by
      rw [blockBody, Run.bind_of_ok (t := { w with blockDepth := w.blockDepth + 1 }) (a := ())]
      · rw [Run.bind_of_ok hx, Run.bind_of_ok hleave]
      · rfl
    rw [Agree, hstart, Parser.blockBody_of_ok hy]
    rcases hend hleft trivial (by omega) with
      ⟨a, w'', r, hx', hy', hshows'', honward'⟩ | ⟨e, w'', r, hx', hy', hshows'', honward'⟩
    · exact .inl ⟨a, w'', r, hx', hy', hshows'', hbehind.trans honward'⟩
    · exact .inr ⟨e, w'', r, hx', hy', hshows'', hbehind.trans honward'⟩
  · rw [hq] at hy
    cases hy

private theorem inFunction_follows {bodyW : Watch α} {body : Parse α} (hbody : Always n k bodyW body) :
    Always n k (inFunction bodyW) (Parser.inFunction body) := by
  intro w p hshows _ hp
  let entered : Parser := { p with functionDepth := p.functionDepth + 1 }
  have hentered : Shows { w with functionDepth := w.functionDepth + 1 } entered :=
    ⟨hshows.tokens_eq, hshows.place_eq, hshows.before_ne, hshows.ended, hshows.errors_eq,
      congrArg (· + 1) hshows.functionDepth_eq, hshows.blockDepth_eq⟩
  have hleave {j : Nat} {w' : Watched} {q : Parser} (hshows' : Shows w' q)
      (honward : entered.Onward j q) :
      leaveFunction w' = .ok () { w' with functionDepth := w.functionDepth } ∧
        Shows { w' with functionDepth := w.functionDepth }
          { q with functionDepth := q.functionDepth - 1 } ∧
        p.Onward j { q with functionDepth := q.functionDepth - 1 } := by
    have hdepth : q.functionDepth = p.functionDepth + 1 := honward.functionDepth_eq
    have hdepth' : w'.functionDepth = w.functionDepth + 1 := by
      rw [hshows'.functionDepth_eq, hdepth, hshows.functionDepth_eq]
    refine ⟨?_, ⟨hshows'.tokens_eq, hshows'.place_eq, hshows'.before_ne, hshows'.ended,
      hshows'.errors_eq, ?_, hshows'.blockDepth_eq⟩, honward.left⟩
    · rw [leaveFunction, Run.bind_of_ok Run.get_apply, hdepth']
      rfl
    · change w.functionDepth = q.functionDepth - 1
      rw [hdepth, hshows.functionDepth_eq]
      rfl
  rcases hbody hentered trivial hp with
    ⟨a, w', q, hx, hy, hshows', honward⟩ | ⟨e, w', q, hx, hy, hshows', honward⟩
  · obtain ⟨hleft, hshows'', honward'⟩ := hleave hshows' honward
    refine .inl ⟨a, _, _, ?_, ?_, hshows'', honward'⟩
    · simp only [inFunction, hx]
      exact Run.map_of_ok hleft
    · exact Parser.inFunction_of_ok hy
  · obtain ⟨hleft, hshows'', honward'⟩ := hleave hshows' honward
    refine .inr ⟨e, _, _, ?_, ?_, hshows'', honward'⟩
    · simp only [inFunction, hx]
      rw [Run.bind_of_ok hleft]
      rfl
    · exact Parser.inFunction_of_error hy

private theorem varDeclaration_follows (hexpr : Always n 1 exprW expr) :
    Always n 1 (varDeclaration exprW) (Parser.varDeclaration expr) := by
  apply follows_advance.bind
  intro start
  apply (follows_expectName _).bind_less (Nat.le_refl 1)
  intro name
  have hsemicolon : Always (n - 1) 1 (consume .semicolon "';' after variable declaration")
      (Parser.consume .semicolon "';' after variable declaration") := follows_consume (by decide) _
  have hend (initial : Option Expr) := hsemicolon.discard.bind fun _ =>
    (follows_spanFrom start.span).bind fun span => always_pure _ (Stmt.var name initial span)
  apply (follows_accept .equal).bind
  intro given
  dsimp only
  split
  · exact (hexpr.pred.map some).bind hend
  · exact (always_pure _ none).bind hend

private theorem functionDeclaration_follows (hdecl : Always (n - 1) 1 declW decl) (hfuel : n ≤ fuel)
    (hfuel' : n ≤ fuel') :
    Always n 1 (functionDeclaration fuel declW) (Parser.functionDeclaration fuel' decl) := by
  apply follows_advance.bind
  intro start
  apply (follows_expectName _).bind_less (Nat.le_refl 1)
  intro name
  apply (follows_consume (by decide) _).discard.bind
  intro _
  apply (listed_follows (follows_expectName _) (by omega) (by omega)).bind
  intro params
  apply (follows_consume (by decide) _).discard.bind
  intro _
  apply (follows_consume (by decide) _).discard.bind
  intro _
  apply (inFunction_follows (blockBody_follows hdecl (by omega) (by omega))).bind
  intro body
  exact (follows_spanFrom _).bind fun _ => always_pure _ _

private theorem ifStatement_follows (hexpr : Always n 1 exprW expr)
    (hstmt : Always (n - 1) 1 stmtW stmt) :
    Always n 1 (ifStatement exprW stmtW) (Parser.ifStatement expr stmt) := by
  apply follows_advance.bind
  intro start
  apply (follows_consume (by decide) _).discard.bind_less (Nat.le_refl 1)
  intro _
  apply hexpr.pred.bind
  intro condition
  apply (follows_consume (by decide) _).discard.bind
  intro _
  apply hstmt.bind
  intro thenBranch
  have hend (elseBranch : Option Stmt) := (follows_spanFrom (n := n - 1) start.span).bind fun span =>
    always_pure _ (Stmt.cond condition thenBranch elseBranch span)
  apply (follows_accept .oppure).bind
  intro given
  dsimp only
  split
  · exact (hstmt.map some).bind hend
  · exact (always_pure _ none).bind hend

private theorem whileStatement_follows (hexpr : Always n 1 exprW expr)
    (hstmt : Always (n - 1) 1 stmtW stmt) :
    Always n 1 (whileStatement exprW stmtW) (Parser.whileStatement expr stmt) := by
  apply follows_advance.bind
  intro start
  apply (follows_consume (by decide) _).discard.bind_less (j := 0) (Nat.le_refl 1)
  intro _
  apply follows_check
  · apply follows_current
    intro p
    exact follows_fail _ _
  apply (hexpr.pred.at _).bind
  intro condition
  apply (follows_consume (by decide) _).discard.bind
  intro _
  apply hstmt.bind
  intro body
  exact (follows_spanFrom _).bind fun _ => always_pure _ _

private theorem returnStatement_follows (hexpr : Always n 1 exprW expr) :
    Always n 1 (returnStatement exprW) (Parser.returnStatement expr) := by
  apply follows_current
  intro p w q hshows hgood hq
  obtain ⟨rfl, -⟩ := hgood
  refine .of_eq (Run.bind_of_ok Run.get_apply) rfl ?_
  rw [hshows.functionDepth_eq]
  by_cases houtside : q.functionDepth = 0
  · rw [if_pos (by simpa using houtside), if_pos (by simpa using houtside)]
    exact (follows_fail _ _).at (fun _ => True) hshows trivial hq
  · rw [if_neg (by simpa using houtside), if_neg (by simpa using houtside)]
    have hsemicolon : Always n 1 (consume .semicolon "';' after return value")
        (Parser.consume .semicolon "';' after return value") := follows_consume (by decide) _
    have hend (value : Option Expr) (start : Token) := hsemicolon.discard.bind_less (Nat.le_refl 1) fun _ =>
      (follows_spanFrom start.span).bind fun span => always_pure _ (Stmt.ret value span)
    apply follows_advance.bind _ hshows trivial hq
    intro start
    apply follows_check
    · exact ((always_pure _ none).at _).bind fun value => hend value start
    · exact ((hexpr.map some).at _).bind fun value => hend value start

private theorem blockStatement_follows (hgood : ∀ p, good p → p.current.kind ≠ .eof)
    (hdecl : Always (n - 1) 1 declW decl) (hfuel : n ≤ fuel) (hfuel' : n ≤ fuel') :
    Follows good n 1 (blockStatement fuel declW) (Parser.blockStatement fuel' decl) := by
  apply (follows_advance_of_ne hgood).bind_less (Nat.le_refl 1)
  intro start
  apply (blockBody_follows hdecl (by omega) (by omega)).bind
  intro body
  exact (follows_spanFrom _).bind fun _ => always_pure _ _

private theorem expressionStatement_follows (hexpr : Always n 1 exprW expr) :
    Always n 1 (expressionStatement exprW) (Parser.expressionStatement expr) := by
  apply hexpr.bind_less (Nat.le_refl 1)
  intro value
  apply (follows_consume (by decide) _).discard.bind
  intro _
  exact (follows_spanFrom _).bind fun _ => always_pure _ _

private theorem declaration_succ_follows
    (hexpr : Always n 1 (expression fuel) (Parser.expression fuel'))
    (hdecl : Always (n - 1) 1 (declaration fuel) (Parser.declaration fuel'))
    (hstmt : Always n 1 (statement fuel) (Parser.statement fuel')) (hfuel : n ≤ fuel)
    (hfuel' : n ≤ fuel') : Always n 1 (declaration (fuel + 1)) (Parser.declaration (fuel' + 1)) := by
  rw [declaration, Parser.declaration]
  apply follows_peekKind
  intro kind
  cases kind with
  | variabile => exact (varDeclaration_follows hexpr).at _
  | funzione => exact (functionDeclaration_follows hdecl hfuel hfuel').at _
  | _ => exact hstmt.at _

private theorem statement_succ_follows (hexpr : Always n 1 (expression fuel) (Parser.expression fuel'))
    (hdecl : Always (n - 1) 1 (declaration fuel) (Parser.declaration fuel'))
    (hstmt : Always (n - 1) 1 (statement fuel) (Parser.statement fuel')) (hfuel : n ≤ fuel)
    (hfuel' : n ≤ fuel') : Always n 1 (statement (fuel + 1)) (Parser.statement (fuel' + 1)) := by
  rw [statement, Parser.statement]
  apply follows_peekKind
  intro kind
  cases kind with
  | se => exact (ifStatement_follows hexpr hstmt).at _
  | mentre => exact (whileStatement_follows hexpr hstmt).at _
  | ritorna => exact (returnStatement_follows hexpr).at _
  | leftBrace =>
    apply blockStatement_follows _ hdecl hfuel hfuel'
    rintro p ⟨hkind, -⟩
    simp [hkind]
  | _ => exact (expressionStatement_follows hexpr).at _

private theorem declaration_statement_follow (fuel : Nat) :
    (∀ n fuel', 2 * n + 2 ≤ fuel → 2 * n + 2 ≤ fuel' →
      Always n 1 (declaration fuel) (Parser.declaration fuel')) ∧
    ∀ n fuel', 2 * n + 1 ≤ fuel → 2 * n + 1 ≤ fuel' →
      Always n 1 (statement fuel) (Parser.statement fuel') := by
  induction fuel with
  | zero =>
    constructor
    · intro n fuel' hn _
      exact absurd hn (by omega)
    · intro n fuel' hn _
      exact absurd hn (by omega)
  | succ fuel ih =>
    obtain ⟨hdeclaration, hstatement⟩ := ih
    constructor
    · intro n fuel' hn hn'
      apply follows_of_pos
      intro hpos
      obtain ⟨fuel', rfl⟩ : ∃ m, fuel' = m + 1 := ⟨fuel' - 1, by omega⟩
      exact declaration_succ_follows (expression_follows (by omega) (by omega))
        (hdeclaration (n - 1) fuel' (by omega) (by omega))
        (hstatement n fuel' (by omega) (by omega)) (by omega) (by omega)
    · intro n fuel' hn hn'
      apply follows_of_pos
      intro hpos
      obtain ⟨fuel', rfl⟩ : ∃ m, fuel' = m + 1 := ⟨fuel' - 1, by omega⟩
      exact statement_succ_follows (expression_follows (by omega) (by omega))
        (hdeclaration (n - 1) fuel' (by omega) (by omega))
        (hstatement (n - 1) fuel' (by omega) (by omega)) (by omega) (by omega)

private theorem declaration_follows (h : 2 * n + 2 ≤ fuel) (h' : 2 * n + 2 ≤ fuel') :
    Always n 1 (declaration fuel) (Parser.declaration fuel') :=
  (declaration_statement_follow fuel).1 n fuel' h h'

def Outside (p : Parser) : Prop := p.functionDepth = 0 ∧ p.blockDepth = 0

private theorem outermost_follows (hdecl : Always n 1 declW decl) :
    Follows Outside n 1 (outermost declW) decl := by
  intro w p hshows houtside hp
  refine .of_eq ?_ rfl (hdecl hshows trivial hp)
  rw [outermost, Run.bind_of_ok Run.get_apply, hshows.functionDepth_eq, hshows.blockDepth_eq,
    houtside.1, houtside.2]
  rfl

private theorem program_follows (h : 2 * n + 2 ≤ fuel) (h' : 2 * n + 2 ≤ fuel') :
    Follows Outside n 0 (program fuel) (Parser.program fuel') := by
  apply declarations_follows (fun w p hshows => check_eq hshows .eof) _ _
    (outermost_follows (declaration_follows h h')) (by omega) (by omega) (by omega)
  · intro p houtside hend
    exact ⟨by simpa [Parser.isAtEnd] using hend, .inl houtside.2⟩
  · intro p q houtside honward
    exact ⟨honward.functionDepth_eq.trans houtside.1, honward.blockDepth_eq.trans houtside.2⟩

end

end Watched

private theorem shows_ofTokens {tokens : List Token} (h : ∃ t ∈ tokens, t.kind = .eof) :
    Shows (Watched.ofTokens tokens) (Parser.ofTokens tokens) :=
  ⟨rfl, rfl, fun _ ht => absurd ht List.not_mem_nil, h, rfl, rfl, rfl⟩

/-- However the tokens go on before their last `eof`, the watched parser raises no alarm and finds
what the parser finds, given some steps for each token. -/
theorem Program.watched_parse_eq (tokens : List Token) (last : Token) (hlast : last.kind = .eof)
    (steps : Nat) (hsteps : Parser.fuelFor (tokens.length + 1) ≤ steps) :
    Watched.parse steps (tokens ++ [last]) = .ok (Program.parse (tokens ++ [last])) := by
  have hshows : Shows (Watched.ofTokens (tokens ++ [last])) (Parser.ofTokens (tokens ++ [last])) :=
    shows_ofTokens ⟨last, by simp, hlast⟩
  have hlength : (tokens ++ [last]).length = tokens.length + 1 := by simp
  rw [Parser.fuelFor] at hsteps
  have hfollows : Follows Watched.Outside (tokens.length + 1) 0 (Watched.program steps)
      (Parser.program (Parser.fuelFor (tokens ++ [last]).length)) := by
    apply Watched.program_follows
    · omega
    · rw [Parser.fuelFor]
      omega
  rcases hfollows hshows ⟨rfl, rfl⟩ (Nat.le_of_eq hlength) with ⟨stmts, w, p, hx, hy, hshows', -⟩ | ⟨e, w, p, hx, hy, hshows', -⟩
  · rw [Watched.parse, hx, Program.parse, hy]
    simp only [hshows'.errors_eq]
  · rw [Watched.parse, hx, Program.parse, hy]
    simp only [hshows'.errors_eq]

/-- An unfinished block in an unfinished function, with an `eof` before the last one. -/
theorem Program.watched_parse_eq_unfinished :
    ∃ tokens last, tokens.map Token.kind = [.funzione, .identifier, .leftParen, .rightParen, .leftBrace,
        .ritorna, .plus, .leftBrace, .se, .leftParen, .rightBrace, .oppure, .eof, .rightBrace] ∧
      last.kind = .eof ∧ Parser.fuelFor (tokens.length + 1) ≤ 64 ∧
      Watched.parse 64 (tokens ++ [last]) = .ok (Program.parse (tokens ++ [last])) := by
  let token (kind : TokenKind) : Token := ⟨kind, "f", none, ⟨0, 1, 1⟩⟩
  let kinds : List TokenKind := [.funzione, .identifier, .leftParen, .rightParen, .leftBrace,
    .ritorna, .plus, .leftBrace, .se, .leftParen, .rightBrace, .oppure, .eof, .rightBrace]
  refine ⟨kinds.map token, token .eof, rfl, rfl, by decide, ?_⟩
  exact watched_parse_eq (kinds.map token) (token .eof) rfl 64 (by decide)

end Copione
