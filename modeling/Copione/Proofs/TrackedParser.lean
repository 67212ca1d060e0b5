import Copione.Proofs.ExpectedWords
import Copione.Proofs.TolerantParser
/-!
# The parser follows what is expected

What the parser reads without an error is what is expected, word by word. Its first error is about a word
that is not, unless it is about what is assigned to.
-/
namespace Copione

open Expected (readAll)

/-- What is expected, with anything below it, goes on with the words `ws`. The word `w` behind them is taken
by what is left then, or refused if nothing is. -/
def Leads (xs : List Expected) (ws : List Word) (w : Word) (left : Option (List Expected)) : Prop :=
  ∀ rest, (readAll (xs ++ rest) ws).isSome ∧
    readAll (xs ++ rest) (ws ++ [w]) = left.bind fun ys => Expected.read (ys ++ rest) w

namespace Leads

variable {xs ys zs : List Expected} {ws ws' : List Word} {w w' : Word} {left : Option (List Expected)}

private theorem readAll_singleton (xs : List Expected) (w : Word) : readAll xs
    [w] = Expected.read xs w := by
  rw [readAll]
  cases Expected.read xs w <;> rfl

private theorem of_read (h : ∀ rest, Expected.read (xs ++ rest) w =
    left.bind fun ys => Expected.read (ys ++ rest) w) : Leads xs [] w left := fun rest =>
  ⟨rfl, (readAll_singleton _ w).trans (h rest)⟩

private theorem refl (xs : List Expected) (w : Word) : Leads xs [] w (some xs) := of_read fun _ => rfl

private theorem frame (h : Leads xs ws w left) (zs : List Expected) :
    Leads (xs ++ zs) ws w (left.map (· ++ zs)) := by
  intro rest
  have hrest := h (zs ++ rest)
  cases left <;> simpa using hrest

private theorem trans (h : Leads xs ws w (some ys)) (h' : Leads ys ws' w' left)
    (hhead : (ws' ++ [w']).head? = some w) : Leads xs (ws ++ ws') w' left := by
  intro rest
  obtain ⟨hsome, hread⟩ := h rest
  obtain ⟨hsome', hread'⟩ := h' rest
  have hjoined {more : List Word} (hmore : more.head? = some w) :
      readAll (xs ++ rest) (ws ++ more) = readAll (ys ++ rest) more := by
    obtain ⟨more, rfl⟩ := List.head?_eq_some_iff.mp hmore
    rw [List.append_cons, Expected.readAll_append, hread, readAll]
    rfl
  refine ⟨?_, by rw [List.append_assoc, hjoined hhead, hread']⟩
  cases ws' with
  | nil => rwa [List.append_nil]
  | cons v vs => rwa [hjoined (by simpa using hhead)]

private theorem congr (h : Leads ys ws w left) {v : Word} (hhead : (ws ++ [w]).head? = some v)
    (hread : ∀ rest, Expected.read (xs ++ rest) v = Expected.read (ys ++ rest) v) :
    Leads xs ws w left := by
  intro rest
  obtain ⟨hsome, hall⟩ := h rest
  cases ws with
  | nil =>
    obtain rfl : w = v := by simpa using hhead
    refine ⟨rfl, ?_⟩
    rw [← hall, List.nil_append, readAll_singleton, readAll_singleton, hread]
  | cons u us =>
    obtain rfl : u = v := by simpa using hhead
    rw [List.cons_append, readAll] at hall
    rw [readAll] at hsome
    rw [List.cons_append, readAll, readAll, hread]
    exact ⟨hsome, hall⟩

theorem readAll_eq_none (h : Leads xs ws w none) (more : List Word) :
    readAll xs (ws ++ [w] ++ more) = none := by
  have hread := (h []).2
  rw [List.append_nil] at hread
  rw [Expected.readAll_append, hread]
  rfl

theorem ne_nil {x : Expected} (hx : x.optional = false) (h : Leads (x :: xs) ws w (some [])) :
    ws ≠ [] := by
  rintro rfl
  have hread := (h [.mark w.kind]).2
  have hmark : Expected.read [.mark w.kind] w = some [] :=
    Expected.read_take (x := .mark w.kind) (if_pos rfl) []
  rw [Option.bind_some, List.nil_append, List.nil_append, hmark, readAll_singleton,
    List.cons_append] at hread
  cases hys : x.behind? w with
  | none =>
    rw [Expected.read_refuse hx hys] at hread
    cases hread
  | some ys =>
    rw [Expected.read_take hys] at hread
    simp at hread

end Leads

namespace Parser

variable {may : Prop} {xs ys zs : List Expected} {p q r : Parser} {ws : List Word} {e : CompileError}
  {α β : Type} {x : Parse α} {f : α → Parse β}

private theorem Passes.head?_eq (h : Passes p ws q) :
    (ws ++ [q.current.word]).head? = some p.current.word := by
  obtain ⟨ts, rfl, -, hrest, -⟩ := h.passed
  cases ts with
  | nil =>
    rw [current, current, hrest]
    rfl
  | cons t ts =>
    have hcurrent : p.current = t := by
      rw [current, hrest]
      rfl
    rw [hcurrent]
    rfl

private theorem accept_of_eq {kind : TokenKind} (h : p.current.kind = kind) :
    accept kind p = .ok true p.next := by
  rw [accept_apply, if_pos h]

/-- The error is about the first token, from `p` on, that is not expected. Or it is about what is assigned
to, if that may be. -/
def Stuck (may : Prop) (xs : List Expected) (p : Parser) (e : CompileError) : Prop :=
  may ∧ e.kind = .invalidAssignmentTarget ∨
    ∃ ws q, Passes p ws q ∧ (∃ fault : ParseFault, e = fault.report q.current) ∧
      Leads xs ws q.current.word none

def final : EStateM.Result CompileError Parser α → Parser
  | .ok _ q | .error _ q => q

private theorem Grows.prefix_final (hx : Grows x) (p : Parser) :
    p.errors.toList <+: (final (x p)).errors.toList := by
  cases hrun : x p with
  | ok a q => exact hx.prefix_of_ok hrun
  | error e q => exact hx.prefix_of_error hrun

theorem prefix_final_bind (hf : ∀ a, Grows (f a)) (p : Parser) :
    (final (x p)).errors.toList <+: (final ((x >>= f) p)).errors.toList := by
  cases hrun : x p with
  | ok a q =>
    rw [Run.bind_of_ok hrun]
    exact (hf a).prefix_final q
  | error e q =>
    rw [Run.bind_of_error hrun]
    exact List.prefix_refl _

/-- How a run from `p` ends where `xs` is expected: behind words that leave `ys`, or with a first error. -/
inductive Tracked (may : Prop) (xs ys : List Expected) (p : Parser) :
    EStateM.Result CompileError Parser α → Prop
  | ok {a : α} {q : Parser} {ws : List Word} (h : Passes p ws q)
    (hleads : Leads xs ws q.current.word (some ys)) :
    Tracked may xs ys p (.ok a q)
  | error {e : CompileError} {q : Parser} (hq : q.errors = p.errors) (h : Stuck may xs p e) :
    Tracked may xs ys p (.error e q)
  | found {result : EStateM.Result CompileError Parser α} {e : CompileError}
    (hfound : p.errors.toList ++ [e] <+: (final result).errors.toList) (h : Stuck may xs p e) :
    Tracked may xs ys p result

def TracksAt (may : Prop) (x : Parse α) (xs ys : List Expected) (p : Parser) : Prop :=
  Tracked may xs ys p (x p)

private theorem Stuck.behind (h : Stuck may ys q e) (hpassed : Passes p ws q)
    (hleads : Leads xs ws q.current.word (some ys)) : Stuck may xs p e := by
  rcases h with h | ⟨ws', r, hpassed', hfault, hleads'⟩
  · exact .inl h
  · exact .inr ⟨_, r, hpassed.trans hpassed', hfault, hleads.trans hleads' hpassed'.head?_eq⟩

private theorem Stuck.frame (h : Stuck may xs p e) (zs : List Expected) : Stuck may (xs ++ zs) p e := by
  rcases h with h | ⟨ws, q, hpassed, hfault, hleads⟩
  · exact .inl h
  · exact .inr ⟨ws, q, hpassed, hfault, hleads.frame zs⟩

private theorem Stuck.congr (h : Stuck may ys p e)
    (hread : ∀ rest, Expected.read (xs ++ rest) p.current.word =
    Expected.read (ys ++ rest) p.current.word) : Stuck may xs p e := by
  rcases h with h | ⟨ws, q, hpassed, hfault, hleads⟩
  · exact .inl h
  · exact .inr ⟨ws, q, hpassed, hfault, hleads.congr hpassed.head?_eq hread⟩

theorem Tracked.behind {result : EStateM.Result CompileError Parser α}
    (h : Tracked may ys zs q result) (hpassed : Passes p ws q)
    (hleads : Leads xs ws q.current.word (some ys)) : Tracked may xs zs p result := by
  cases h with
  | ok hpassed' hleads' =>
    exact .ok (hpassed.trans hpassed') (hleads.trans hleads' hpassed'.head?_eq)
  | error hq h => exact .error (hq.trans hpassed.errors_eq) (h.behind hpassed hleads)
  | found hfound h =>
    rw [hpassed.errors_eq] at hfound
    exact .found hfound (h.behind hpassed hleads)

namespace TracksAt

theorem of_eq {y : Parse α} (h : x p = y p) (hy : TracksAt may y xs ys p) : TracksAt may x xs ys p := by
  rwa [TracksAt, h]

theorem bind (hx : TracksAt may x xs ys p)
    (hf : ∀ a q ws, x p = .ok a q → Passes p ws q → TracksAt may (f a) ys zs q)
    (hgrows : ∀ a, Grows (f a)) : TracksAt may (x >>= f) xs zs p := by
  unfold TracksAt at hx
  generalize hrun : x p = result at hx
  cases hx with
  | @ok a q ws hpassed hleads =>
    rw [TracksAt, Run.bind_of_ok hrun]
    exact (hf a q ws hrun hpassed).behind hpassed hleads
  | error hq h =>
    rw [TracksAt, Run.bind_of_error hrun]
    exact .error hq h
  | found hfound h => exact .found (hfound.trans (hrun ▸ prefix_final_bind hgrows p)) h

private theorem map (hx : TracksAt may x xs ys p) (f : α → β) : TracksAt may (f <$> x) xs ys p := by
  unfold TracksAt at hx
  generalize hrun : x p = result at hx
  cases hx with
  | ok hpassed hleads =>
    rw [TracksAt, Run.map_of_ok hrun]
    exact .ok hpassed hleads
  | error hq h =>
    rw [TracksAt, Run.map_of_error hrun]
    exact .error hq h
  | found hfound h =>
    refine .found ?_ h
    cases result with
    | ok a q => rwa [Run.map_of_ok hrun]
    | error e q => rwa [Run.map_of_error hrun]

theorem frame (hx : TracksAt may x xs ys p) (zs : List Expected) :
    TracksAt may x (xs ++ zs) (ys ++ zs) p := by
  unfold TracksAt at hx ⊢
  generalize x p = result at hx
  cases hx with
  | ok hpassed hleads => exact .ok hpassed (hleads.frame zs)
  | error hq h => exact .error hq (h.frame zs)
  | found hfound h => exact .found hfound (h.frame zs)

theorem congr (hx : TracksAt may x ys zs p)
    (hread : ∀ rest, Expected.read (xs ++ rest) p.current.word =
      Expected.read (ys ++ rest) p.current.word) : TracksAt may x xs zs p := by
  unfold TracksAt at hx ⊢
  generalize x p = result at hx
  cases hx with
  | ok hpassed hleads => exact .ok hpassed (hleads.congr hpassed.head?_eq hread)
  | error hq h => exact .error hq (h.congr hread)
  | found hfound h => exact .found hfound (h.congr hread)

theorem skip {y : Expected} (hx : TracksAt may x xs ys p) (hy : y.optional)
    (hnone : y.behind? p.current.word = none) : TracksAt may x (y :: xs) ys p :=
  hx.congr fun rest => Expected.read_skip hy hnone (xs ++ rest)

theorem take {y : Expected} {z : Parse α} (hx : TracksAt may x (ys ++ zs) xs p.next)
    (hy : y.behind? p.current.word = some ys) (hne : p.current.kind ≠ .eof) (heq : z p = x p.next) :
    TracksAt may z (y :: zs) xs p := by
  rw [TracksAt, heq]
  refine hx.behind (passes_next hne) fun rest => ?_
  have hread : Expected.read (y :: zs ++ rest) p.current.word = some (ys ++ zs ++ rest) := by
    rw [List.cons_append, Expected.read_take hy, List.append_assoc]
  rw [readAll, hread, List.singleton_append, readAll, hread]
  exact ⟨rfl, Leads.readAll_singleton _ _⟩

end TracksAt

theorem tracksAt_pure (a : α) (xs : List Expected) (p : Parser) : TracksAt may (pure a) xs xs p :=
  .ok (.refl p) (.refl xs _)

theorem tracksAt_refuse {y : Expected} (fault : ParseFault) (hy : y.optional = false)
    (hnone : y.behind? p.current.word = none) (xs ys : List Expected) :
    TracksAt may (failAt p.current fault : Parse α) (y :: xs) ys p := by
  have hread (rest : List Expected) : Expected.read (y :: xs ++ rest) p.current.word = none :=
    Expected.read_refuse hy hnone (xs ++ rest)
  exact .error rfl (.inr ⟨[], p, .refl p, ⟨fault, rfl⟩, .of_read hread⟩)

/-- Wherever at most `n` tokens are to come, inside a function or not, `x` keeps the errors that there are
and goes from what is expected to what is left. -/
structure Tracks (may : Prop) (n : Nat) (inside : Bool) (x : Parse α) (xs ys : List Expected) : Prop where
  grows : Grows x
  tracksAt : ∀ ⦃p : Parser⦄, p.rest.length ≤ n → decide (0 < p.functionDepth) = inside →
    TracksAt may x xs ys p

variable {n fuel count : Nat} {inside : Bool}

namespace Tracks

theorem mono {m : Nat} (hx : Tracks may n inside x xs ys) (hm : m ≤ n) : Tracks may m inside x xs ys :=
  ⟨hx.grows, fun _ hp => hx.tracksAt (Nat.le_trans hp hm)⟩

theorem bind (hx : Tracks may n inside x xs ys) (hf : ∀ a, Tracks may n inside (f a) ys zs) :
    Tracks may n inside (x >>= f) xs zs where
  grows := hx.grows.bind fun a => (hf a).grows
  tracksAt p hp hinside := by
    refine (hx.tracksAt hp hinside).bind (fun a q ws _ hpassed => ?_) fun a => (hf a).grows
    exact (hf a).tracksAt (Nat.le_trans hpassed.length_le hp) (hpassed.functionDepth_eq ▸ hinside)

theorem map (hx : Tracks may n inside x xs ys) (f : α → β) : Tracks may n inside (f <$> x) xs ys :=
  ⟨hx.grows.map f, fun _ hp hinside => (hx.tracksAt hp hinside).map f⟩

private theorem discard (hx : Tracks may n inside x xs ys) : Tracks may n inside
    (Functor.discard x) xs ys :=
  hx.map _

theorem frame (hx : Tracks may n inside x xs ys) (zs : List Expected) :
    Tracks may n inside x (xs ++ zs) (ys ++ zs) :=
  ⟨hx.grows, fun _ hp hinside => (hx.tracksAt hp hinside).frame zs⟩

private theorem congr (hx : Tracks may n inside x ys zs) (hread : ∀ rest w,
    Expected.read (xs ++ rest) w = Expected.read (ys ++ rest) w) : Tracks may n inside x xs zs :=
  ⟨hx.grows, fun _ hp hinside => (hx.tracksAt hp hinside).congr fun rest => hread rest _⟩

end Tracks

theorem TracksAt.pass {y : Expected} {z : Parse α}
    (hx : ∀ m, n = m + 1 → Tracks may m inside x (ys ++ zs) xs) (hp : p.rest.length ≤ n)
    (hinside : decide (0 < p.functionDepth) = inside) (hy : y.behind? p.current.word = some ys)
    (hne : p.current.kind ≠ .eof) (heq : z p = x p.next) :
    TracksAt may z (y :: zs) xs p := by
  have hnext := passes_next hne
  have hlength := hnext.length_lt
  obtain ⟨m, rfl⟩ : ∃ m, n = m + 1 := ⟨n - 1, by omega⟩
  refine TracksAt.take ?_ hy hne heq
  exact (hx m rfl).tracksAt (by omega) (by rwa [hnext.functionDepth_eq])

namespace Tracks

theorem accept {kind : TokenKind} {y : Expected} {f : Bool → Parse α} (hkind : kind.isMark)
    (hy : y.optional) (htake : ∀ w : Word, w.kind = kind → y.behind? w = some ys)
    (hskip : ∀ w : Word, w.kind ≠ kind → y.behind? w = none) (hgrows : Grows (f true))
    (h : ∀ m, n = m + 1 → Tracks may m inside (f true) (ys ++ zs) xs)
    (h' : Tracks may n inside (f false) zs xs) :
    Tracks may n inside (Parser.accept kind >>= f) (y :: zs) xs where
  grows := (grows_accept kind).bind fun
    | true => hgrows
    | false => h'.grows
  tracksAt p hp hinside := by
    by_cases hcurrent : p.current.kind = kind
    · exact .pass h hp hinside (htake _ (by rwa [Token.word_kind]))
        (hcurrent ▸ ne_eof_of_isMark hkind) (Run.bind_of_ok (accept_of_eq hcurrent))
    · refine .of_eq (Run.bind_of_ok (accept_of_ne hcurrent)) ?_
      exact (h'.tracksAt hp hinside).skip hy (hskip _ (by rwa [Token.word_kind]))

end Tracks

theorem tracks_pure (a : α) : Tracks may n inside (pure a) xs xs :=
  ⟨grows_pure a, fun p _ _ => tracksAt_pure a xs p⟩

theorem tracks_spanFrom (start : Span) : Tracks may n inside (spanFrom start) xs xs :=
  ⟨grows_spanFrom start, fun p _ _ => .ok (.refl p) (.refl xs _)⟩

theorem tracks_consume {kind : TokenKind} (hkind : kind.isMark) (what : String) :
    Tracks may n inside (Functor.discard (consume kind what)) (.mark kind :: xs) xs := by
  refine Tracks.discard ⟨grows_consume kind what, fun p _ _ => ?_⟩
  by_cases hcurrent : p.current.kind = kind
  · have hbehind : (Expected.mark kind).behind? p.current.word = some [] := by
      rw [Expected.behind?, Token.word_kind, if_pos hcurrent]
    exact .take (tracksAt_pure p.current xs p.next) hbehind (hcurrent ▸ ne_eof_of_isMark hkind)
      (consume_of_mark what hcurrent hkind)
  · refine .of_eq (y := failAt p.current (.expectedToken what p.current)) ?_
      (tracksAt_refuse _ rfl ?_ xs xs)
    · rw [consume_apply, if_neg hcurrent]
      rfl
    · rw [Expected.behind?, Token.word_kind, if_neg hcurrent]

theorem tracks_expectName (what : String) :
    Tracks may n inside (expectName what) (.name :: xs) xs := by
  refine ⟨grows_expectName what, fun p _ _ => ?_⟩
  by_cases hcurrent : p.current.kind = .identifier
  · have hbehind : Expected.name.behind? p.current.word = some [] := by
      rw [Expected.behind?, Token.word_kind, if_pos hcurrent]
    exact .take (tracksAt_pure p.current.lexeme xs p.next) hbehind (by rw [hcurrent]; decide)
      (expectName_of_identifier what hcurrent)
  · refine .of_eq (y := failAt p.current (.expectedToken what p.current)) ?_
      (tracksAt_refuse _ rfl ?_ xs xs)
    · rw [expectName, Run.bind_of_error (by rw [consume_apply, if_neg hcurrent])]
      rfl
    · rw [Expected.behind?, Token.word_kind, if_neg hcurrent]

section

variable {item : Parse α} {y : Expected}

private theorem commaSeparated_tracks (hitem : Tracks may n inside item [y] []) (hcount : n < count) :
    Tracks may n inside (commaSeparated item count) [y, .more y] [] := by
  induction count generalizing n with
  | zero => exact absurd hcount (Nat.not_lt_zero _)
  | succ count ih =>
    rw [commaSeparated]
    have hgrows := grows_commaSeparated hitem.grows count
    refine (hitem.frame [.more y]).bind fun first => Tracks.accept rfl rfl (fun w hw => if_pos hw)
      (fun w hw => if_neg hw) (hgrows.bind fun more => grows_pure _) (fun m hm => ?_) (tracks_pure [first])
    exact (ih (hitem.mono (by omega)) (by omega)).bind fun more => tracks_pure (first :: more)

theorem listed_tracks (hy : y.optional = false)
    (hparen : ∀ w : Word, w.kind = .rightParen → y.behind? w = none)
    (hitem : Tracks may n inside item [y] []) (hfuel : n < fuel) :
    Tracks may n inside (listed fuel item) [.list y, .mark .rightParen] [.mark .rightParen] where
  grows := grows_listed hitem.grows fuel
  tracksAt p hp hinside := by
    refine .of_eq (Run.bind_of_ok (check_apply _ p)) ?_
    by_cases hcurrent : p.current.kind = .rightParen
    · rw [if_pos (beq_iff_eq.mpr hcurrent)]
      refine (tracksAt_pure [] _ p).skip rfl ?_
      rw [Expected.behind?, hparen _ (by rwa [Token.word_kind])]
      rfl
    · have hmark : (Expected.mark .rightParen).behind? p.current.word = none :=
        if_neg (by rwa [Token.word_kind])
      rw [if_neg (by simpa using hcurrent)]
      exact (((commaSeparated_tracks hitem hfuel).frame [.mark .rightParen]).tracksAt hp hinside).congr
        fun rest => Expected.read_unfold (x := .list y) (fun _ => Expected.read_refuse rfl hmark rest) hy
          rfl

end

section

variable {expression operand : Parse Expr}

private theorem behind?_rightParen (w : Word) (hw : w.kind = .rightParen) :
    Expected.expr.behind? w = none := Expected.behindExpr?_eq_none (by rw [hw]; rfl)

private theorem current_kind_of_length (h : p.rest.length ≤ 0) : p.current.kind = .eof := by
  rw [current, List.length_eq_zero_iff.mp (Nat.le_zero.mp h)]
  rfl

private theorem behind?_pairs {ops : List PairOp} (tighter : List (List PairOp)) {t : Token} :
    (Expected.pairs ops tighter).behind? t.word =
      (ops.find? (·.kind == t.kind)).map fun _ =>
        .operand :: Expected.levels tighter ++ [.pairs ops tighter] := by
  rw [Expected.behind?, Token.word_kind]
  cases hfind : ops.find? (·.kind == t.kind) with
  | none => exact if_neg (by simpa using hfind)
  | some op =>
    exact if_pos (List.any_eq_true.mpr ⟨op, List.mem_of_find?_eq_some hfind, List.find?_some hfind⟩)

private theorem foldPairs_tracks {ops : List PairOp} {tighter : List (List PairOp)}
    (hoperand : Tracks may n inside operand (.operand :: Expected.levels tighter) [])
    (hcount : n ≤ count) (left : Expr) :
    Tracks may n inside (foldPairs ops operand count left) [.pairs ops tighter] [] := by
  have hstop (left : Expr) (p : Parser) (h : ops.find? (·.kind == p.current.kind) = none) :
      TracksAt may (pure left) [.pairs ops tighter] [] p :=
    (tracksAt_pure left [] p).skip rfl (by rw [behind?_pairs, h]; rfl)
  induction count generalizing n left with
  | zero =>
    refine ⟨grows_pure left, fun p hp _ => hstop left p (List.find?_eq_none.mpr fun op _ hkind => ?_)⟩
    rw [current_kind_of_length (Nat.le_trans hp hcount)] at hkind
    exact ne_eof_of_isMark op.isMark_kind (eq_of_beq hkind)
  | succ count ih =>
    refine ⟨grows_foldPairs hoperand.grows ops _ left, fun p hp hinside => ?_⟩
    refine .of_eq (Run.bind_of_ok (peekKind_apply p)) ?_
    cases hfind : ops.find? (·.kind == p.current.kind) with
    | none => exact hstop left p hfind
    | some op =>
      have hkind : op.kind = p.current.kind := by simpa using List.find?_some hfind
      have hbehind : (Expected.pairs ops tighter).behind? p.current.word =
          some (.operand :: Expected.levels tighter ++ [.pairs ops tighter]) := by
        rw [behind?_pairs, hfind]
        rfl
      refine TracksAt.pass (x := operand >>= fun right => foldPairs ops operand count (op.join left right))
        (fun m hm => ?_) hp hinside hbehind (hkind ▸ ne_eof_of_isMark op.isMark_kind) rfl
      have hoperand := hoperand.mono (show m ≤ n by omega)
      rw [List.append_nil]
      exact (hoperand.frame [.pairs ops tighter]).bind fun right =>
        ih hoperand (by omega) (op.join left right)

private theorem pairs_tracks (hoperand : Tracks may n inside operand [.operand] []) (hfuel : n ≤ fuel)
    (levels : List (List PairOp)) :
    Tracks may n inside (pairs fuel operand levels) (.operand :: Expected.levels levels) [] := by
  induction levels with
  | nil => exact hoperand
  | cons ops tighter ih =>
    exact (ih.frame [.pairs ops tighter]).bind fun left => foldPairs_tracks ih hfuel left

private theorem trailers_tracks (hgrows : Grows expression)
    (hexpr : ∀ m < n, Tracks may m inside expression [.expr] []) (hfuel : n ≤ fuel) (hcount : n ≤ count)
    (object : Expr) : Tracks may n inside (trailers fuel expression count object) [.trailers] [] := by
  induction count generalizing n object with
  | zero =>
    refine ⟨grows_pure object, fun p hp _ => (tracksAt_pure object [] p).skip rfl ?_⟩
    rw [Expected.behind?, Token.word_kind, current_kind_of_length (Nat.le_trans hp hcount)]
  | succ count ih =>
    refine ⟨grows_trailers hgrows fuel _ object, fun p hp hinside => ?_⟩
    by_cases hparen : p.current.kind = .leftParen
    · have hbehind : Expected.trailers.behind? p.current.word =
          some [.list .expr, .mark .rightParen, .trailers] := by
        rw [Expected.behind?, Token.word_kind, hparen]
      refine .pass (fun m hm => ?_) hp hinside hbehind (by rw [hparen]; decide)
        (Run.bind_of_ok (accept_of_eq hparen))
      have hlist := (listed_tracks rfl behind?_rightParen (hexpr m (by omega))
        (show m < fuel by omega)).frame [.trailers]
      exact hlist.bind fun arguments => (tracks_consume rfl "')' after arguments").bind fun _ =>
        (tracks_spanFrom object.span).bind fun span =>
          ih (fun k hk => hexpr k (by omega)) (by omega) (by omega) (.call object arguments span)
    by_cases hdot : p.current.kind = .dot
    · have hbehind : Expected.trailers.behind? p.current.word = some [.name, .trailers] := by
        rw [Expected.behind?, Token.word_kind, hdot]
      refine .pass (fun m hm => ?_) hp hinside hbehind (by rw [hdot]; decide)
        ((Run.bind_of_ok (accept_of_ne hparen)).trans (Run.bind_of_ok (accept_of_eq hdot)))
      exact (tracks_expectName "property name after '.'").bind fun name =>
        (tracks_spanFrom object.span).bind fun span =>
          ih (fun k hk => hexpr k (by omega)) (by omega) (by omega) (.get object name span)
    · refine .of_eq ((Run.bind_of_ok (accept_of_ne hparen)).trans (Run.bind_of_ok (accept_of_ne hdot)))
        ((tracksAt_pure object [] p).skip rfl ?_)
      rw [Expected.behind?, Token.word_kind]
      split <;> first | rfl | contradiction

private theorem primary_tracksAt (hexpr : ∀ m < n, Tracks may m inside expression [.expr] [])
    (hp : p.rest.length ≤ n) (hinside : decide (0 < p.functionDepth) = inside)
    (hunary : UnaryOp.ofKind? p.current.kind = none) :
    TracksAt may (primary expression) [.operand] [.trailers] p := by
  refine .of_eq (Run.bind_of_ok Run.get_apply) ?_
  have hpass {f : Unit → Parse Expr} {ys : List Expected} (hne : p.current.kind ≠ .eof)
      (hbehind : Expected.behindOperand? p.current.word = some ys)
      (hf : ∀ m < n, Tracks may m inside (f ()) ys [.trailers]) :
      TracksAt may (modify next >>= f) [.operand] [.trailers] p := by
    refine TracksAt.pass (x := f ()) (fun m hm => ?_) hp hinside hbehind hne rfl
    rw [List.append_nil]
    exact hf m (by omega)
  split
  · next value hvalue =>
    have hword := constant?_eq_some.mp hvalue
    have hne : p.current.kind ≠ .eof := by
      rw [← Token.word_kind, hword]
      exact TokenKind.ne_of_beginsExpr value.kind_beginsExpr rfl
    exact hpass hne (by rw [hword]; rfl) fun _ _ => tracks_pure _
  · next hconstant =>
    split
    · next hkind =>
      have hword := Token.word_of_mark hkind rfl
      exact hpass (by simp [hkind]) (by rw [hword]; rfl) fun _ _ => tracks_pure _
    · next hkind =>
      have hword := Token.word_of_mark hkind rfl
      exact hpass (by simp [hkind]) (by rw [hword]; rfl) fun m _ =>
        (tracks_consume rfl _).bind fun _ => (tracks_expectName _).bind fun _ =>
          (tracks_spanFrom _).bind fun _ => tracks_pure _
    · next hkind =>
      have hword := Token.word_of_identifier hkind
      exact hpass (by simp [hkind]) (by rw [hword]; rfl) fun _ _ => tracks_pure _
    · next hkind =>
      have hword := Token.word_of_mark hkind rfl
      exact hpass (by simp [hkind]) (by rw [hword]; rfl) fun m hm =>
        ((hexpr m hm).frame [.mark .rightParen, .trailers]).bind fun _ =>
          (tracks_consume rfl _).bind fun _ => (tracks_spanFrom _).bind fun _ => tracks_pure _
    · next hquesto hsuper hidentifier hparen =>
      refine tracksAt_refuse (.expectedExpression p.current) rfl ?_ [] [.trailers]
      change Expected.behindOperand? p.current.word = none
      cases hword : p.current.word with
      | constant value => simp [constant?_eq_some.mpr hword] at hconstant
      | name n => exact absurd (by rw [← Token.word_kind, hword]; rfl) hidentifier
      | mark kind =>
        have hkind : p.current.kind = kind := by
          rw [← Token.word_kind, hword]
          rfl
        rw [hkind] at hunary hquesto hsuper hparen
        simp [Expected.behindOperand?, hunary]

private theorem call_tracksAt (hgrows : Grows expression)
    (hexpr : ∀ m < n, Tracks may m inside expression [.expr] []) (hfuel : n ≤ fuel)
    (hp : p.rest.length ≤ n) (hinside : decide (0 < p.functionDepth) = inside)
    (hunary : UnaryOp.ofKind? p.current.kind = none) :
    TracksAt may (call fuel expression) [.operand] [] p :=
  (primary_tracksAt hexpr hp hinside hunary).bind
    (fun object _ _ _ hpassed => (trailers_tracks hgrows hexpr hfuel hfuel object).tracksAt
      (Nat.le_trans hpassed.length_le hp) (hpassed.functionDepth_eq ▸ hinside))
    fun object => grows_trailers hgrows fuel fuel object

end

def Assigning.Sensible (may : Prop) (assign : Assigning) : Prop :=
  ∀ sign target value p, (∃ e, assign sign target value p = .ok e p) ∨
    may ∧ assign sign target value p = .error (ParseFault.invalidAssignmentTarget.report sign) p

theorem checked_sensible : checked.Sensible True := by
  intro sign target value p
  cases target with
  | name n s => exact .inl ⟨_, rfl⟩
  | get object n s => exact .inl ⟨_, rfl⟩
  | _ => exact .inr ⟨trivial, rfl⟩

theorem tolerant_sensible : tolerant.Sensible False := by
  intro sign target value p
  cases target <;> exact .inl ⟨_, rfl⟩

private theorem read_expr (rest : List Expected) (w : Word) :
    Expected.read ([.expr] ++ rest) w =
      Expected.read (.operand :: (Expected.levels PairOp.levels ++ [.value]) ++ rest) w := by
  refine Expected.read_unfold (x := .expr) (y := .operand) (by simp [Expected.optional]) rfl ?_
  simp [Expected.behind?, Expected.behindExpr?]

section

variable {assign : Assigning} (hassign : assign.Sensible may)
include hassign

private theorem grows_assign (sign : Token) (target value : Expr) : Grows
    (assign sign target value) := by
  intro p
  obtain ⟨e, he⟩ | ⟨-, he⟩ := hassign sign target value p
  · exact he ▸ List.prefix_refl _
  · exact he ▸ List.prefix_refl _

private theorem assign_tracks (sign : Token) (target value : Expr) :
    Tracks may n inside (assign sign target value) xs xs := by
  refine ⟨grows_assign hassign sign target value, fun p _ _ => ?_⟩
  rw [TracksAt]
  obtain ⟨e, he⟩ | ⟨hmay, he⟩ := hassign sign target value p
  · rw [he]
    exact .ok (.refl p) (.refl xs _)
  · rw [he]
    exact .error rfl (.inl ⟨hmay, rfl⟩)

private theorem grows_expressionWith_unaryWith (fuel : Nat) :
    Grows (expressionWith assign fuel) ∧ Grows (unaryWith assign fuel) := by
  induction fuel with
  | zero => exact ⟨grows_failExpression, grows_failExpression⟩
  | succ fuel ih =>
    obtain ⟨hexpression, hunary⟩ := ih
    constructor
    · rw [expressionWith]
      refine (grows_pairs hunary fuel _).bind fun target => (grows_check _).bind fun assigned => ?_
      split
      · exact grows_pure target
      · exact grows_advance.bind fun sign => hexpression.bind fun value => grows_assign hassign _ _ _
    · rw [unaryWith]
      refine grows_peekKind.bind fun kind => ?_
      split
      · exact (grows_primary hexpression).bind fun _ => grows_trailers hexpression fuel fuel _
      · exact grows_advance.bind fun _ => hunary.bind fun _ => grows_pure _

private theorem expressionWith_unaryWith_track (fuel : Nat) :
    (∀ n, 2 * n + 2 ≤ fuel → Tracks may n inside (expressionWith assign fuel) [.expr] []) ∧
      ∀ n, 2 * n + 1 ≤ fuel → Tracks may n inside (unaryWith assign fuel) [.operand] [] := by
  induction fuel with
  | zero => exact ⟨fun n hn => absurd hn (by omega), fun n hn => absurd hn (by omega)⟩
  | succ fuel ih =>
    obtain ⟨hexpression, hunary⟩ := ih
    have hgrows := (grows_expressionWith_unaryWith hassign fuel).1
    constructor
    · intro n hn
      rw [expressionWith]
      have hpairs := pairs_tracks (hunary n (by omega)) (show n ≤ fuel by omega) PairOp.levels
      refine ((hpairs.frame [.value]).bind fun target => ⟨?_, fun p hp hinside => ?_⟩).congr read_expr
      · refine (grows_check _).bind fun assigned => ?_
        split
        · exact grows_pure target
        · exact grows_advance.bind fun sign => hgrows.bind fun value => grows_assign hassign _ _ _
      · refine .of_eq (Run.bind_of_ok (check_apply _ p)) ?_
        by_cases hcurrent : p.current.kind = .equal
        · have hne : p.current.kind ≠ .eof := by rw [hcurrent]; decide
          have hbehind : Expected.value.behind? p.current.word = some [.expr] :=
            if_pos (by rwa [Token.word_kind])
          rw [if_neg (by simpa using hcurrent)]
          exact .pass (fun m hm => (hexpression m (by omega)).bind fun value =>
            assign_tracks hassign p.current target value) hp hinside hbehind hne
            (Run.bind_of_ok (advance_apply hne))
        · rw [if_pos (by simpa using hcurrent)]
          exact (tracksAt_pure target [] p).skip rfl (if_neg (by rwa [Token.word_kind]))
    · refine fun n hn => ⟨(grows_expressionWith_unaryWith hassign _).2, fun p hp hinside => ?_⟩
      rw [unaryWith]
      refine .of_eq (Run.bind_of_ok (peekKind_apply p)) ?_
      cases hop : UnaryOp.ofKind? p.current.kind with
      | none =>
        exact call_tracksAt hgrows (fun m hm => hexpression m (by omega)) (by omega) hp hinside hop
      | some op =>
        have hkind := UnaryOp.kind_of_ofKind? hop
        have hne : p.current.kind ≠ .eof := hkind ▸ ne_eof_of_isMark op.isMark_kind
        have hbehind : Expected.operand.behind? p.current.word = some [.operand] := by
          rw [Token.word_of_mark hkind op.isMark_kind]
          cases op <;> rfl
        exact .pass (fun m hm => (hunary m (by omega)).bind fun operand => tracks_pure _) hp hinside
          hbehind hne (Run.bind_of_ok (advance_apply hne))

theorem grows_expressionWith (fuel : Nat) : Grows (expressionWith assign fuel) :=
  (grows_expressionWith_unaryWith hassign fuel).1

/-- Two steps for each token are enough. -/
theorem expressionWith_tracks (hfuel : 2 * n + 2 ≤ fuel) :
    Tracks may n inside (expressionWith assign fuel) [.expr] [] :=
  (expressionWith_unaryWith_track hassign fuel).1 n hfuel

end

end Parser
end Copione
