import Copione.Proofs.ExactSpans
import Copione.Proofs.ExpressionLimits
import Copione.Proofs.ParserProgress
/-!
# Errors in the order of the text

What the parser reports goes through the text from the beginning to the end. A token is reported once,
but for the `eof`, where every block that is still open may be missed and one statement more.
-/
namespace Copione

/-- Tokens one behind the other; the last of them, at `stop`, is the only `eof`. -/
structure Token.Row (stop : Nat) (ts : List Token) : Prop where
  ordered : ts.Pairwise fun a b => a.span.offset < b.span.offset
  ended : ∃ init last, ts = init ++ [last] ∧ last.kind = .eof ∧ last.span.offset = stop ∧
    ∀ t ∈ init, t.kind ≠ .eof

/-- The first error stands before the second one, or both stand at the end, `stop`. -/
def CompileError.Ahead (stop : Nat) (a b : CompileError) : Prop :=
  a.span.offset < b.span.offset ∨ a.span.offset = stop ∧ b.span.offset = stop

def CompileError.countAt (stop : Nat) (es : List CompileError) : Nat :=
  es.countP fun e => e.span.offset == stop

def Token.braces (ts : List Token) : Nat := ts.countP fun t => t.kind == .leftBrace

open CompileError Token

variable {stop : Nat} {ts us : List Token} {t : Token} {es es' : List CompileError} {e : CompileError}

@[simp] theorem Token.braces_append (ts us : List Token) : braces (ts ++ us) = braces ts + braces us :=
  List.countP_append

@[simp] theorem CompileError.countAt_append (es es' : List CompileError) :
    countAt stop (es ++ es') = countAt stop es + countAt stop es' := List.countP_append

private theorem CompileError.countAt_singleton_le (e : CompileError) : countAt stop [e] ≤ 1 :=
  List.countP_le_length

namespace Token.Row

private theorem ne_nil (h : Row stop ts) : ts ≠ [] := by
  obtain ⟨init, last, rfl, -⟩ := h.ended
  simp

private theorem tail {us : List Token} (h : Row stop (ts ++ us)) (hus : us ≠ []) : Row stop us := by
  obtain ⟨init, last, heq, hlast, hoffset, hinit⟩ := h.ended
  obtain ⟨us, t, rfl⟩ := List.eq_nil_or_concat us |>.resolve_left hus
  rw [List.concat_eq_append] at *
  rw [← List.append_assoc] at heq
  obtain ⟨rfl, hsame⟩ := List.append_inj' heq rfl
  obtain rfl := List.singleton_inj.1 hsame
  exact ⟨(List.pairwise_append.1 h.ordered).2.1, us, t, rfl, hlast, hoffset, fun s hs =>
    hinit s (List.mem_append_right _ hs)⟩

private theorem offset_lt (h : Row stop (ts ++ us)) (hus : us ≠ []) (ht : t ∈ ts) :
    t.span.offset < stop := by
  obtain ⟨init, last, rfl, -, rfl, -⟩ := (h.tail hus).ended
  exact (List.pairwise_append.1 h.ordered).2.2 t ht last (by simp)

private theorem offset_le (h : Row stop ts) (ht : t ∈ ts) : t.span.offset ≤ stop := by
  obtain ⟨init, last, rfl, -, rfl, -⟩ := h.ended
  rcases List.mem_append.1 ht with ht | ht
  · exact Nat.le_of_lt ((List.pairwise_append.1 h.ordered).2.2 t ht last List.mem_cons_self)
  · obtain rfl := List.mem_singleton.1 ht
    exact Nat.le_refl _

private theorem eq_of_eof (h : Row stop (t :: ts)) (ht : t.kind = .eof) : ts =
    [] ∧ t.span.offset = stop := by
  obtain ⟨init, last, heq, -, hoffset, hinit⟩ := h.ended
  cases init with
  | nil =>
    obtain ⟨rfl, rfl⟩ := List.cons.inj heq
    exact ⟨rfl, hoffset⟩
  | cons s init =>
    obtain ⟨rfl, -⟩ := List.cons.inj heq
    exact absurd ht (hinit t List.mem_cons_self)

private theorem ne_nil_of_ne (h : Row stop (t :: ts)) (ht : t.kind ≠ .eof) : ts ≠ [] := by
  obtain ⟨init, last, heq, hlast, -⟩ := h.ended
  rintro rfl
  have hinit : init = [] := by
    have hlength := congrArg List.length heq
    simp only [List.length_singleton, List.length_append] at hlength
    exact List.length_eq_zero_iff.1 (by omega)
  rw [hinit] at heq
  obtain rfl := List.singleton_inj.1 heq
  exact ht hlast

end Token.Row

/-- The errors report some of the tokens, in their order. -/
structure CompileError.InOrder (stop : Nat) (ts : List Token) (es : List CompileError) : Prop where
  blames : ∀ e ∈ es, e.Blames ts
  ahead : es.Pairwise (Ahead stop)

namespace CompileError

private theorem Blames.offset (h : e.Blames ts) : ∃ t ∈ ts, e.span.offset = t.span.offset := by
  obtain ⟨t, ht, fault, rfl⟩ := h
  exact ⟨t, ht, rfl⟩

namespace InOrder

private theorem nil (ts : List Token) : InOrder stop ts [] := ⟨by simp, .nil⟩

private theorem mono (h : InOrder stop ts es) (hsub : ts ⊆ us) : InOrder stop us es :=
  ⟨fun e he => (h.blames e he).mono hsub, h.ahead⟩

private theorem append (h : InOrder stop ts es) (h' : InOrder stop us es')
    (hrow : (ts ++ us).Pairwise fun a b => a.span.offset < b.span.offset) :
    InOrder stop (ts ++ us) (es ++ es') := by
  refine ⟨fun _ he => ?_, List.pairwise_append.2 ⟨h.ahead, h'.ahead, fun a ha b hb => .inl ?_⟩⟩
  · rcases List.mem_append.1 he with he | he
    · exact (h.blames _ he).mono (List.subset_append_left ts us)
    · exact (h'.blames _ he).mono (List.subset_append_right ts us)
  · obtain ⟨s, hs, hoffset⟩ := (h.blames a ha).offset
    obtain ⟨t, ht, hoffset'⟩ := (h'.blames b hb).offset
    rw [hoffset, hoffset']
    exact (List.pairwise_append.1 hrow).2.2 s hs t ht

private theorem singleton (t : Token) (fault : ParseFault) (ht : t ∈ ts) : InOrder stop ts
    [fault.report t] :=
  ⟨fun _ he => ⟨t, ht, fault, List.mem_singleton.1 he⟩, List.pairwise_singleton ..⟩

private theorem countAt_eq_zero (h : InOrder stop ts es) (hrow : Row stop (ts ++ us)) (hus : us ≠ []) :
    countAt stop es = 0 := by
  rw [countAt, List.countP_eq_zero]
  intro e he
  obtain ⟨t, ht, hoffset⟩ := (h.blames e he).offset
  have := hrow.offset_lt hus ht
  simp
  omega

private theorem push_at_end (h : InOrder stop (ts ++ [t]) es) (hrow : Row stop (ts ++ [t]))
    (fault : ParseFault) :
    InOrder stop (ts ++ [t]) (es ++ [fault.report t]) := by
  have ht : t ∈ ts ++ [t] := by simp
  have hstop : t.span.offset = stop := by
    obtain ⟨init, last, heq, -, hoffset, -⟩ := hrow.ended
    obtain ⟨-, heq⟩ := List.append_inj' heq rfl
    rw [List.singleton_inj.1 heq, hoffset]
  refine ⟨fun e he => ?_, List.pairwise_append.2 ⟨h.ahead, List.pairwise_singleton .., ?_⟩⟩
  · rcases List.mem_append.1 he with he | he
    · exact h.blames e he
    · exact ⟨t, ht, fault, List.mem_singleton.1 he⟩
  · intro a ha b hb
    obtain ⟨s, hs, hoffset⟩ := (h.blames a ha).offset
    have hle := hrow.offset_le hs
    have hb : b.span.offset = stop := by rw [List.mem_singleton.1 hb, ← hstop]; rfl
    rw [Ahead, hb, hoffset]
    omega

end InOrder

end CompileError

namespace Parser

variable {p q r : Parser} {k : Nat} {α β : Type} {x : Parse α} {f : α → Parse β}

/-- From `p` to `q` the parser passed the tokens `ts`, an `eof` not among them, and found the
errors `es`. -/
structure Travels (stop : Nat) (p : Parser) (ts : List Token) (es : List CompileError) (q : Parser) :
    Prop where
  rest_eq : p.rest = ts ++ q.rest
  row : Row stop q.rest
  errors_eq : q.errors.toList = p.errors.toList ++ es
  blockDepth_eq : q.blockDepth = p.blockDepth

private theorem Travels.refl (h : Row stop p.rest) : Travels stop p [] [] p := ⟨rfl, h, by simp, rfl⟩

private theorem Travels.trans (h : Travels stop p ts es q) (h' : Travels stop q us es' r) :
    Travels stop p (ts ++ us) (es ++ es') r := by
  refine ⟨?_, h'.row, ?_, h'.blockDepth_eq.trans h.blockDepth_eq⟩
  · rw [h.rest_eq, h'.rest_eq, List.append_assoc]
  · rw [h'.errors_eq, h.errors_eq, List.append_assoc]

private theorem rest_eq_current (h : p.rest ≠ []) : ∃ more, p.rest = p.current :: more := by
  cases hrest : p.rest with
  | nil => exact absurd hrest h
  | cons t more => exact ⟨more, by rw [current, hrest]; rfl⟩

private theorem Travels.ordered (h : Travels stop p ts es q) (hp : Row stop p.rest) :
    (ts ++ [q.current]).Pairwise fun a b => a.span.offset < b.span.offset := by
  obtain ⟨more, hmore⟩ := rest_eq_current h.row.ne_nil
  have hrow := hp.ordered
  rw [h.rest_eq, hmore, ← List.singleton_append, ← List.append_assoc] at hrow
  exact (List.pairwise_append.1 hrow).1

private theorem travels_next (h : Row stop p.rest) (hne : p.current.kind ≠ .eof) :
    Travels stop p [p.current] [] p.next := by
  obtain ⟨more, hmore⟩ := rest_eq_current h.ne_nil
  have hrow : Row stop ([p.current] ++ more) := by rwa [hmore] at h
  rw [next_eq_of_cons hmore hne]
  exact ⟨hmore, hrow.tail (hrow.ne_nil_of_ne hne), by simp, rfl⟩

/-- Started at `p`, `x` reports errors in their order, and if it fails then about tokens up to the place
where it does. At the end there are at most as many of them as blocks were opened, and `k` more. -/
def ReportsAt (stop k : Nat) (x : Parse α) (p : Parser) : Prop :=
  match x p with
  | .ok _ q => ∃ ts es, Travels stop p ts es q ∧ InOrder stop ts es
  | .error e q => ∃ ts es, Travels stop p ts es q ∧ InOrder stop (ts ++ [q.current]) (es ++ [e]) ∧
      countAt stop (es ++ [e]) ≤ k + braces ts

def Reports (stop : Nat) (x : Parse α) : Prop := ∀ ⦃p : Parser⦄, Row stop p.rest → ReportsAt stop 1 x p

private theorem ReportsAt.of_eq {y : Parse α} (h : x p = y p) (hy : ReportsAt stop k y p) :
    ReportsAt stop k x p := by
  rwa [ReportsAt, h]

private theorem ReportsAt.of_ok {a : α} (hx : ReportsAt stop k x p) (h : x p = .ok a q) :
    ∃ ts es, Travels stop p ts es q ∧ InOrder stop ts es := by
  rwa [ReportsAt, h] at hx

private theorem ReportsAt.of_error (hx : ReportsAt stop k x p) (h : x p = .error e q) :
    ∃ ts es, Travels stop p ts es q ∧ InOrder stop (ts ++ [q.current]) (es ++ [e]) ∧
      countAt stop (es ++ [e]) ≤ k + braces ts := by
  rwa [ReportsAt, h] at hx

private theorem Travels.reportsAt {y : Parse α} {m : Nat} (h : Travels stop p ts es q)
    (hp : Row stop p.rest)
    (hes : InOrder stop ts es) (hx : ReportsAt stop k x q) (heq : y p = x q) (hk : k ≤ m + braces ts) :
    ReportsAt stop m y p := by
  rw [ReportsAt, heq]
  cases hrun : x q with
  | ok a r =>
    obtain ⟨us, es', htravels, hes'⟩ := hx.of_ok hrun
    have hordered := (h.trans htravels).ordered hp
    exact ⟨_, _, h.trans htravels, hes.append hes' (List.pairwise_append.1 hordered).1⟩
  | error e r =>
    obtain ⟨us, es', htravels, hes', hcount⟩ := hx.of_error hrun
    have hordered := (h.trans htravels).ordered hp
    have hzero := hes.countAt_eq_zero (h.rest_eq ▸ hp) h.row.ne_nil
    refine ⟨_, _, h.trans htravels, ?_, ?_⟩
    · rw [List.append_assoc] at hordered
      rw [List.append_assoc, List.append_assoc]
      exact hes.append hes' hordered
    · rw [List.append_assoc, countAt_append, hzero, braces_append]
      omega

private theorem ReportsAt.bind (hp : Row stop p.rest) (hx : ReportsAt stop k x p)
    (hf : ∀ a q, x p = .ok a q → Row stop q.rest → ReportsAt stop k (f a) q) :
    ReportsAt stop k (x >>= f) p := by
  cases hrun : x p with
  | ok a q =>
    obtain ⟨ts, es, htravels, hes⟩ := hx.of_ok hrun
    exact htravels.reportsAt hp hes (hf a q hrun htravels.row) (Run.bind_of_ok hrun) (Nat.le_add_right k _)
  | error e q =>
    rw [ReportsAt, Run.bind_of_error hrun]
    exact hx.of_error hrun

private theorem ReportsAt.mono (hx : ReportsAt stop k x p) {m : Nat} (hk : k ≤ m) :
    ReportsAt stop m x p := by
  cases hrun : x p with
  | ok a q =>
    rw [ReportsAt, hrun]
    exact hx.of_ok hrun
  | error e q =>
    obtain ⟨ts, es, htravels, hes, hcount⟩ := hx.of_error hrun
    rw [ReportsAt, hrun]
    exact ⟨ts, es, htravels, hes, Nat.le_trans hcount (Nat.add_le_add_right hk _)⟩

private theorem Reports.bind (hx : Reports stop x) (hf : ∀ a, Reports stop (f a)) : Reports stop
    (x >>= f) :=
  fun _ hp => (hx hp).bind hp fun a _ _ hq => hf a hq

private theorem Reports.map (hx : Reports stop x) (f : α → β) : Reports stop (f <$> x) := by
  intro p hp
  cases hrun : x p with
  | ok a q =>
    rw [ReportsAt, Run.map_of_ok hrun]
    exact (hx hp).of_ok hrun
  | error e q =>
    rw [ReportsAt, Run.map_of_error hrun]
    exact (hx hp).of_error hrun

private theorem Reports.discard (hx : Reports stop x) : Reports stop (Functor.discard x) := hx.map _

private theorem reports_pure (a : α) : Reports stop (pure a) := fun _ hp => ⟨[], [], .refl hp, .nil []⟩

private theorem reports_spanFrom (start : Span) : Reports stop (spanFrom start) :=
  fun _ hp => ⟨[], [], .refl hp, .nil []⟩

private theorem reportsAt_fail (hp : Row stop p.rest) (fault : ParseFault) :
    ReportsAt stop 1 (failAt p.current fault : Parse α) p :=
  ⟨[], [], .refl hp, .singleton p.current fault (by simp),
    Nat.le_trans (countAt_singleton_le _) (Nat.le_add_right 1 _)⟩

private theorem reports_failExpression : Reports stop (failExpression : Parse α) :=
  fun p hp => reportsAt_fail (α := α) hp (.expectedExpression p.current)

private theorem reportsAt_next (hp : Row stop p.rest) (hne : p.current.kind ≠ .eof) :
    ReportsAt stop k (modify next) p :=
  ⟨_, _, travels_next hp hne, .nil _⟩

private theorem reports_advance : Reports stop advance := by
  intro p hp
  by_cases hne : p.current.kind = .eof
  · rw [ReportsAt, advance, Run.bind_of_ok (Run.modify_apply next), next_of_eof hne]
    exact ⟨[], [], .refl hp, .nil []⟩
  · rw [ReportsAt, advance_apply hne]
    exact ⟨_, _, travels_next hp hne, .nil _⟩

private theorem reports_check (kind : TokenKind) : Reports stop (check kind) :=
  fun _ hp => ⟨[], [], .refl hp, .nil []⟩

private theorem reports_accept {kind : TokenKind} (hkind : kind ≠ .eof) : Reports stop
    (accept kind) := by
  intro p hp
  rw [ReportsAt, accept_apply]
  by_cases hcurrent : p.current.kind = kind
  · rw [if_pos hcurrent]
    exact ⟨_, _, travels_next hp (hcurrent ▸ hkind), .nil _⟩
  · rw [if_neg hcurrent]
    exact ⟨[], [], .refl hp, .nil []⟩

private theorem reports_consume (kind : TokenKind) (what : String) : Reports stop
    (consume kind what) := by
  intro p hp
  by_cases hcurrent : p.current.kind = kind
  · refine ReportsAt.of_eq (y := advance) ?_ (reports_advance hp)
    rw [consume_apply, if_pos hcurrent]
  · refine ReportsAt.of_eq (y := failAt p.current (.expectedToken what p.current)) ?_ (reportsAt_fail hp _)
    rw [consume_apply, if_neg hcurrent]
    rfl

private theorem discard_consume_of_ne {kind : TokenKind} (what : String) (h : p.current.kind ≠ kind) :
    Functor.discard (consume kind what) p =
      .error ((ParseFault.expectedToken what p.current).report p.current) p :=
  Run.map_of_error (by rw [consume_apply, if_neg h])

private theorem reports_expectName (what : String) : Reports stop (expectName what) :=
  (reports_consume .identifier what).bind fun _ => reports_pure _

private theorem foldPairs_reports {operand : Parse Expr} (h : Reports stop operand) (ops : List PairOp)
    (fuel : Nat) (left : Expr) : Reports stop (foldPairs ops operand fuel left) := by
  induction fuel generalizing left with
  | zero => exact reports_pure left
  | succ fuel ih =>
    intro p hp
    refine .of_eq (Run.bind_of_ok (peekKind_apply p)) ?_
    split
    · exact reports_pure left hp
    · next op hop =>
      have hkind : op.kind = p.current.kind := by simpa using List.find?_some hop
      refine (reportsAt_next hp (hkind ▸ ne_eof_of_isMark op.isMark_kind)).bind hp fun _ q _ hq => ?_
      exact h.bind (fun right => ih _) hq

private theorem pairs_reports {operand : Parse Expr} (h : Reports stop operand) (fuel : Nat)
    (levels : List (List PairOp)) : Reports stop (pairs fuel operand levels) := by
  induction levels with
  | nil => exact h
  | cons ops tighter ih => exact ih.bind fun left => foldPairs_reports ih ops fuel left

private theorem commaSeparated_reports (h : Reports stop x) (count : Nat) :
    Reports stop (commaSeparated x count) := by
  induction count with
  | zero => exact reports_pure []
  | succ count ih =>
    refine h.bind fun first => (reports_accept (by decide)).bind fun more => ?_
    split
    · exact ih.bind fun _ => reports_pure _
    · exact reports_pure _

private theorem listed_reports (h : Reports stop x) (count : Nat) : Reports stop (listed count x) := by
  refine (reports_check _).bind fun empty => ?_
  split
  · exact reports_pure []
  · exact commaSeparated_reports h count

private theorem primary_reports {expr : Parse Expr} (h : Reports stop expr) :
    Reports stop (primary expr) := by
  intro p hp
  refine .of_eq (Run.bind_of_ok Run.get_apply) ?_
  have hpass {f : Unit → Parse Expr} (hne : p.current.kind ≠ .eof) (hf : Reports stop (f ())) :
      ReportsAt stop 1 (modify next >>= f) p :=
    (reportsAt_next hp hne).bind hp fun _ _ _ hq => hf hq
  split
  · next value hvalue =>
    refine hpass ?_ (reports_pure _)
    rw [constant?_eq_some] at hvalue
    rw [← Token.word_kind, hvalue]
    exact TokenKind.ne_of_beginsExpr value.kind_beginsExpr rfl
  split
  · next hkind => exact hpass (by simp [hkind]) (reports_pure _)
  · next hkind =>
    exact hpass (by simp [hkind]) <| (reports_consume _ _).discard.bind fun _ =>
      (reports_expectName _).bind fun _ => (reports_spanFrom _).bind fun _ => reports_pure _
  · next hkind => exact hpass (by simp [hkind]) (reports_pure _)
  · next hkind =>
    exact hpass (by simp [hkind]) <| h.bind fun _ => (reports_consume _ _).discard.bind fun _ =>
      (reports_spanFrom _).bind fun _ => reports_pure _
  · exact reports_failExpression hp

private theorem trailers_reports {expr : Parse Expr} (h : Reports stop expr) (fuel count : Nat)
    (object : Expr) : Reports stop (trailers fuel expr count object) := by
  induction count generalizing object with
  | zero => exact reports_pure object
  | succ count ih =>
    refine (reports_accept (by decide)).bind fun opened => ?_
    split
    · exact (listed_reports h fuel).bind fun _ => (reports_consume _ _).discard.bind fun _ =>
        (reports_spanFrom _).bind fun _ => ih _
    refine (reports_accept (by decide)).bind fun dotted => ?_
    split
    · exact (reports_expectName _).bind fun _ => (reports_spanFrom _).bind fun _ => ih _
    · exact reports_pure object

private theorem expression_quiet {fuel : Nat} {a : Expr} (hp : Row stop p.rest)
    (h : expression fuel p = .ok a q) :
    q.errors = p.errors := by
  have hclosed : Closed p.rest := by
    obtain ⟨init, last, heq, hlast, -⟩ := hp.ended
    intro t ht
    rw [heq, List.getLast?_concat, Option.mem_some_iff] at ht
    rw [← ht, hlast]
    rfl
  have hwithin : Within p.rest [] p p := within_start (List.append_nil _).symm hp.ne_nil
  exact ((expression_stays hclosed fuel hwithin).of_ok h).errors_eq

private theorem assignment_reports {fuel : Nat} (hexpr : Reports stop (expression fuel))
    {f : Token → Expr → Parse Expr} (hf : ∀ sign value q, (∃ a, f sign value q = .ok a q) ∨
      ∃ fault : ParseFault, f sign value q = .error (fault.report sign) q)
    (hp : Row stop p.rest) (hne : p.current.kind ≠ .eof) :
    ReportsAt stop 1 (advance >>= fun sign => expression fuel >>= f sign) p := by
  have hnext := travels_next hp hne
  have heq := Run.bind_of_ok (f := fun sign => expression fuel >>= f sign) (advance_apply hne)
  cases hvalue : expression fuel p.next with
  | error e q =>
    refine hnext.reportsAt hp (.nil _) ?_ heq (Nat.le_add_right 1 _)
    rw [ReportsAt, Run.bind_of_error hvalue]
    exact (hexpr hnext.row).of_error hvalue
  | ok value q =>
    obtain ⟨ts, es, htravels, -⟩ := (hexpr hnext.row).of_ok hvalue
    obtain rfl : es = [] := by
      have herrors := htravels.errors_eq
      rw [expression_quiet hnext.row hvalue] at herrors
      simpa using herrors
    have hall := hnext.trans htravels
    rw [ReportsAt, heq, Run.bind_of_ok hvalue]
    rcases hf p.current value q with ⟨a, ha⟩ | ⟨fault, hfault⟩
    · rw [ha]
      exact ⟨_, _, hall, .nil _⟩
    · rw [hfault]
      exact ⟨_, _, hall, .singleton p.current fault (by simp),
        Nat.le_trans (countAt_singleton_le _) (Nat.le_add_right 1 _)⟩

private theorem expression_unary_report (fuel : Nat) :
    Reports stop (expression fuel) ∧ Reports stop (unary fuel) := by
  induction fuel with
  | zero => exact ⟨reports_failExpression, reports_failExpression⟩
  | succ fuel ih =>
    obtain ⟨hexpression, hunary⟩ := ih
    constructor
    · refine (pairs_reports hunary fuel _).bind fun target p hp => ?_
      refine .of_eq (Run.bind_of_ok (check_apply _ p)) ?_
      split
      · exact reports_pure target hp
      · next hkind =>
        have hequal : p.current.kind = .equal := by simpa using hkind
        refine assignment_reports hexpression (fun sign value q => ?_) hp (by simp [hequal])
        cases target with
        | name | get => exact .inl ⟨_, rfl⟩
        | _ => exact .inr ⟨.invalidAssignmentTarget, rfl⟩
    · intro p hp
      refine .of_eq (Run.bind_of_ok (peekKind_apply p)) ?_
      split
      · exact (primary_reports hexpression).bind (fun _ => trailers_reports hexpression fuel fuel _) hp
      · exact reports_advance.bind (fun _ => hunary.bind fun _ => reports_pure _) hp

private theorem expression_reports (fuel : Nat) : Reports stop (expression fuel) :=
  (expression_unary_report fuel).1

private theorem synchronize_keeps {P : Parser → Prop} (h : ∀ p, P p → P p.next) (hp : P p) :
    P p.synchronize := by
  have hskip (count : Nat) {p : Parser} (hp : P p) : P (p.skip count) := by
    induction count generalizing p with
    | zero => exact hp
    | succ count ih => exact ih (h p hp)
  have hbranches (count : Nat) {p : Parser} (hp : P p) : P (skipBranches count p) := by
    induction count generalizing p with
    | zero => exact hp
    | succ count ih =>
      rw [skipBranches]
      split
      · exact ih (hskip _ (h p hp))
      · exact hp
  rw [synchronize_eq]
  split
  · exact hp
  · exact hbranches _ (hskip _ (h p hp))

private theorem row_next (h : Row stop p.rest) : Row stop p.next.rest := by
  by_cases hne : p.current.kind = .eof
  · rwa [next_of_eof hne]
  · exact (travels_next h hne).row

def Halted (p : Parser) : Prop := p.current.kind = .eof ∨ 0 < p.blockDepth ∧ p.current.kind = .rightBrace

private theorem Halted.synchronize_eq (h : Halted p) : p.synchronize = p := by
  rw [Parser.synchronize_eq]
  rcases h with h | h
  · have hboundary : p.current.kind ∈ boundaries := by rw [h]; decide
    rw [if_neg (by simp [h]), next_of_eof h, settled_of_boundary (.inr hboundary),
      skipBranches_of_ne (by simp [h])]
  · rw [if_pos h]

private theorem travels_synchronize (hp : Row stop p.rest) (h : ¬Halted p) :
    ∃ us, Travels stop p (p.current :: us) [] p.synchronize := by
  have hne : p.current.kind ≠ .eof := fun hne => h (.inl hne)
  have honward := onward_synchronize_of_ne hne (by
    by_cases hdepth : p.blockDepth = 0
    · exact .inl hdepth
    · exact .inr fun hbrace => h (.inr ⟨Nat.pos_of_ne_zero hdepth, hbrace⟩))
  obtain ⟨ts, hrest, hlength⟩ := honward.passed
  obtain ⟨more, hmore⟩ := rest_eq_current hp.ne_nil
  cases ts with
  | nil => exact absurd hlength (by simp)
  | cons t us =>
    obtain ⟨rfl, -⟩ := List.cons.inj (hmore.symm.trans hrest)
    have hrow := synchronize_keeps (P := fun p => Row stop p.rest) (fun _ => row_next) hp
    exact ⟨us, hrest, hrow, by simp [synchronize_errors], honward.blockDepth_eq⟩

/-- A list of declarations ends behind the tokens `ts`. What was reported in it may stand at the token
where it ends only if no further declaration is looked for there. -/
structure Concludes (stop : Nat) (p : Parser) (ts : List Token) (es : List CompileError) (q : Parser) :
    Prop extends Travels stop p ts es q where
  inOrder : InOrder stop (ts ++ [q.current]) es
  halted : InOrder stop ts es ∨ Halted q
  count_le : countAt stop es ≤ 1 + braces ts

private theorem Concludes.behind (h : Travels stop p ts es q) (hp : Row stop p.rest)
    (hes : InOrder stop ts es)
    (h' : Concludes stop q us es' r) : Concludes stop p (ts ++ us) (es ++ es') r := by
  have hall := h.trans h'.toTravels
  have hordered := hall.ordered hp
  have hzero := hes.countAt_eq_zero (h.rest_eq ▸ hp) h.row.ne_nil
  refine { hall with inOrder := ?_, halted := ?_, count_le := ?_ }
  · rw [List.append_assoc] at hordered ⊢
    exact hes.append h'.inOrder hordered
  · exact h'.halted.imp_left fun hes' => hes.append hes' (List.pairwise_append.1 hordered).1
  · have := h'.count_le
    rw [countAt_append, braces_append, hzero]
    omega

private theorem Concludes.here (h : Travels stop p ts es q) (hp : Row stop p.rest)
    (hes : InOrder stop ts es) :
    Concludes stop p ts es q := by
  refine { h with inOrder := hes.mono (List.subset_append_left ..), halted := .inl hes, count_le := ?_ }
  rw [hes.countAt_eq_zero (h.rest_eq ▸ hp) h.row.ne_nil]
  exact Nat.zero_le _

private theorem declarations_conclude {decl : Parse Stmt} (hdecl : Reports stop decl)
    {halt : Parser → Bool}
    {depth : Nat} (hhalt : ∀ q, q.blockDepth = depth → Halted q → halt q) (count : Nat)
    (hp : Row stop p.rest) (hdepth : p.blockDepth = depth) :
    ∃ ss q ts es, declarations halt decl count p = .ok ss q ∧ Concludes stop p ts es q := by
  induction count generalizing p with
  | zero => exact ⟨[], p, [], [], rfl, .here (.refl hp) hp (.nil [])⟩
  | succ count ih =>
    rw [declarations, Run.bind_of_ok Run.get_apply]
    split
    · exact ⟨[], p, [], [], rfl, .here (.refl hp) hp (.nil [])⟩
    cases hrun : decl p with
    | ok s q =>
      obtain ⟨ts, es, htravels, hes⟩ := (hdecl hp).of_ok hrun
      obtain ⟨ss, r, us, es', hrest, hends⟩ := ih htravels.row (htravels.blockDepth_eq.trans hdepth)
      have hfirst : recovering decl p = .ok (some s) q := by rw [recovering, hrun]
      refine ⟨s :: ss, r, _, _, ?_, .behind htravels hp hes hends⟩
      rw [Run.bind_of_ok hfirst, Run.bind_of_ok hrest]
      rfl
    | error e q =>
      obtain ⟨ts, es, htravels, hes, hcount⟩ := (hdecl hp).of_error hrun
      let q' : Parser := { q with errors := q.errors.push e }
      have hfirst : recovering decl p = .ok none q'.synchronize := by rw [recovering, hrun]
      have hreported : Travels stop p ts (es ++ [e]) q' := by
        refine { htravels with errors_eq := ?_ }
        rw [← List.append_assoc, ← htravels.errors_eq]
        exact Array.toList_push
      by_cases hhalted : Halted q'
      · -- Nothing is passed, and the list of declarations ends here.
        have hrest : declarations halt decl count q' = .ok [] q' := by
          cases count with
          | zero => rfl
          | succ count =>
            rw [declarations, Run.bind_of_ok Run.get_apply,
              if_pos (hhalt q' (hreported.blockDepth_eq.trans hdepth) hhalted)]
            rfl
        refine ⟨[], q', ts, es ++ [e], ?_, ⟨hreported, hes, .inr hhalted, hcount⟩⟩
        rw [Run.bind_of_ok hfirst, hhalted.synchronize_eq, Run.bind_of_ok hrest]
        rfl
      · obtain ⟨us, hpassed⟩ := travels_synchronize hreported.row hhalted
        have hall := hreported.trans hpassed
        rw [List.append_nil] at hall
        have hes' : InOrder stop (ts ++ q'.current :: us) (es ++ [e]) :=
          hes.mono fun t ht => by
            rcases List.mem_append.1 ht with ht | ht
            · exact List.mem_append_left _ ht
            · rw [List.mem_singleton.1 ht]
              exact List.mem_append_right _ List.mem_cons_self
        obtain ⟨ss, r, vs, es'', hrest, hends⟩ := ih hall.row (hall.blockDepth_eq.trans hdepth)
        refine ⟨ss, r, _, _, ?_, .behind hall hp hes' hends⟩
        rw [Run.bind_of_ok hfirst, Run.bind_of_ok hrest]
        rfl

private theorem Concludes.missing (h : Concludes stop p ts es q) (hp : Row stop p.rest)
    (hne : q.current.kind ≠ .rightBrace) (fault : ParseFault) :
    InOrder stop (ts ++ [q.current]) (es ++ [fault.report q.current]) := by
  rcases h.halted with hes | hend | ⟨-, hbrace⟩
  · exact hes.append (.singleton q.current fault (by simp)) (h.ordered hp)
  · obtain ⟨more, hmore⟩ := rest_eq_current h.row.ne_nil
    have hrow := h.row
    rw [hmore] at hrow
    obtain ⟨rfl, -⟩ := hrow.eq_of_eof hend
    rw [h.rest_eq, hmore] at hp
    exact h.inOrder.push_at_end hp fault
  · exact absurd hbrace hne

private theorem blockBody_reports {decl : Parse Stmt} (hdecl : Reports stop decl) (fuel : Nat)
    (hp : Row stop p.rest) : ReportsAt stop 2 (blockBody fuel decl) p := by
  have hhalt (q : Parser) (hdepth : q.blockDepth = p.blockDepth + 1) (h : Halted q) :
      (q.current.kind == .rightBrace || q.isAtEnd) = true := by
    rcases h with h | ⟨-, h⟩ <;> simp [isAtEnd, h]
  obtain ⟨ss, q, ts, es, hbody, hends⟩ :=
    declarations_conclude (p := { p with blockDepth := p.blockDepth + 1 }) hdecl hhalt fuel hp rfl
  let r : Parser := { q with blockDepth := q.blockDepth - 1 }
  have hclosed : Travels stop p ts es r :=
    ⟨hends.rest_eq, hends.row, hends.errors_eq, by simp [r, hends.blockDepth_eq]⟩
  by_cases hbrace : r.current.kind = .rightBrace
  · have hconsume : Functor.discard (consume .rightBrace "'\x7d' after block") r = .ok () r.next :=
      Run.map_of_ok (consume_of_mark _ hbrace rfl)
    have hall := hclosed.trans (travels_next hclosed.row (by simp [hbrace]))
    rw [List.append_nil] at hall
    rw [ReportsAt, blockBody_of_ok hbody, Run.bind_of_ok hconsume]
    exact ⟨_, _, hall, hends.inOrder⟩
  · have hconsume := discard_consume_of_ne "'\x7d' after block" hbrace
    have hcount := hends.count_le
    rw [ReportsAt, blockBody_of_ok hbody, Run.bind_of_error hconsume]
    refine ⟨ts, es, hclosed, hends.missing hp hbrace _, ?_⟩
    rw [countAt_append]
    exact Nat.le_trans (Nat.add_le_add hcount (countAt_singleton_le _)) (by omega)

private theorem inFunction_reports
    (h : ReportsAt stop k x { p with functionDepth := p.functionDepth + 1 }) :
    ReportsAt stop k (inFunction x) p := by
  cases hrun : x { p with functionDepth := p.functionDepth + 1 } with
  | ok a q =>
    obtain ⟨ts, es, htravels, hes⟩ := h.of_ok hrun
    rw [ReportsAt, inFunction_of_ok hrun]
    exact ⟨ts, es, ⟨htravels.rest_eq, htravels.row, htravels.errors_eq, htravels.blockDepth_eq⟩, hes⟩
  | error e q =>
    obtain ⟨ts, es, htravels, hes⟩ := h.of_error hrun
    rw [ReportsAt, inFunction_of_error hrun]
    exact ⟨ts, es, ⟨htravels.rest_eq, htravels.row, htravels.errors_eq, htravels.blockDepth_eq⟩, hes⟩

private theorem block_reports {body : Parse (List Stmt)} {f : List Stmt → Parse β}
    (hp : Row stop p.rest) (hbody : ReportsAt stop 2 body p) (hf : ∀ ss, Reports stop (f ss)) :
    ReportsAt stop 2 (body >>= f) p :=
  hbody.bind hp fun ss _ _ hq => (hf ss hq).mono (Nat.le_succ 1)

private theorem reportsAt_brace {y : Parse α} (hp : Row stop p.rest)
    (hbrace : p.current.kind = .leftBrace)
    (heq : y p = x p.next) (hx : ReportsAt stop 2 x p.next) : ReportsAt stop 1 y p :=
  (travels_next hp (by simp [hbrace])).reportsAt hp (.nil _) hx heq (by simp [braces, hbrace])

section

variable {expr : Parse Expr} {stmt decl : Parse Stmt}

private theorem varDeclaration_reports (h : Reports stop expr) : Reports stop
    (varDeclaration expr) := by
  refine reports_advance.bind fun start => (reports_expectName _).bind fun name =>
    (reports_accept (by decide)).bind fun given => ?_
  have hsemicolon : Reports stop (consume .semicolon "';' after variable declaration") :=
    reports_consume _ _
  have hend (initial : Option Expr) := hsemicolon.discard.bind fun _ =>
    (reports_spanFrom start.span).bind fun span => reports_pure (Stmt.var name initial span)
  split
  · exact (h.map some).bind hend
  · exact (reports_pure none).bind hend

private theorem functionDeclaration_reports (h : Reports stop decl) (fuel : Nat) :
    Reports stop (functionDeclaration fuel decl) := by
  refine reports_advance.bind fun start => (reports_expectName _).bind fun name =>
    (reports_consume _ _).discard.bind fun _ => (listed_reports (reports_expectName _) fuel).bind fun params =>
    (reports_consume _ _).discard.bind fun _ p hp => ?_
  have hbody (q : Parser) (hq : Row stop q.rest) := block_reports hq
    (inFunction_reports (blockBody_reports h fuel hq)) fun body =>
      (reports_spanFrom start.span).bind fun span => reports_pure (Stmt.function name params body span)
  by_cases hbrace : p.current.kind = .leftBrace
  · have hconsume : Functor.discard (consume .leftBrace "'\x7b' before function body") p = .ok () p.next :=
      Run.map_of_ok (consume_of_mark _ hbrace rfl)
    exact reportsAt_brace hp hbrace (Run.bind_of_ok hconsume) (hbody _ (row_next hp))
  · refine ((reports_consume _ _).discard hp).bind hp fun _ q hrun _ => ?_
    rw [discard_consume_of_ne _ hbrace] at hrun
    cases hrun

private theorem ifStatement_reports (hexpr : Reports stop expr) (hstmt : Reports stop stmt) :
    Reports stop (ifStatement expr stmt) := by
  refine reports_advance.bind fun start => (reports_consume _ _).discard.bind fun _ =>
    hexpr.bind fun condition => (reports_consume _ _).discard.bind fun _ =>
    hstmt.bind fun thenBranch => (reports_accept (by decide)).bind fun given => ?_
  have hspan : Reports stop (spanFrom start.span) := reports_spanFrom _
  have hend (elseBranch : Option Stmt) := hspan.bind fun span =>
    reports_pure (Stmt.cond condition thenBranch elseBranch span)
  split
  · exact (hstmt.map some).bind hend
  · exact (reports_pure none).bind hend

private theorem whileStatement_reports (hexpr : Reports stop expr) (hstmt : Reports stop stmt) :
    Reports stop (whileStatement expr stmt) := by
  refine reports_advance.bind fun start => (reports_consume _ _).discard.bind fun _ =>
    (reports_check _).bind fun empty => ?_
  have hclose : Reports stop (consume .rightParen "')' after condition") := reports_consume _ _
  have hend := hexpr.bind fun condition => hclose.discard.bind fun _ => hstmt.bind fun body =>
    (reports_spanFrom start.span).bind fun span => reports_pure (Stmt.loop condition body span)
  split
  · intro p hp
    refine .of_eq (Run.bind_of_ok Run.get_apply) ?_
    exact (reportsAt_fail hp _).bind hp fun _ _ _ hq => hend hq
  · exact hend

private theorem returnStatement_reports (h : Reports stop expr) : Reports stop
    (returnStatement expr) := by
  intro p hp
  refine .of_eq (Run.bind_of_ok Run.get_apply) ?_
  have hvalue : Reports stop (do
      let start := (← advance).span
      let value ← if ← check .semicolon then pure none else some <$> expr
      discard (consume .semicolon "';' after return value")
      return Stmt.ret value (← spanFrom start)) := by
    refine reports_advance.bind fun start => (reports_check _).bind fun empty => ?_
    have hsemicolon : Reports stop (consume .semicolon "';' after return value") := reports_consume _ _
    have hend (value : Option Expr) := hsemicolon.discard.bind fun _ =>
      (reports_spanFrom start.span).bind fun span => reports_pure (Stmt.ret value span)
    split
    · exact (reports_pure none).bind hend
    · exact (h.map some).bind hend
  split
  · exact (reportsAt_fail hp _).bind hp fun _ _ _ hq => hvalue hq
  · exact hvalue hp

private theorem expressionStatement_reports (h : Reports stop expr) :
    Reports stop (expressionStatement expr) :=
  h.bind fun _ => (reports_consume _ _).discard.bind fun _ => (reports_spanFrom _).bind fun _ =>
    reports_pure _

end

private theorem declaration_statement_report (fuel : Nat) :
    Reports stop (declaration fuel) ∧ Reports stop (statement fuel) := by
  induction fuel with
  | zero => exact ⟨reports_failExpression, reports_failExpression⟩
  | succ fuel ih =>
    obtain ⟨hdeclaration, hstatement⟩ := ih
    have hexpression : Reports stop (expression fuel) := expression_reports fuel
    constructor
    · intro p hp
      refine .of_eq (Run.bind_of_ok (peekKind_apply p)) ?_
      split
      · exact varDeclaration_reports hexpression hp
      · exact functionDeclaration_reports hdeclaration fuel hp
      · exact hstatement hp
    · intro p hp
      refine .of_eq (Run.bind_of_ok (peekKind_apply p)) ?_
      split
      · exact ifStatement_reports hexpression hstatement hp
      · exact whileStatement_reports hexpression hstatement hp
      · exact returnStatement_reports hexpression hp
      · next hbrace =>
        refine reportsAt_brace hp hbrace (Run.bind_of_ok (advance_of_mark hbrace rfl)) ?_
        have hnext := row_next hp
        exact block_reports hnext (blockBody_reports hdeclaration fuel hnext) fun body =>
          (reports_spanFrom _).bind fun _ => reports_pure _
      · exact expressionStatement_reports hexpression hp

private theorem declaration_reports (fuel : Nat) : Reports stop (declaration fuel) :=
  (declaration_statement_report fuel).1

end Parser

/-- The tokens of a text stand one behind the other. -/
theorem Token.row_of_scan {text : String} {tokens : List Token} (h : scan text = .ok tokens) :
    Row text.utf8ByteSize tokens := by
  obtain ⟨ts, last, rfl, hts, hlast, -, htiles, hspan⟩ := tiles_of_scan h
  refine ⟨?_, ts, last, rfl, hlast, by rw [hspan], hts⟩
  have hordered := htiles.ordered
  rw [← List.map_singleton (f := span), ← List.map_append, List.pairwise_map] at hordered
  exact hordered.imp And.left

/-- The errors are about tokens of the text, in their order. Only the end of the text can be reported more
than once: once for each brace that opens a block, and once more. -/
theorem Program.errors_in_order {text : String} {tokens : List Token} {errors : List CompileError}
    (hscan : Token.scan text = .ok tokens) (hparse : parse tokens = .error errors) :
    InOrder text.utf8ByteSize tokens errors ∧
      countAt text.utf8ByteSize errors ≤ 1 + braces tokens := by
  have hhalt (q : Parser) (hdepth : q.blockDepth = 0) (h : q.Halted) : q.isAtEnd = true := by
    rcases h with h | ⟨h, -⟩
    · simp [Parser.isAtEnd, h]
    · omega
  obtain ⟨ss, q, ts, es, hrun, hends⟩ := Parser.declarations_conclude (p := .ofTokens tokens)
    (Parser.declaration_reports (Parser.fuelFor tokens.length)) hhalt (Parser.fuelFor tokens.length)
    (Token.row_of_scan hscan) rfl
  have herrors : errors = es := by
    rw [parse, Parser.program, hrun] at hparse
    dsimp only at hparse
    split at hparse
    · cases hparse
    · rw [← Except.error.inj hparse, hends.errors_eq]
      rfl
  obtain ⟨more, hmore⟩ := Parser.rest_eq_current hends.row.ne_nil
  have htokens : tokens = (ts ++ [q.current]) ++ more := by
    rw [List.append_assoc, List.singleton_append, ← hmore]
    exact hends.rest_eq
  have hbraces : braces ts ≤ braces tokens := by
    rw [htokens, braces_append, braces_append]
    omega
  rw [herrors]
  refine ⟨?_, Nat.le_trans hends.count_le (Nat.add_le_add_left hbraces 1)⟩
  rw [htokens]
  exact hends.inOrder.mono (List.subset_append_left ..)

/-- A target that cannot be assigned to, a `;` missing before a brace, and a block that is open at the
end of the text: there the `;` of its statement and its brace are missing. -/
theorem Program.errors_in_order_open_block :
    ∃ tokens errors, Token.scan "1 = 2; \x7b x \x7d \x7b y" = .ok tokens ∧
      parse tokens = .error errors ∧ errors.map (fun e => e.span.offset) = [2, 11, 16, 16] ∧
      InOrder 16 tokens errors ∧ countAt 16 errors ≤ 1 + braces tokens := by
  have hread : ((Token.scan "1 = 2; \x7b x \x7d \x7b y").toOption.bind fun tokens =>
      match parse tokens with
      | .ok _ => none
      | .error errors => some (errors.map fun e => e.span.offset)) = some [2, 11, 16, 16] := by
    decide +kernel
  have hsize : "1 = 2; \x7b x \x7d \x7b y".utf8ByteSize = 16 := by decide +kernel
  generalize "1 = 2; \x7b x \x7d \x7b y" = text at hread hsize ⊢
  cases hscan : Token.scan text with
  | error e => simp [hscan, Except.toOption] at hread
  | ok tokens =>
    cases hparse : parse tokens with
    | ok program => simp [hscan, hparse, Except.toOption] at hread
    | error errors =>
      simp only [hscan, hparse, Except.toOption, Option.bind_some, Option.some.injEq] at hread
      have horder := errors_in_order hscan hparse
      rw [hsize] at horder
      exact ⟨tokens, errors, rfl, hparse, hread, horder⟩

end Copione
