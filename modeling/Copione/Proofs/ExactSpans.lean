import Copione.Proofs.JoinedTexts
import Copione.Proofs.Spelling
/-!
# Exact spans

Every node of a program is written at some index among the words of the program. Its span goes from
the first of the tokens that spell it there to the last of them. So nodes lie within the nodes that
they belong to, and one behind the other in each of them.
-/
namespace Copione

inductive Node where
  | expr (e : Expr)
  | stmt (s : Stmt)

/-- A word of a node itself, or a node below it. -/
inductive Piece where
  | word (w : Word)
  | node (n : Node)

namespace Piece

def ofStmts (ss : List Stmt) : List Piece := ss.map fun s => .node (.stmt s)

def separated (ps : List Piece) : List Piece := ps.intersperse (.word (.mark .comma))

end Piece

namespace Node

def span : Node → Span
  | .expr e => e.span
  | .stmt s => s.span

def words : Node → List Word
  | .expr e => e.words
  | .stmt s => s.words

def pieces : Node → List Piece
  | .expr (.literal value _) => [.word (.constant value)]
  | .expr (.name n _) => [.word (.name n)]
  | .expr (.group inner _) =>
    [.word (.mark .leftParen), .node (.expr inner), .word (.mark .rightParen)]
  | .expr (.unary op operand _) => [.word (.mark op.kind), .node (.expr operand)]
  | .expr (.binary op left right _) =>
    [.node (.expr left), .word (.mark op.kind), .node (.expr right)]
  | .expr (.logical op left right _) =>
    [.node (.expr left), .word (.mark op.kind), .node (.expr right)]
  | .expr (.assign n value _) => [.word (.name n), .word (.mark .equal), .node (.expr value)]
  | .expr (.call callee arguments _) =>
    .node (.expr callee) :: .word (.mark .leftParen) ::
      (Piece.separated (arguments.map fun e => .node (.expr e)) ++ [.word (.mark .rightParen)])
  | .expr (.get object n _) => [.node (.expr object), .word (.mark .dot), .word (.name n)]
  | .expr (.set object n value _) =>
    [.node (.expr object), .word (.mark .dot), .word (.name n), .word (.mark .equal),
      .node (.expr value)]
  | .expr (.questo _) => [.word (.mark .questo)]
  | .expr (.super method _) => [.word (.mark .super), .word (.mark .dot), .word (.name method)]
  | .stmt (.expr value _) => [.node (.expr value), .word (.mark .semicolon)]
  | .stmt (.var n none _) =>
    [.word (.mark .variabile), .word (.name n), .word (.mark .semicolon)]
  | .stmt (.var n (some value) _) =>
    [.word (.mark .variabile), .word (.name n), .word (.mark .equal), .node (.expr value),
      .word (.mark .semicolon)]
  | .stmt (.block body _) =>
    .word (.mark .leftBrace) :: (Piece.ofStmts body ++ [.word (.mark .rightBrace)])
  | .stmt (.cond condition thenBranch none _) =>
    [.word (.mark .se), .word (.mark .leftParen), .node (.expr condition),
      .word (.mark .rightParen), .node (.stmt thenBranch)]
  | .stmt (.cond condition thenBranch (some elseBranch) _) =>
    [.word (.mark .se), .word (.mark .leftParen), .node (.expr condition),
      .word (.mark .rightParen), .node (.stmt thenBranch), .word (.mark .oppure),
      .node (.stmt elseBranch)]
  | .stmt (.loop condition body _) =>
    [.word (.mark .mentre), .word (.mark .leftParen), .node (.expr condition),
      .word (.mark .rightParen), .node (.stmt body)]
  | .stmt (.function n params body _) =>
    .word (.mark .funzione) :: .word (.name n) :: .word (.mark .leftParen) ::
      (Piece.separated (params.map fun p => .word (.name p)) ++
        .word (.mark .rightParen) :: .word (.mark .leftBrace) ::
          (Piece.ofStmts body ++ [.word (.mark .rightBrace)]))
  | .stmt (.ret none _) => [.word (.mark .ritorna), .word (.mark .semicolon)]
  | .stmt (.ret (some value) _) =>
    [.word (.mark .ritorna), .node (.expr value), .word (.mark .semicolon)]

end Node

namespace Piece

def words : Piece → List Word
  | .word w => [w]
  | .node n => n.words

def node? : Piece → Option Node
  | .word _ => none
  | .node n => some n

theorem filterMap_node?_ofStmts (ss : List Stmt) : (ofStmts ss).filterMap node? = ss.map Node.stmt := by
  rw [ofStmts, List.filterMap_map]
  exact congrFun List.filterMap_eq_map ss

end Piece

def Node.children (n : Node) : List Node := n.pieces.filterMap Piece.node?

/-- The node is in the program, and is written from its word with the index `i` on. -/
inductive Node.At (program : List Stmt) : Nat → Node → Prop
  | top {before after : List Piece} {n : Node}
    (h : Piece.ofStmts program = before ++ .node n :: after) :
    At program (before.flatMap Piece.words).length n
  | part {i : Nat} {parent n : Node} {before after : List Piece} (hparent : At program i parent)
    (h : parent.pieces = before ++ .node n :: after) :
    At program (i + (before.flatMap Piece.words).length) n

namespace Span

def Before (a b : Span) : Prop := a.offset < b.offset ∧ a.stop ≤ b.offset

def Within (inner outer : Span) : Prop := outer.offset ≤ inner.offset ∧ inner.stop ≤ outer.stop

/-- The span goes from the beginning of the first token to the end of the last one, and has the line
of the first one. -/
def Encloses (s : Span) (ts : List Token) : Prop :=
  ∃ first last, ts.head? = some first ∧ ts.getLast? = some last ∧
    s.offset = first.span.offset ∧ s.stop = last.span.stop ∧ s.line = first.span.line

end Span

def Token.Ordered (ts : List Token) : Prop := ts.Pairwise fun a b => a.span.Before b.span

theorem Token.ordered_of_scan {text : String} {ts : List Token} {e : Token}
    (h : scan text = .ok (ts ++ [e])) : Ordered ts := by
  obtain ⟨htokens, -⟩ := scan_eq_ok h
  obtain ⟨rfl, -⟩ := List.append_inj' htokens rfl
  obtain ⟨stop, lexeme, after, hlaid, -⟩ := Lexeme.laid_all [] [] text.toList .nil
  exact List.pairwise_map.mp (List.pairwise_append.mp hlaid.tiles.ordered).1

namespace Token.Ordered

variable {ts us : List Token} {t : Token}

private theorem sublist (h : Ordered us) (hsub : ts.Sublist us) :
    Ordered ts := List.Pairwise.sublist hsub h

theorem middle {vs : List Token} (h : Ordered (ts ++ (us ++ vs))) : Ordered us :=
  (List.pairwise_append.mp (List.pairwise_append.mp h).2.1).1

private theorem head_le {first : Token} (h : Ordered ts) (hfirst : ts.head? = some first)
    (ht : t ∈ ts) :
    first.span.offset ≤ t.span.offset := by
  obtain ⟨rest, rfl⟩ := List.head?_eq_some_iff.mp hfirst
  obtain rfl | ht := List.mem_cons.mp ht
  · exact Nat.le_refl _
  · exact Nat.le_of_lt ((List.pairwise_cons.mp h).1 t ht).1

private theorem le_getLast {last : Token} (h : Ordered ts) (hlast : ts.getLast? = some last)
    (ht : t ∈ ts) :
    t.span.stop ≤ last.span.stop := by
  obtain ⟨rest, rfl⟩ := List.getLast?_eq_some_iff.mp hlast
  obtain ht | ht := List.mem_append.mp ht
  · have hle := ((List.pairwise_append.mp h).2.2 t ht last (List.mem_singleton_self _)).2
    exact Nat.le_trans hle (Nat.le_add_right _ _)
  · obtain rfl := List.mem_singleton.mp ht
    exact Nat.le_refl _

end Token.Ordered

namespace Span

open Token (Ordered)

variable {s s' : Span} {ts us vs : List Token}

private theorem encloses_through (h : Ordered ts → s.Encloses ts) (h' : Ordered us → s'.Encloses us)
    (hbegin : ts <+: vs) (hend : us <:+ vs) (hvs : Ordered vs) : (s.through s').Encloses vs := by
  obtain ⟨first, _, hfirst, -, hoffset, -, hline⟩ := h (hvs.sublist hbegin.sublist)
  obtain ⟨_, last, -, hlast, -, hstop, -⟩ := h' (hvs.sublist hend.sublist)
  have hhead : vs.head? = some first := by
    obtain ⟨more, rfl⟩ := hbegin
    rw [List.head?_append, hfirst, Option.some_or]
  have hgetLast : vs.getLast? = some last := by
    obtain ⟨more, rfl⟩ := hend
    rw [List.getLast?_append, hlast, Option.some_or]
  refine ⟨first, last, hhead, hgetLast, hoffset, ?_, hline⟩
  have hle := hvs.head_le hhead (List.mem_of_getLast? hgetLast)
  have hlen : last.span.offset ≤ last.span.stop := Nat.le_add_right _ _
  have hthrough : (s.through s').stop = s.offset + (max s'.stop s.offset - s.offset) := rfl
  omega

private theorem encloses_token (t : Token) (_ : Ordered [t]) : t.span.Encloses [t] :=
  ⟨t, t, rfl, rfl, rfl, rfl, rfl⟩

private theorem encloses_tokens {first last : Token} (hfirst : ts.head? = some first)
    (hlast : ts.getLast? = some last) : Ordered ts → (first.span.through last.span).Encloses ts := by
  obtain ⟨more, hmore⟩ := List.head?_eq_some_iff.mp hfirst
  obtain ⟨more', hmore'⟩ := List.getLast?_eq_some_iff.mp hlast
  exact encloses_through (encloses_token first) (encloses_token last) ⟨more, hmore.symm⟩
    ⟨more', hmore'.symm⟩

private theorem Encloses.within (h : s.Encloses ts) (h' : s'.Encloses us) (hus : Ordered us)
    (hsub : ts.Sublist us) : s.Within s' := by
  obtain ⟨first, last, hfirst, hlast, hoffset, hstop, -⟩ := h
  obtain ⟨first', last', hfirst', hlast', hoffset', hstop', -⟩ := h'
  refine ⟨?_, ?_⟩
  · rw [hoffset, hoffset']
    exact hus.head_le hfirst' (hsub.subset (List.mem_of_head? hfirst))
  · rw [hstop, hstop']
    exact hus.le_getLast hlast' (hsub.subset (List.mem_of_getLast? hlast))

private theorem Encloses.before (h : s.Encloses ts) (h' : s'.Encloses us)
    (hordered : Ordered (ts ++ us)) :
    s.Before s' := by
  obtain ⟨first, last, hfirst, hlast, hoffset, hstop, -⟩ := h
  obtain ⟨first', _, hfirst', -, hoffset', -, -⟩ := h'
  have hbefore : ∀ t ∈ ts, t.span.Before first'.span := fun t ht =>
    (List.pairwise_append.mp hordered).2.2 t ht first' (List.mem_of_head? hfirst')
  rw [Before, hoffset, hoffset', hstop]
  exact ⟨(hbefore first (List.mem_of_head? hfirst)).1, (hbefore last (List.mem_of_getLast? hlast)).2⟩

end Span

open Token (Ordered)

private theorem Expr.Spelled.encloses {ts : List Token} {e : Expr} (h : e.Spelled ts) :
    Ordered ts → e.span.Encloses ts := by
  cases h with
  | literal | name | questo => exact Span.encloses_token _
  | super => exact Span.encloses_tokens rfl rfl
  | group => exact Span.encloses_tokens rfl List.getLast?_concat
  | unary _ h =>
    exact Span.encloses_through (Span.encloses_token _) h.encloses ⟨_, rfl⟩ ⟨[_], rfl⟩
  | binary hleft _ hright | logical hleft _ hright =>
    exact Span.encloses_through hleft.encloses hright.encloses ⟨_, rfl⟩
      ⟨_, List.append_assoc _ [_] _⟩
  | assign _ _ h =>
    exact Span.encloses_through (Span.encloses_token _) h.encloses ⟨_, rfl⟩ ⟨[_, _], rfl⟩
  | call hcallee =>
    exact Span.encloses_through hcallee.encloses (Span.encloses_token _) ⟨_, rfl⟩
      ⟨_, List.append_assoc _ (_ :: _) _⟩
  | get h =>
    exact Span.encloses_through h.encloses (Span.encloses_token _) ⟨_, rfl⟩
      ⟨_, List.append_assoc _ [_] _⟩
  | set hobject _ _ _ hvalue =>
    exact Span.encloses_through hobject.encloses hvalue.encloses ⟨_, rfl⟩
      ⟨_, List.append_assoc _ [_, _, _] _⟩

private theorem Stmt.Spelled.encloses {ts : List Token} {s : Stmt} (h : s.Spelled ts) :
    Ordered ts → s.span.Encloses ts := by
  cases h with
  | expr h _ => exact Span.encloses_through h.encloses (Span.encloses_token _) ⟨_, rfl⟩ ⟨_, rfl⟩
  | var | ret => exact Span.encloses_tokens rfl rfl
  | varInit | block | function | retValue =>
    exact Span.encloses_tokens rfl (by simp [List.getLast?_cons])
  | onlyThen _ _ _ _ _ hlast | thenElse _ _ _ _ _ _ _ hlast | loop _ _ _ _ _ hlast =>
    exact Span.encloses_tokens rfl (by simp [List.getLast?_cons, hlast])

def Node.Spelled (ts : List Token) : Node → Prop
  | .expr e => e.Spelled ts
  | .stmt s => s.Spelled ts

theorem Node.Spelled.words {ts : List Token} : ∀ {n : Node}, n.Spelled ts →
    ts.map Token.word = n.words
  | .expr _, h => Expr.Spelled.words h
  | .stmt _, h => Stmt.Spelled.words h

theorem Node.Spelled.encloses {ts : List Token} : ∀ {n : Node}, n.Spelled ts → Ordered ts →
    n.span.Encloses ts
  | .expr _, h => Expr.Spelled.encloses h
  | .stmt _, h => Stmt.Spelled.encloses h

namespace Piece

inductive SpelledAll : List Token → List Piece → Prop
  | nil : SpelledAll [] []
  | word {t : Token} {ts : List Token} {w : Word} {ps : List Piece} (h : t.word = w)
    (hs : SpelledAll ts ps) : SpelledAll (t :: ts) (.word w :: ps)
  | node {ts us : List Token} {n : Node} {ps : List Piece} (h : n.Spelled ts)
    (hs : SpelledAll us ps) : SpelledAll (ts ++ us) (.node n :: ps)

namespace SpelledAll

variable {ts us : List Token} {ps qs : List Piece} {n : Node}

private theorem one (h : n.Spelled ts) : SpelledAll ts [.node n] := by
  rw [← List.append_nil ts]
  exact .node h .nil

private theorem append (h : SpelledAll ts ps) (h' : SpelledAll us qs) :
    SpelledAll (ts ++ us) (ps ++ qs) := by
  induction h with
  | nil => exact h'
  | word h _ ih => exact .word h ih
  | node h _ ih =>
    rw [List.append_assoc]
    exact .node h ih

private theorem length_eq (h : SpelledAll ts ps) : ts.length = (ps.flatMap words).length := by
  induction h with
  | nil => rfl
  | word _ _ ih => simp [ih, words]
  | node h _ ih =>
    have hwords := congrArg List.length h.words
    rw [List.length_map] at hwords
    simp [ih, words, hwords]

private theorem of_arguments : ∀ {ts : List Token} {es : List Expr}, Expr.SpelledAll ts es →
    SpelledAll ts (separated (es.map fun e => Piece.node (.expr e)))
  | _, _, .nil => .nil
  | _, [e], .one h => one (show Node.Spelled _ (.expr e) from h)
  | _, e :: _, .cons h hcomma hs =>
    node (show Node.Spelled _ (.expr e) from h) (.word hcomma (of_arguments hs))

private theorem of_params {params : List String}
    (h : ts.map Token.word = commas (params.map fun p => [.name p])) :
    SpelledAll ts (separated (params.map fun p => Piece.word (.name p))) := by
  induction params generalizing ts with
  | nil =>
    obtain rfl := List.map_eq_nil_iff.mp h
    exact .nil
  | cons p params ih =>
    cases params with
    | nil =>
      obtain ⟨t, rest, rfl, ht, hrest⟩ := List.map_eq_cons_iff.mp h
      obtain rfl := List.map_eq_nil_iff.mp hrest
      exact .word ht .nil
    | cons q params =>
      obtain ⟨t, rest, rfl, ht, hrest⟩ := List.map_eq_cons_iff.mp h
      obtain ⟨comma, rest, rfl, hcomma, hrest⟩ := List.map_eq_cons_iff.mp hrest
      exact .word ht (.word hcomma (ih hrest))

theorem of_stmts : ∀ {ts : List Token} {ss : List Stmt}, Stmt.SpelledAll ts ss →
    SpelledAll ts (ofStmts ss)
  | _, _, .nil => .nil
  | _, s :: _, .cons h hs => node (show Node.Spelled _ (.stmt s) from h) (of_stmts hs)

private theorem exists_append (h : SpelledAll ts (ps ++ qs)) :
    ∃ us vs, ts = us ++ vs ∧ SpelledAll us ps ∧ SpelledAll vs qs := by
  induction ps generalizing ts with
  | nil => exact ⟨[], ts, rfl, .nil, h⟩
  | cons p ps ih =>
    cases p with
    | word w =>
      cases h with
      | word h hs =>
        obtain ⟨us, vs, rfl, hps, hqs⟩ := ih hs
        exact ⟨_ :: us, vs, rfl, .word h hps, hqs⟩
    | node n =>
      cases h with
      | node h hs =>
        obtain ⟨us, vs, rfl, hps, hqs⟩ := ih hs
        exact ⟨_ ++ us, vs, (List.append_assoc _ _ _).symm, .node h hps, hqs⟩

private theorem split (h : SpelledAll ts (ps ++ .node n :: qs)) :
    ∃ before own after, ts = before ++ (own ++ after) ∧
      before.length = (ps.flatMap words).length ∧ n.Spelled own := by
  obtain ⟨before, rest, rfl, hps, hrest⟩ := h.exists_append
  cases hrest with
  | node h _ => exact ⟨before, _, _, rfl, hps.length_eq, h⟩

private theorem exists_spelled (h : SpelledAll ts ps) (hn : n ∈ ps.filterMap node?) :
    ∃ own, own.Sublist ts ∧ n.Spelled own := by
  obtain ⟨p, hp, hnode⟩ := List.mem_filterMap.mp hn
  cases p with
  | word => cases hnode
  | node m =>
    obtain rfl := Option.some.inj hnode
    obtain ⟨before, after, rfl⟩ := List.append_of_mem hp
    obtain ⟨us, own, vs, rfl, -, hspelled⟩ := h.split
    exact ⟨own, (List.sublist_append_left own vs).trans (List.sublist_append_right us _), hspelled⟩

theorem nodes_before (h : SpelledAll ts ps) (hts : Ordered ts) :
    (ps.filterMap node?).Pairwise fun a b => a.span.Before b.span := by
  induction h with
  | nil => exact .nil
  | word _ _ ih => exact ih (List.pairwise_cons.mp hts).2
  | @node ts us n ps h hs ih =>
    obtain ⟨hown, hrest, -⟩ := List.pairwise_append.mp hts
    refine List.pairwise_cons.mpr ⟨fun m hm => ?_, ih hrest⟩
    obtain ⟨own, hsub, hspelled⟩ := hs.exists_spelled hm
    exact (h.encloses hown).before (hspelled.encloses (hrest.sublist hsub))
      (hts.sublist (hsub.append_left ts))

end SpelledAll

end Piece

theorem Node.Spelled.pieces {ts : List Token} {n : Node} (h : n.Spelled ts) :
    Piece.SpelledAll ts n.pieces := by
  cases n with
  | expr e =>
    cases h with
    | literal h | name h | questo h => exact .word h .nil
    | super h hdot hmethod => exact .word h (.word hdot (.word hmethod .nil))
    | group hopen h hclose => exact .word hopen (.node h (.word hclose .nil))
    | unary hop h => exact .word hop (.one h)
    | binary hleft hop hright | logical hleft hop hright =>
      exact .node hleft (.word hop (.one hright))
    | assign hname hsign h => exact .word hname (.word hsign (.one h))
    | call hcallee hopen harguments hclose =>
      exact .node hcallee (.word hopen (.append (.of_arguments harguments) (.word hclose .nil)))
    | get h hdot hname => exact .node h (.word hdot (.word hname .nil))
    | set hobject hdot hname hsign hvalue =>
      exact .node hobject (.word hdot (.word hname (.word hsign (.one hvalue))))
  | stmt s =>
    cases h with
    | expr h hend => exact .node h (.word hend .nil)
    | var h hname hend => exact .word h (.word hname (.word hend .nil))
    | varInit h hname hsign hvalue hend =>
      exact .word h (.word hname (.word hsign (.node hvalue (.word hend .nil))))
    | block hopen h hclose =>
      exact .word hopen (.append (.of_stmts h) (.word hclose .nil))
    | onlyThen h hopen hcondition hclose hthen _ =>
      exact .word h (.word hopen (.node hcondition (.word hclose (.one hthen))))
    | thenElse h hopen hcondition hclose hthen hoppure helse _ =>
      exact .word h (.word hopen (.node hcondition (.word hclose (.node hthen (.word hoppure
        (.one helse))))))
    | loop h hopen hcondition hclose hbody _ =>
      exact .word h (.word hopen (.node hcondition (.word hclose (.one hbody))))
    | function h hname hopen hparams hclose hbrace hbody hend =>
      exact .word h (.word hname (.word hopen (.append (.of_params hparams) (.word hclose
        (.word hbrace (.append (.of_stmts hbody) (.word hend .nil)))))))
    | ret h hend => exact .word h (.word hend .nil)
    | retValue h hvalue hend => exact .word h (.node hvalue (.word hend .nil))

namespace Node

variable {program : List Stmt} {ts : List Token} {n : Node}

theorem Spelled.children_within (h : n.Spelled ts) (hts : Ordered ts) :
    ∀ child ∈ n.children, child.span.Within n.span := by
  intro child hchild
  obtain ⟨own, hsub, hspelled⟩ := h.pieces.exists_spelled hchild
  exact (hspelled.encloses (hts.sublist hsub)).within (h.encloses hts) hts hsub

theorem exists_at {s : Stmt} (hs : s ∈ program) : ∃ i, At program i (.stmt s) := by
  obtain ⟨before, after, h⟩ := List.append_of_mem (List.mem_map_of_mem hs)
  exact ⟨_, .top h⟩

theorem At.spelled {i : Nat} (h : At program i n) (hts : Stmt.SpelledAll ts program) :
    ∃ before own after, ts = before ++ (own ++ after) ∧ before.length = i ∧ n.Spelled own := by
  induction h with
  | top h =>
    have hpieces := Piece.SpelledAll.of_stmts hts
    rw [h] at hpieces
    exact hpieces.split
  | part _ h ih =>
    obtain ⟨before, own, after, rfl, rfl, hparent⟩ := ih
    have hpieces := hparent.pieces
    rw [h] at hpieces
    obtain ⟨us, own, vs, rfl, hlength, hspelled⟩ := hpieces.split
    exact ⟨before ++ us, own, vs ++ after, by simp only [List.append_assoc], by simp [hlength],
      hspelled⟩

end Node

end Copione
