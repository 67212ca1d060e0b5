import Copione.Proofs.RejoinedLexemes
import Copione.Proofs.Sessions
import Copione.Proofs.SexpLeaves
/-!
# Programs behind S-expressions

Two programs that have the same S-expressions are the same up to spans. The S-expressions are lists of
atoms that can be read in one way only. The first atom of a list and the number of the others give the
node, and an atom that stands alone gives the leaf.
-/
namespace Copione

/-- What a node of a program is, apart from its parts. -/
inductive Form where
  | group
  | unary (op : UnaryOp)
  | pair (op : PairOp)
  | assign
  | call
  | get
  | set
  | super
  | var
  | block
  | cond
  | loop
  | function
  | ret
  deriving DecidableEq

namespace Form

def head : Form → String
  | .group => "group"
  | .unary op => op.kind.text
  | .pair op => op.kind.text
  | .assign => "="
  | .call => "call"
  | .get => "."
  | .set => ".="
  | .super => "super"
  | .var => "variabile"
  | .block => "blocco"
  | .cond => "se"
  | .loop => "mentre"
  | .function => "funzione"
  | .ret => "ritorna"

/-- Operators before one operand and between two can have the same text. -/
def fits : Form → Nat → Bool
  | .unary _, parts => parts == 1
  | .pair _, parts => parts == 2
  | _, _ => true

def all : List Form :=
  [.group, .unary .negate, .unary .not, .assign, .call, .get, .set, .super, .var, .block, .cond, .loop,
    .function, .ret] ++ PairOp.levels.flatten.map .pair

/-- The node that begins with the text and has so many parts. -/
def of? (text : String) (parts : Nat) : Option Form := all.find? fun f => f.head == text && f.fits parts

private theorem of?_head (f : Form) {parts : Nat} (h : f.fits parts) : of? f.head parts = some f := by
  match f with
  | .unary op =>
    obtain rfl : parts = 1 := by simpa [fits] using h
    cases op <;> decide
  | .pair op =>
    obtain rfl : parts = 2 := by simpa [fits] using h
    rcases op with op | op <;> cases op <;> decide
  | .group | .assign | .call | .get | .set | .super | .var | .block | .cond | .loop | .function | .ret => rfl

def isStmt : Form → Bool
  | .var | .block | .cond | .loop | .function | .ret => true
  | _ => false

def node (f : Form) (parts : List Sexp) : Sexp := .list (.atom f.head :: parts)

@[simp] theorem render_node (f : Form) (parts : List Sexp) :
    (f.node parts).render = parenthesize (f.head :: Sexp.renderAll parts) := by
  rw [node, Sexp.render, Sexp.renderAll, Sexp.render]

def ofSexp? : Sexp → Option Form
  | .list (.atom text :: parts) => of? text parts.length
  | _ => none

private theorem ofSexp?_node {f : Form} {parts : List Sexp} (h : f.fits parts.length) :
    ofSexp? (f.node parts) = some f :=
  of?_head f h

private theorem atomic_head (f : Form) : Sexp.Atomic f.head.toList := by
  match f with
  | .unary op => cases op <;> exact .of_all (by decide) (by decide)
  | .pair op => rcases op with op | op <;> cases op <;> exact .of_all (by decide) (by decide)
  | .group | .assign | .call | .get | .set | .super | .var | .block | .cond | .loop | .function
  | .ret => exact .of_all (by decide) (by decide)

private theorem legible_node (f : Form) {parts : List Sexp} (h : ∀ t ∈ parts, t.Legible) :
    (f.node parts).Legible :=
  .list (List.forall_mem_cons.mpr ⟨.atom f.atomic_head, h⟩)

private theorem node_inj {f : Form} {parts parts' : List Sexp} (h : f.node parts = f.node parts') :
    parts = parts' :=
  (List.cons.inj (Sexp.list.inj h)).2

end Form

private theorem Sexp.legible_name {n : String} (h : (Word.name n).Legible) : (Sexp.atom n).Legible :=
  .atom (h.atomic trivial)

namespace Expr

mutual

def tree : Expr → Sexp
  | .literal value _ => .atom value.sexp
  | .name n _ => .atom n
  | .group inner _ => Form.group.node [inner.tree]
  | .unary op operand _ => (Form.unary op).node [operand.tree]
  | .binary op left right _ => (Form.pair (.binary op)).node [left.tree, right.tree]
  | .logical op left right _ => (Form.pair (.logical op)).node [left.tree, right.tree]
  | .assign n value _ => Form.assign.node [.atom n, value.tree]
  | .call callee arguments _ => Form.call.node (callee.tree :: treesOfAll arguments)
  | .get object n _ => Form.get.node [object.tree, .atom n]
  | .set object n value _ => Form.set.node [object.tree, .atom n, value.tree]
  | .questo _ => .atom "questo"
  | .super method _ => Form.super.node [.atom method]

def treesOfAll : List Expr → List Sexp
  | [] => []
  | e :: es => e.tree :: treesOfAll es

end

def leaf? : Expr → Option Word
  | .literal value _ => some (.constant value)
  | .name n _ => some (.name n)
  | .questo _ => some (.mark .questo)
  | _ => none

def form? : Expr → Option Form
  | .group .. => some .group
  | .unary op .. => some (.unary op)
  | .binary op .. => some (.pair (.binary op))
  | .logical op .. => some (.pair (.logical op))
  | .assign .. => some .assign
  | .call .. => some .call
  | .get .. => some .get
  | .set .. => some .set
  | .super .. => some .super
  | .literal .. | .name .. | .questo _ => none

mutual

private theorem render_tree : ∀ e : Expr, e.tree.render = e.sexp
  | .literal _ _ | .name _ _ | .questo _ => rfl
  | .group inner _ => by simp [tree, sexp, Form.head, inner.render_tree]
  | .unary op operand _ => by
    simp [tree, sexp, Form.head, operand.render_tree]
  | .binary op left right _ => by
    simp [tree, sexp, Form.head, left.render_tree, right.render_tree,
      PairOp.kind]
  | .logical op left right _ => by
    simp [tree, sexp, Form.head, left.render_tree, right.render_tree,
      PairOp.kind]
  | .assign n value _ => by
    simp [tree, sexp, Form.head, value.render_tree]
  | .call callee arguments _ => by
    simp [tree, sexp, Form.head, callee.render_tree,
      renderAll_treesOfAll arguments]
  | .get object n _ => by
    simp [tree, sexp, Form.head, object.render_tree]
  | .set object n value _ => by
    simp [tree, sexp, Form.head, object.render_tree, value.render_tree]
  | .super method _ => by simp [tree, sexp, Form.head]

theorem renderAll_treesOfAll : ∀ es : List Expr, Sexp.renderAll (treesOfAll es) = sexpExprs es
  | [] => rfl
  | e :: es => by rw [treesOfAll, Sexp.renderAll, sexpExprs, e.render_tree, renderAll_treesOfAll es]

end

inductive Legible : Expr → Prop
  | literal {value : Constant} (h : (Word.constant value).Legible) (span : Span) : Legible (.literal value span)
  | name {n : String} (h : (Word.name n).Legible) (span : Span) : Legible (.name n span)
  | questo (span : Span) : Legible (.questo span)
  | super {method : String} (h : (Word.name method).Legible) (span : Span) : Legible (.super method span)
  | group {inner : Expr} (h : Legible inner) (span : Span) : Legible (.group inner span)
  | unary {operand : Expr} (h : Legible operand) (op : UnaryOp) (span : Span) :
    Legible (.unary op operand span)
  | binary {left right : Expr} (hleft : Legible left) (hright : Legible right) (op : BinaryOp) (span : Span) :
    Legible (.binary op left right span)
  | logical {left right : Expr} (hleft : Legible left) (hright : Legible right) (op : LogicalOp)
    (span : Span) : Legible (.logical op left right span)
  | assign {n : String} {value : Expr} (hname : (Word.name n).Legible) (h : Legible value) (span : Span) :
    Legible (.assign n value span)
  | call {callee : Expr} {arguments : List Expr} (hcallee : Legible callee)
    (harguments : ∀ a ∈ arguments, Legible a) (span : Span) : Legible (.call callee arguments span)
  | get {object : Expr} {n : String} (h : Legible object) (hname : (Word.name n).Legible) (span : Span) :
    Legible (.get object n span)
  | set {object value : Expr} {n : String} (hobject : Legible object) (hname : (Word.name n).Legible)
    (hvalue : Legible value) (span : Span) : Legible (.set object n value span)

mutual

private theorem legible_of_words : ∀ {e : Expr}, (∀ w ∈ e.words, w.Legible) → e.Legible
  | .literal _ _, h => .literal (h _ (by simp [words])) _
  | .name _ _, h => .name (h _ (by simp [words])) _
  | .questo _, _ => .questo _
  | .super _ _, h => .super (h _ (by simp [words])) _
  | .group _ _, h => .group (legible_of_words fun w hw => h w (by simp [words, hw])) _
  | .unary _ _ _, h => .unary (legible_of_words fun w hw => h w (by simp [words, hw])) _ _
  | .binary _ _ _ _, h => .binary (legible_of_words fun w hw => h w (by simp [words, hw]))
      (legible_of_words fun w hw => h w (by simp [words, hw])) _ _
  | .logical _ _ _ _, h => .logical (legible_of_words fun w hw => h w (by simp [words, hw]))
      (legible_of_words fun w hw => h w (by simp [words, hw])) _ _
  | .assign _ _ _, h => .assign (h _ (by simp [words]))
      (legible_of_words fun w hw => h w (by simp [words, hw])) _
  | .call callee arguments _, h => by
    refine .call (legible_of_words fun w hw => h w (by simp [words, hw])) ?_ _
    refine legible_of_wordsOfAll fun item hitem w hw => h w ?_
    simp [words, mem_commas hitem hw]
  | .get _ _ _, h => .get (legible_of_words fun w hw => h w (by simp [words, hw])) (h _ (by simp [words])) _
  | .set _ _ _ _, h => .set (legible_of_words fun w hw => h w (by simp [words, hw])) (h _ (by simp [words]))
      (legible_of_words fun w hw => h w (by simp [words, hw])) _

theorem legible_of_wordsOfAll : ∀ {es : List Expr}, (∀ item ∈ wordsOfAll es, ∀ w ∈ item, w.Legible) →
    ∀ e ∈ es, e.Legible
  | [], _ => by simp
  | e :: es, h => List.forall_mem_cons.mpr ⟨legible_of_words (h _ (by simp [wordsOfAll])),
      legible_of_wordsOfAll fun item hitem => h item (by simp [wordsOfAll, hitem])⟩

end

mutual

private theorem Legible.tree : ∀ {e : Expr}, e.Legible → e.tree.Legible
  | .literal _ _, .literal h _ => .atom (h.atomic trivial)
  | .name _ _, .name h _ => .atom (h.atomic trivial)
  | .questo _, .questo _ => .atom (Word.Legible.atomic (w := .mark .questo) trivial rfl)
  | .super _ _, .super h _ => Form.legible_node _ (by simpa using Sexp.legible_name h)
  | .group _ _, .group h _ => Form.legible_node _ (by simpa using h.tree)
  | .unary _ _ _, .unary h _ _ => Form.legible_node _ (by simpa using h.tree)
  | .binary _ _ _ _, .binary hleft hright _ _ =>
    Form.legible_node _ (by simpa using ⟨hleft.tree, hright.tree⟩)
  | .logical _ _ _ _, .logical hleft hright _ _ =>
    Form.legible_node _ (by simpa using ⟨hleft.tree, hright.tree⟩)
  | .assign _ _ _, .assign hname h _ => Form.legible_node _ (by simpa using ⟨Sexp.legible_name hname, h.tree⟩)
  | .call _ _ _, .call hcallee harguments _ =>
    Form.legible_node _ (List.forall_mem_cons.mpr ⟨hcallee.tree, legible_treesOfAll harguments⟩)
  | .get _ _ _, .get h hname _ => Form.legible_node _ (by simpa using ⟨h.tree, Sexp.legible_name hname⟩)
  | .set _ _ _ _, .set hobject hname hvalue _ =>
    Form.legible_node _ (by simpa using ⟨hobject.tree, Sexp.legible_name hname, hvalue.tree⟩)

theorem legible_treesOfAll : ∀ {es : List Expr}, (∀ e ∈ es, e.Legible) → ∀ t ∈ treesOfAll es, t.Legible
  | [], _ => by simp [treesOfAll]
  | e :: es, h => List.forall_mem_cons.mpr ⟨(h e List.mem_cons_self).tree,
      legible_treesOfAll fun e he => h e (List.mem_cons_of_mem _ he)⟩

end

private theorem ofSexp?_tree (e : Expr) : Form.ofSexp? e.tree = e.form? := by
  cases e with
  | literal | name | questo => rfl
  | group | unary | binary | logical | assign | call | get | set | super => exact Form.ofSexp?_node rfl

private theorem form?_eq {e e' : Expr} (h : e.tree = e'.tree) : e.form? = e'.form? := by
  rw [← e.ofSexp?_tree, h, e'.ofSexp?_tree]

private theorem exists_leaf {e : Expr} (h : e.form? = none) : ∃ w, e.leaf? = some w := by
  cases e with
  | literal | name | questo => exact ⟨_, rfl⟩
  | _ => cases h

private theorem Legible.leaf {e : Expr} {w : Word} (h : e.Legible) (hw : e.leaf? = some w) :
    w.Legible ∧ w.IsLeaf ∧ e.tree = .atom w.text := by
  cases h with
  | literal h | name h =>
    obtain rfl := Option.some.inj hw
    exact ⟨h, trivial, rfl⟩
  | questo =>
    obtain rfl := Option.some.inj hw
    exact ⟨trivial, rfl, rfl⟩
  | _ => cases hw

private theorem erase_eq_of_leaf {e e' : Expr} {w : Word} (hw : e.leaf? = some w)
    (hw' : e'.leaf? = some w) :
    e.erase = e'.erase := by
  cases e <;> cases hw <;> cases e' <;> cases hw' <;> rfl

private theorem erase_eq_of_form_none {e e' : Expr} (h : e.Legible) (h' : e'.Legible)
    (htree : e.tree = e'.tree) (hform : e.form? = none) : e.erase = e'.erase := by
  obtain ⟨w, hw⟩ := exists_leaf hform
  obtain ⟨w', hw'⟩ := exists_leaf ((form?_eq htree).symm.trans hform)
  obtain ⟨hlegible, hleaf, hatom⟩ := h.leaf hw
  obtain ⟨hlegible', hleaf', hatom'⟩ := h'.leaf hw'
  have htext : w.text = w'.text := Sexp.atom.inj (hatom.symm.trans (htree.trans hatom'))
  obtain rfl := Word.text_injective hlegible hlegible' hleaf hleaf' htext
  exact erase_eq_of_leaf hw hw'

mutual

private theorem Legible.erase_eq : ∀ {e e' : Expr}, e.Legible → e'.Legible → e.tree = e'.tree →
    e.erase = e'.erase
  | .literal _ _, _, h, h', htree | .name _ _, _, h, h', htree | .questo _, _, h, h', htree =>
    erase_eq_of_form_none h h' htree rfl
  | .super _ _, _, _, h', htree => by
    have hform := form?_eq htree
    cases h' with
    | super =>
      obtain rfl := Sexp.atom.inj (List.singleton_inj.mp (Form.node_inj htree))
      rfl
    | _ => cases hform
  | .group _ _, _, .group h _, h', htree => by
    have hform := form?_eq htree
    cases h' with
    | group h' _ =>
      have hinner := List.singleton_inj.mp (Form.node_inj htree)
      simp only [erase, h.erase_eq h' hinner]
    | _ => cases hform
  | .unary _ _ _, _, .unary h _ _, h', htree => by
    have hform := form?_eq htree
    cases h' with
    | unary h' _ _ =>
      cases hform
      have hoperand := List.singleton_inj.mp (Form.node_inj htree)
      simp only [erase, h.erase_eq h' hoperand]
    | _ => cases hform
  | .binary _ _ _ _, _, .binary hleft hright _ _, h', htree => by
    have hform := form?_eq htree
    cases h' with
    | binary hleft' hright' _ _ =>
      cases hform
      obtain ⟨hlefts, hrights⟩ : _ ∧ _ := by simpa using Form.node_inj htree
      simp only [erase, hleft.erase_eq hleft' hlefts, hright.erase_eq hright' hrights]
    | _ => cases hform
  | .logical _ _ _ _, _, .logical hleft hright _ _, h', htree => by
    have hform := form?_eq htree
    cases h' with
    | logical hleft' hright' _ _ =>
      cases hform
      obtain ⟨hlefts, hrights⟩ : _ ∧ _ := by simpa using Form.node_inj htree
      simp only [erase, hleft.erase_eq hleft' hlefts, hright.erase_eq hright' hrights]
    | _ => cases hform
  | .assign _ _ _, _, .assign _ h _, h', htree => by
    have hform := form?_eq htree
    cases h' with
    | assign _ h' _ =>
      obtain ⟨rfl, hvalue⟩ : _ ∧ _ := by simpa using Form.node_inj htree
      simp only [erase, h.erase_eq h' hvalue]
    | _ => cases hform
  | .call _ arguments _, _, .call hcallee harguments _, h', htree => by
    have hform := form?_eq htree
    cases h' with
    | call hcallee' harguments' _ =>
      obtain ⟨hcallees, hall⟩ : _ ∧ _ := by simpa using Form.node_inj htree
      simp only [erase, hcallee.erase_eq hcallee' hcallees, eraseAll_eq_of_legible harguments harguments' hall]
    | _ => cases hform
  | .get _ _ _, _, .get h _ _, h', htree => by
    have hform := form?_eq htree
    cases h' with
    | get h' _ _ =>
      obtain ⟨hobject, rfl⟩ : _ ∧ _ := by simpa using Form.node_inj htree
      simp only [erase, h.erase_eq h' hobject]
    | _ => cases hform
  | .set _ _ _ _, _, .set hobject _ hvalue _, h', htree => by
    have hform := form?_eq htree
    cases h' with
    | set hobject' _ hvalue' _ =>
      obtain ⟨hobjects, rfl, hvalues⟩ : _ ∧ _ ∧ _ := by simpa using Form.node_inj htree
      simp only [erase, hobject.erase_eq hobject' hobjects, hvalue.erase_eq hvalue' hvalues]
    | _ => cases hform

theorem eraseAll_eq_of_legible : ∀ {es es' : List Expr}, (∀ e ∈ es, e.Legible) → (∀ e ∈ es', e.Legible) →
    treesOfAll es = treesOfAll es' → eraseAll es = eraseAll es'
  | [], [], _, _, _ => rfl
  | [], _ :: _, _, _, htrees => by simp [treesOfAll] at htrees
  | _ :: _, [], _, _, htrees => by simp [treesOfAll] at htrees
  | e :: es, e' :: es', h, h', htrees => by
    obtain ⟨hfirst, hrest⟩ := List.cons.inj (by simpa only [treesOfAll] using htrees)
    obtain ⟨he, hes⟩ := List.forall_mem_cons.mp h
    obtain ⟨he', hes'⟩ := List.forall_mem_cons.mp h'
    rw [eraseAll, eraseAll, he.erase_eq he' hfirst, eraseAll_eq_of_legible hes hes' hrest]

end

private theorem form?_ne (e : Expr) {f : Form} (hf : f.isStmt) : e.form? ≠ some f := by
  intro h
  cases e <;> cases h <;> cases hf

end Expr

namespace Stmt

mutual

def tree : Stmt → Sexp
  | .expr value _ => value.tree
  | .var name initial _ => Form.var.node (.atom name :: (initial.map Expr.tree).toList)
  | .block body _ => Form.block.node (treesOfAll body)
  | .cond condition thenBranch elseBranch _ =>
    Form.cond.node (condition.tree :: thenBranch.tree :: treesOfElse elseBranch)
  | .loop condition body _ => Form.loop.node [condition.tree, body.tree]
  | .function name params body _ =>
    Form.function.node (.atom name :: .list (params.map .atom) :: treesOfAll body)
  | .ret value _ => Form.ret.node (value.map Expr.tree).toList

def treesOfAll : List Stmt → List Sexp
  | [] => []
  | s :: ss => s.tree :: treesOfAll ss

def treesOfElse : Option Stmt → List Sexp
  | none => []
  | some s => [s.tree]

end

def form? : Stmt → Option Form
  | .expr value _ => value.form?
  | .var .. => some .var
  | .block .. => some .block
  | .cond .. => some .cond
  | .loop .. => some .loop
  | .function .. => some .function
  | .ret .. => some .ret

private theorem renderAll_option (value : Option Expr) :
    Sexp.renderAll (value.map Expr.tree).toList = sexpOption value := by
  cases value with
  | none => rfl
  | some e => simp [sexpOption, e.render_tree]

mutual

private theorem render_tree : ∀ s : Stmt, s.tree.render = s.sexp
  | .expr value _ => value.render_tree
  | .var name initial _ => by simp [tree, sexp, Form.head, renderAll_option]
  | .block body _ => by simp [tree, sexp, Form.head, renderAll_treesOfAll body]
  | .cond condition thenBranch elseBranch _ => by
    simp [tree, sexp, Form.head, condition.render_tree, thenBranch.render_tree,
      renderAll_treesOfElse elseBranch]
  | .loop condition body _ => by simp [tree, sexp, Form.head, condition.render_tree, body.render_tree]
  | .function name params body _ => by
    have hparams : Sexp.renderAll (params.map .atom) = params := by
      simp [Sexp.renderAll_eq, Function.comp_def]
    simp [tree, sexp, Form.head, hparams, renderAll_treesOfAll body]
  | .ret value _ => by simp [tree, sexp, Form.head, renderAll_option]

theorem renderAll_treesOfAll : ∀ ss : List Stmt, Sexp.renderAll (treesOfAll ss) = sexpStmts ss
  | [] => rfl
  | s :: ss => by rw [treesOfAll, Sexp.renderAll, sexpStmts, s.render_tree, renderAll_treesOfAll ss]

theorem renderAll_treesOfElse : ∀ s : Option Stmt, Sexp.renderAll (treesOfElse s) = sexpElse s
  | none => rfl
  | some s => by rw [treesOfElse, Sexp.renderAll, Sexp.renderAll, sexpElse, s.render_tree]

end

private theorem treesOfAll_eq (ss : List Stmt) : treesOfAll ss = ss.map tree := by
  induction ss with
  | nil => rfl
  | cons s ss ih => rw [treesOfAll, ih, List.map_cons]

inductive Legible : Stmt → Prop
  | expr {value : Expr} (h : value.Legible) (span : Span) : Legible (.expr value span)
  | var {name : String} {initial : Option Expr} (hname : (Word.name name).Legible)
    (h : ∀ e ∈ initial, e.Legible) (span : Span) : Legible (.var name initial span)
  | block {body : List Stmt} (h : ∀ s ∈ body, Legible s) (span : Span) : Legible (.block body span)
  | cond {condition : Expr} {thenBranch : Stmt} {elseBranch : Option Stmt}
    (hcondition : condition.Legible) (hthen : Legible thenBranch) (helse : ∀ s ∈ elseBranch, Legible s)
    (span : Span) : Legible (.cond condition thenBranch elseBranch span)
  | loop {condition : Expr} {body : Stmt} (hcondition : condition.Legible) (hbody : Legible body)
    (span : Span) : Legible (.loop condition body span)
  | function {name : String} {params : List String} {body : List Stmt} (hname : (Word.name name).Legible)
    (hparams : ∀ p ∈ params, (Word.name p).Legible) (hbody : ∀ s ∈ body, Legible s) (span : Span) :
    Legible (.function name params body span)
  | ret {value : Option Expr} (h : ∀ e ∈ value, e.Legible) (span : Span) : Legible (.ret value span)

mutual

theorem legible_of_words : ∀ {s : Stmt}, (∀ w ∈ s.words, w.Legible) → s.Legible
  | .expr _ _, h => .expr (Expr.legible_of_words fun w hw => h w (by simp [words, hw])) _
  | .var _ initial _, h => by
    refine .var (h _ (by simp [words])) ?_ _
    rintro e ⟨⟩
    exact Expr.legible_of_words fun w hw => h w (by simp [words, hw])
  | .block _ _, h => .block (legible_of_wordsOfAll fun w hw => h w (by simp [words, hw])) _
  | .cond _ _ elseBranch _, h =>
    .cond (Expr.legible_of_words fun w hw => h w (by simp [words, hw]))
      (legible_of_words fun w hw => h w (by simp [words, hw]))
      (legible_of_wordsOfElse fun w hw => h w (by simp [words, hw])) _
  | .loop _ _ _, h =>
    .loop (Expr.legible_of_words fun w hw => h w (by simp [words, hw]))
      (legible_of_words fun w hw => h w (by simp [words, hw])) _
  | .function _ params _ _, h => by
    refine .function (h _ (by simp [words])) (fun p hp => h _ ?_)
      (legible_of_wordsOfAll fun w hw => h w (by simp [words, hw])) _
    have hword : Word.name p ∈ commas (params.map fun p => [.name p]) :=
      mem_commas (List.mem_map_of_mem hp) (List.mem_singleton_self _)
    simp [words, hword]
  | .ret value _, h => by
    refine .ret ?_ _
    rintro e ⟨⟩
    exact Expr.legible_of_words fun w hw => h w (by simp [words, hw])

private theorem legible_of_wordsOfAll : ∀ {ss : List Stmt}, (∀ w ∈ wordsOfAll ss, w.Legible) → ∀ s ∈ ss,
    s.Legible
  | [], _ => by simp
  | s :: ss, h => List.forall_mem_cons.mpr
      ⟨legible_of_words fun w hw => h w (by simp [wordsOfAll, hw]),
        legible_of_wordsOfAll fun w hw => h w (by simp [wordsOfAll, hw])⟩

theorem legible_of_wordsOfElse : ∀ {s : Option Stmt}, (∀ w ∈ wordsOfElse s, w.Legible) →
    ∀ s' ∈ s, s'.Legible
  | none, _ => by simp
  | some s, h => by
    rintro _ ⟨⟩
    exact legible_of_words fun w hw => h w (by simp [wordsOfElse, hw])

end

private theorem legible_option {value : Option Expr} (h : ∀ e ∈ value, e.Legible) :
    ∀ t ∈ (value.map Expr.tree).toList, t.Legible := by
  cases value with
  | none => simp
  | some e => simpa using (h e rfl).tree

mutual

private theorem Legible.tree : ∀ {s : Stmt}, s.Legible → s.tree.Legible
  | .expr _ _, .expr h _ => h.tree
  | .var _ _ _, .var hname h _ =>
    Form.legible_node _ (List.forall_mem_cons.mpr ⟨Sexp.legible_name hname, legible_option h⟩)
  | .block _ _, .block h _ => Form.legible_node _ (legible_treesOfAll h)
  | .cond _ _ _ _, .cond hcondition hthen helse _ =>
    Form.legible_node _ (List.forall_mem_cons.mpr ⟨hcondition.tree,
      List.forall_mem_cons.mpr ⟨hthen.tree, legible_treesOfElse helse⟩⟩)
  | .loop _ _ _, .loop hcondition hbody _ =>
    Form.legible_node _ (by simpa using ⟨hcondition.tree, hbody.tree⟩)
  | .function _ params _ _, .function hname hparams hbody _ => by
    have hatoms : (Sexp.list (params.map .atom)).Legible := .list fun t ht => by
      obtain ⟨p, hp, rfl⟩ := List.mem_map.mp ht
      exact Sexp.legible_name (hparams p hp)
    exact Form.legible_node _ (List.forall_mem_cons.mpr ⟨Sexp.legible_name hname,
      List.forall_mem_cons.mpr ⟨hatoms, legible_treesOfAll hbody⟩⟩)
  | .ret _ _, .ret h _ => Form.legible_node _ (legible_option h)

theorem legible_treesOfAll : ∀ {ss : List Stmt}, (∀ s ∈ ss, s.Legible) → ∀ t ∈ treesOfAll ss, t.Legible
  | [], _ => by simp [treesOfAll]
  | s :: ss, h => List.forall_mem_cons.mpr ⟨(h s List.mem_cons_self).tree,
      legible_treesOfAll fun s hs => h s (List.mem_cons_of_mem _ hs)⟩

theorem legible_treesOfElse : ∀ {s : Option Stmt}, (∀ s' ∈ s, s'.Legible) → ∀ t ∈ treesOfElse s, t.Legible
  | none, _ => by simp [treesOfElse]
  | some s, h => by simpa [treesOfElse] using (h s rfl).tree

end

private theorem ofSexp?_tree (s : Stmt) : Form.ofSexp? s.tree = s.form? := by
  cases s with
  | expr value => exact value.ofSexp?_tree
  | var | block | cond | loop | function | ret => exact Form.ofSexp?_node rfl

private theorem form?_eq {s s' : Stmt} (h : s.tree = s'.tree) : s.form? = s'.form? := by
  rw [← s.ofSexp?_tree, h, s'.ofSexp?_tree]

private theorem erase_option {value value' : Option Expr} (h : ∀ e ∈ value, e.Legible)
    (h' : ∀ e ∈ value', e.Legible)
    (htrees : (value.map Expr.tree).toList = (value'.map Expr.tree).toList) :
    value.map Expr.erase = value'.map Expr.erase := by
  match value, value' with
  | none, none => rfl
  | none, some _ | some _, none => simp at htrees
  | some e, some e' =>
    have htree : e.tree = e'.tree := by simpa using htrees
    rw [Option.map_some, Option.map_some, (h e rfl).erase_eq (h' e' rfl) htree]

mutual

/-- Statements with the same tree are the same up to spans. -/
theorem Legible.erase_eq : ∀ {s s' : Stmt}, s.Legible → s'.Legible → s.tree = s'.tree →
    s.erase = s'.erase
  | .expr value _, _, .expr h _, h', htree => by
    have hform := form?_eq htree
    cases h' with
    | expr h' _ => simp only [erase, h.erase_eq h' htree]
    | _ => exact absurd hform (value.form?_ne rfl)
  | .var _ _ _, _, .var _ h _, h', htree => by
    have hform := form?_eq htree
    cases h' with
    | expr => exact absurd hform.symm (Expr.form?_ne _ rfl)
    | var _ h' _ =>
      obtain ⟨rfl, hinitial⟩ : _ ∧ _ := by simpa using Form.node_inj htree
      simp only [erase, erase_option h h' hinitial]
    | _ => cases hform
  | .block _ _, _, .block h _, h', htree => by
    have hform := form?_eq htree
    cases h' with
    | expr => exact absurd hform.symm (Expr.form?_ne _ rfl)
    | block h' _ => simp only [erase, eraseAll_eq_of_legible h h' (Form.node_inj htree)]
    | _ => cases hform
  | .cond _ _ _ _, _, .cond hcondition hthen helse _, h', htree => by
    have hform := form?_eq htree
    cases h' with
    | expr => exact absurd hform.symm (Expr.form?_ne _ rfl)
    | cond hcondition' hthen' helse' _ =>
      obtain ⟨hconditions, hthens, helses⟩ : _ ∧ _ ∧ _ := by simpa using Form.node_inj htree
      simp only [erase, hcondition.erase_eq hcondition' hconditions, hthen.erase_eq hthen' hthens,
        eraseElse_eq_of_legible helse helse' helses]
    | _ => cases hform
  | .loop _ _ _, _, .loop hcondition hbody _, h', htree => by
    have hform := form?_eq htree
    cases h' with
    | expr => exact absurd hform.symm (Expr.form?_ne _ rfl)
    | loop hcondition' hbody' _ =>
      obtain ⟨hconditions, hbodies⟩ : _ ∧ _ := by simpa using Form.node_inj htree
      simp only [erase, hcondition.erase_eq hcondition' hconditions, hbody.erase_eq hbody' hbodies]
    | _ => cases hform
  | .function _ _ _ _, _, .function _ _ hbody _, h', htree => by
    have hform := form?_eq htree
    cases h' with
    | expr => exact absurd hform.symm (Expr.form?_ne _ rfl)
    | function _ _ hbody' _ =>
      obtain ⟨rfl, hparams, hbodies⟩ : _ ∧ _ ∧ _ := by simpa using Form.node_inj htree
      obtain rfl := List.map_injective_iff.mpr (fun _ _ => Sexp.atom.inj) hparams
      simp only [erase, eraseAll_eq_of_legible hbody hbody' hbodies]
    | _ => cases hform
  | .ret _ _, _, .ret h _, h', htree => by
    have hform := form?_eq htree
    cases h' with
    | expr => exact absurd hform.symm (Expr.form?_ne _ rfl)
    | ret h' _ => simp only [erase, erase_option h h' (Form.node_inj htree)]
    | _ => cases hform

private theorem eraseAll_eq_of_legible : ∀ {ss ss' : List Stmt}, (∀ s ∈ ss, s.Legible) →
    (∀ s ∈ ss', s.Legible) →
    treesOfAll ss = treesOfAll ss' → eraseAll ss = eraseAll ss'
  | [], [], _, _, _ => rfl
  | [], _ :: _, _, _, htrees => by simp [treesOfAll] at htrees
  | _ :: _, [], _, _, htrees => by simp [treesOfAll] at htrees
  | s :: ss, s' :: ss', h, h', htrees => by
    obtain ⟨hfirst, hrest⟩ := List.cons.inj (by simpa only [treesOfAll] using htrees)
    obtain ⟨hs, hss⟩ := List.forall_mem_cons.mp h
    obtain ⟨hs', hss'⟩ := List.forall_mem_cons.mp h'
    rw [eraseAll, eraseAll, hs.erase_eq hs' hfirst, eraseAll_eq_of_legible hss hss' hrest]

theorem eraseElse_eq_of_legible : ∀ {s s' : Option Stmt}, (∀ t ∈ s, t.Legible) → (∀ t ∈ s', t.Legible) →
    treesOfElse s = treesOfElse s' → eraseElse s = eraseElse s'
  | none, none, _, _, _ => rfl
  | none, some _, _, _, htrees => by simp [treesOfElse] at htrees
  | some _, none, _, _, htrees => by simp [treesOfElse] at htrees
  | some s, some s', h, h', htrees => by
    rw [eraseElse, eraseElse, (h s rfl).erase_eq (h' s' rfl) (List.singleton_inj.mp htrees)]

end

end Stmt

namespace Token

def FloatsFinite (text : String) : Prop :=
  ∀ tokens, scan text = .ok tokens → ∀ t ∈ tokens, ∀ x, t.literal = some (.float x) →
    (Binary.ofFloat x).IsFinite

private theorem quote_notMem {body text : List Char} (h : Lexical text (.token .string))
    (htext : text = '"' :: body ++ ['"']) : '"' ∉ body := by
  cases h with
  | symbol hkind => exact absurd hkind (by decide)
  | keyword hkind => exact absurd hkind (by decide)
  | @string body' hquote _ =>
    have hbody : body' = body := by simpa using htext
    exact hbody ▸ hquote

/-- What a lexeme of the grammar says is legible. -/
theorem Legible.word {t : Token} (h : t.Legible)
    (hfinite : ∀ x, t.literal = some (.float x) → (Binary.ofFloat x).IsFinite) : t.word.Legible := by
  obtain ⟨kind, lexeme, literal, span⟩ := t
  obtain ⟨hlexical, hdenotes⟩ : Lexical lexeme.toList (.token kind) ∧ Denotes kind lexeme.toList literal := h
  generalize htext : lexeme.toList = text at hlexical hdenotes
  cases hdenotes with
  | integer => trivial
  | float => exact hfinite _ rfl
  | @string body =>
    change '"' ∉ (String.ofList body).toList
    rw [String.toList_ofList]
    exact quote_notMem hlexical rfl
  | identifier =>
    subst htext
    exact hlexical
  | nothing => cases kind <;> trivial

end Token

namespace Program

private theorem toList_toSexp (program : List Stmt) :
    (toSexp program).toList = (program.map Stmt.tree).flatMap fun t => t.render.toList ++ ['\n'] := by
  simp [toSexp, String.toList_join, List.flatMap_map, Stmt.render_tree]

private theorem Reads.legible {text : String} {program : List Stmt} (h : Reads text program)
    (hfinite : Token.FloatsFinite text) : ∀ s ∈ program, s.Legible := by
  obtain ⟨ts, e, hscan, -, hts, -, hspelled, -⟩ := h.spelled
  refine Stmt.legible_of_wordsOfAll fun w hw => ?_
  rw [← hspelled.words] at hw
  obtain ⟨t, ht, rfl⟩ := List.mem_map.mp hw
  have hmem : t ∈ ts ++ [e] := List.mem_append_left _ ht
  exact ((Token.scan_ok_iff.mp hscan).legible hmem (hts t ht)).word (hfinite _ hscan t hmem)

/-- Texts whose programs have the same S-expressions have the same program, up to spans. -/
theorem eq_of_toSexp {text text' : String} {program program' : List Stmt} (h : Reads text program)
    (h' : Reads text' program') (hfinite : Token.FloatsFinite text) (hfinite' : Token.FloatsFinite text')
    (hsexp : toSexp program = toSexp program') : program.map Stmt.erase = program'.map Stmt.erase := by
  have hlegible := h.legible hfinite
  have hlegible' := h'.legible hfinite'
  have htrees : program.map Stmt.tree = program'.map Stmt.tree := by
    refine Sexp.lines_unique ?_ ?_ ?_
    · exact List.forall_mem_map.mpr fun s hs => (hlegible s hs).tree
    · exact List.forall_mem_map.mpr fun s hs => (hlegible' s hs).tree
    · rw [← toList_toSexp, hsexp, toList_toSexp]
  rw [← Stmt.eraseAll_eq, ← Stmt.eraseAll_eq]
  refine Stmt.eraseAll_eq_of_legible hlegible hlegible' ?_
  rw [Stmt.treesOfAll_eq, htrees, Stmt.treesOfAll_eq]

/-- What a text reads as, evaluated. -/
private theorem reads_of_eq (text sexp : String)
    (h : ((Token.scan text).toOption.bind fun tokens => (parse tokens).toOption.map fun program =>
      (toSexp program, tokens.all fun t =>
        match t.literal with
        | some (.float x) => (Binary.ofFloat x).IsFinite
        | _ => true)) = some (sexp, true)) :
    ∃ program, Reads text program ∧ Token.FloatsFinite text ∧ toSexp program = sexp := by
  cases hscan : Token.scan text with
  | error e => simp [hscan, Except.toOption] at h
  | ok tokens =>
    cases hparse : parse tokens with
    | error e => simp [hscan, hparse, Except.toOption] at h
    | ok program =>
      simp only [hscan, hparse, Except.toOption, Option.bind_some, Option.map_some, Option.some.injEq,
        Prod.mk.injEq] at h
      refine ⟨program, ⟨tokens, hscan, hparse⟩, ?_, h.1⟩
      intro tokens' hscan' t ht x hx
      obtain rfl := Except.ok.inj (hscan.symm.trans hscan')
      simpa [hx] using List.all_eq_true.mp h.2 t ht

/-- A text and the same with other spaces and a comment. -/
theorem eq_of_toSexp_spaced :
    ∃ program program', Reads "group=call-1.5;" program ∧ Reads "group = -- (\n call - 1.50;" program' ∧
      toSexp program = "(= group (- call 1.5))\n" ∧ program.map Stmt.erase = program'.map Stmt.erase := by
  obtain ⟨program, h, hfinite, hsexp⟩ := reads_of_eq "group=call-1.5;" "(= group (- call 1.5))\n"
    (by decide +kernel)
  obtain ⟨program', h', hfinite', hsexp'⟩ := reads_of_eq "group = -- (\n call - 1.50;"
    "(= group (- call 1.5))\n" (by decide +kernel)
  exact ⟨program, program', h, h', hsexp, eq_of_toSexp h h' hfinite hfinite' (hsexp.trans hsexp'.symm)⟩

end Program
end Copione
