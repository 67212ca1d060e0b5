import Mathlib.Data.List.Forall2
import Copione.Program.Basic
/-!
# Programs that are alike

Two programs are alike if they say the same, with spans that are related in a given way. What they
declare can be kept to certain names, and where they return from a function to its inside.
-/
namespace Copione

/-- The expressions are the same but for their spans, which `R` relates. -/
inductive Expr.Alike (R : Span → Span → Prop) : Expr → Expr → Prop
  | literal (value : Constant) {s s' : Span} (hs : R s s') :
    Alike R (.literal value s) (.literal value s')
  | name (n : String) {s s' : Span} (hs : R s s') : Alike R (.name n s) (.name n s')
  | group {inner inner' : Expr} {s s' : Span} (h : Alike R inner inner') (hs : R s s') :
    Alike R (.group inner s) (.group inner' s')
  | unary (op : UnaryOp) {operand operand' : Expr} {s s' : Span} (h : Alike R operand operand')
    (hs : R s s') : Alike R (.unary op operand s) (.unary op operand' s')
  | binary (op : BinaryOp) {left left' right right' : Expr} {s s' : Span}
    (hleft : Alike R left left') (hright : Alike R right right') (hs : R s s') :
    Alike R (.binary op left right s) (.binary op left' right' s')
  | logical (op : LogicalOp) {left left' right right' : Expr} {s s' : Span}
    (hleft : Alike R left left') (hright : Alike R right right') (hs : R s s') :
    Alike R (.logical op left right s) (.logical op left' right' s')
  | assign (n : String) {value value' : Expr} {s s' : Span} (h : Alike R value value')
    (hs : R s s') : Alike R (.assign n value s) (.assign n value' s')
  | call {callee callee' : Expr} {arguments arguments' : List Expr} {s s' : Span}
    (hcallee : Alike R callee callee') (harguments : List.Forall₂ (Alike R) arguments arguments')
    (hs : R s s') : Alike R (.call callee arguments s) (.call callee' arguments' s')
  | get (n : String) {object object' : Expr} {s s' : Span} (h : Alike R object object')
    (hs : R s s') : Alike R (.get object n s) (.get object' n s')
  | set (n : String) {object object' value value' : Expr} {s s' : Span}
    (hobject : Alike R object object') (hvalue : Alike R value value') (hs : R s s') :
    Alike R (.set object n value s) (.set object' n value' s')
  | questo {s s' : Span} (hs : R s s') : Alike R (.questo s) (.questo s')
  | super (method : String) {s s' : Span} (hs : R s s') :
    Alike R (.super method s) (.super method s')

mutual

/-- The statements are the same but for their spans, declare only names that are `ok`, and return
only inside of functions, or anywhere if `inside` holds. -/
inductive Stmt.Alike (R : Span → Span → Prop) (ok : String → Prop) : Bool → Stmt → Stmt → Prop
  | expr {inside : Bool} {value value' : Expr} {s s' : Span} (h : value.Alike R value')
    (hs : R s s') : Stmt.Alike R ok inside (.expr value s) (.expr value' s')
  | var {inside : Bool} {name : String} {initial initial' : Option Expr} {s s' : Span}
    (hname : ok name) (h : Option.Rel (Expr.Alike R) initial initial') (hs : R s s') :
    Stmt.Alike R ok inside (.var name initial s) (.var name initial' s')
  | block {inside : Bool} {body body' : List Stmt} {s s' : Span}
    (h : Stmt.AllAlike R ok inside body body') (hs : R s s') :
    Stmt.Alike R ok inside (.block body s) (.block body' s')
  | onlyThen {inside : Bool} {condition condition' : Expr} {thenBranch thenBranch' : Stmt}
    {s s' : Span} (hcondition : condition.Alike R condition')
    (hthen : Stmt.Alike R ok inside thenBranch thenBranch') (hs : R s s') :
    Stmt.Alike R ok inside (.cond condition thenBranch none s)
      (.cond condition' thenBranch' none s')
  | thenElse {inside : Bool} {condition condition' : Expr}
    {thenBranch thenBranch' elseBranch elseBranch' : Stmt} {s s' : Span}
    (hcondition : condition.Alike R condition')
    (hthen : Stmt.Alike R ok inside thenBranch thenBranch')
    (helse : Stmt.Alike R ok inside elseBranch elseBranch') (hs : R s s') :
    Stmt.Alike R ok inside (.cond condition thenBranch (some elseBranch) s)
      (.cond condition' thenBranch' (some elseBranch') s')
  | loop {inside : Bool} {condition condition' : Expr} {body body' : Stmt} {s s' : Span}
    (hcondition : condition.Alike R condition') (hbody : Stmt.Alike R ok inside body body')
    (hs : R s s') : Stmt.Alike R ok inside (.loop condition body s) (.loop condition' body' s')
  | function {inside : Bool} {name : String} {params : List String} {body body' : List Stmt}
    {s s' : Span} (hname : ok name) (hparams : ∀ p ∈ params, ok p)
    (h : Stmt.AllAlike R ok true body body') (hs : R s s') :
    Stmt.Alike R ok inside (.function name params body s) (.function name params body' s')
  | ret {value value' : Option Expr} {s s' : Span}
    (h : Option.Rel (Expr.Alike R) value value') (hs : R s s') :
    Stmt.Alike R ok true (.ret value s) (.ret value' s')

inductive Stmt.AllAlike (R : Span → Span → Prop) (ok : String → Prop) :
    Bool → List Stmt → List Stmt → Prop
  | nil {inside : Bool} : Stmt.AllAlike R ok inside [] []
  | cons {inside : Bool} {s s' : Stmt} {ss ss' : List Stmt} (h : Stmt.Alike R ok inside s s')
    (hs : Stmt.AllAlike R ok inside ss ss') : Stmt.AllAlike R ok inside (s :: ss) (s' :: ss')

end

variable {R : Span → Span → Prop} {ok : String → Prop}

theorem Expr.Alike.span {e e' : Expr} (h : e.Alike R e') : R e.span e'.span := by
  cases h <;> assumption

mutual

def Expr.spans : Expr → List Span
  | .literal _ s | .name _ s | .questo s | .super _ s => [s]
  | .group inner s => s :: inner.spans
  | .unary _ operand s => s :: operand.spans
  | .binary _ left right s => s :: (left.spans ++ right.spans)
  | .logical _ left right s => s :: (left.spans ++ right.spans)
  | .assign _ value s => s :: value.spans
  | .call callee arguments s => s :: (callee.spans ++ Expr.spansAll arguments)
  | .get object _ s => s :: object.spans
  | .set object _ value s => s :: (object.spans ++ value.spans)

def Expr.spansAll : List Expr → List Span
  | [] => []
  | e :: es => e.spans ++ Expr.spansAll es

end

def Expr.spansOption : Option Expr → List Span
  | none => []
  | some e => e.spans

mutual

def Stmt.spans : Stmt → List Span
  | .expr value s => s :: value.spans
  | .var _ initial s => s :: Expr.spansOption initial
  | .block body s => s :: Stmt.spansAll body
  | .cond condition thenBranch elseBranch s =>
    s :: (condition.spans ++ (thenBranch.spans ++ Stmt.spansElse elseBranch))
  | .loop condition body s => s :: (condition.spans ++ body.spans)
  | .function _ _ body s => s :: Stmt.spansAll body
  | .ret value s => s :: Expr.spansOption value

def Stmt.spansAll : List Stmt → List Span
  | [] => []
  | s :: ss => s.spans ++ Stmt.spansAll ss

def Stmt.spansElse : Option Stmt → List Span
  | none => []
  | some s => s.spans

end

mutual

private theorem Expr.alike_of_spans : ∀ e : Expr, (∀ s ∈ e.spans, R s s) → e.Alike R e
  | .literal value _, h => .literal value (h _ (by simp [spans]))
  | .name n _, h => .name n (h _ (by simp [spans]))
  | .group inner _, h =>
    .group (inner.alike_of_spans fun s hs => h s (by simp [spans, hs])) (h _ (by simp [spans]))
  | .unary op operand _, h =>
    .unary op (operand.alike_of_spans fun s hs => h s (by simp [spans, hs])) (h _ (by simp [spans]))
  | .binary op left right _, h =>
    .binary op (left.alike_of_spans fun s hs => h s (by simp [spans, hs]))
      (right.alike_of_spans fun s hs => h s (by simp [spans, hs])) (h _ (by simp [spans]))
  | .logical op left right _, h =>
    .logical op (left.alike_of_spans fun s hs => h s (by simp [spans, hs]))
      (right.alike_of_spans fun s hs => h s (by simp [spans, hs])) (h _ (by simp [spans]))
  | .assign n value _, h =>
    .assign n (value.alike_of_spans fun s hs => h s (by simp [spans, hs])) (h _ (by simp [spans]))
  | .call callee arguments _, h =>
    .call (callee.alike_of_spans fun s hs => h s (by simp [spans, hs]))
      (Expr.all_alike_of_spans arguments fun s hs => h s (by simp [spans, hs]))
      (h _ (by simp [spans]))
  | .get object n _, h =>
    .get n (object.alike_of_spans fun s hs => h s (by simp [spans, hs])) (h _ (by simp [spans]))
  | .set object n value _, h =>
    .set n (object.alike_of_spans fun s hs => h s (by simp [spans, hs]))
      (value.alike_of_spans fun s hs => h s (by simp [spans, hs])) (h _ (by simp [spans]))
  | .questo _, h => .questo (h _ (by simp [spans]))
  | .super method _, h => .super method (h _ (by simp [spans]))

theorem Expr.all_alike_of_spans : ∀ es : List Expr, (∀ s ∈ Expr.spansAll es, R s s) →
    List.Forall₂ (Expr.Alike R) es es
  | [], _ => .nil
  | e :: es, h =>
    .cons (e.alike_of_spans fun s hs => h s (by simp [Expr.spansAll, hs]))
      (Expr.all_alike_of_spans es fun s hs => h s (by simp [Expr.spansAll, hs]))

end

private theorem Expr.option_alike_of_spans (e : Option Expr) (h : ∀ s ∈ Expr.spansOption e, R s s) :
    Option.Rel (Expr.Alike R) e e := by
  cases e with
  | none => exact .none
  | some e => exact .some (e.alike_of_spans h)

mutual

private theorem Stmt.alike_of_spans (hok : ∀ n, ok n) : ∀ s : Stmt, (∀ span ∈ s.spans, R span span) →
    Stmt.Alike R ok true s s
  | .expr value _, h =>
    .expr (value.alike_of_spans fun s hs => h s (by simp [spans, hs])) (h _ (by simp [spans]))
  | .var name initial _, h =>
    .var (hok name) (Expr.option_alike_of_spans initial fun s hs => h s (by simp [spans, hs]))
      (h _ (by simp [spans]))
  | .block body _, h =>
    .block (Stmt.all_alike_of_spans hok body fun s hs => h s (by simp [spans, hs]))
      (h _ (by simp [spans]))
  | .cond condition thenBranch none _, h =>
    .onlyThen (condition.alike_of_spans fun s hs => h s (by simp [spans, hs]))
      (thenBranch.alike_of_spans hok fun s hs => h s (by simp [spans, hs])) (h _ (by simp [spans]))
  | .cond condition thenBranch (some elseBranch) _, h =>
    .thenElse (condition.alike_of_spans fun s hs => h s (by simp [spans, hs]))
      (thenBranch.alike_of_spans hok fun s hs => h s (by simp [spans, hs]))
      (elseBranch.alike_of_spans hok fun s hs => h s (by simp [spans, spansElse, hs]))
      (h _ (by simp [spans]))
  | .loop condition body _, h =>
    .loop (condition.alike_of_spans fun s hs => h s (by simp [spans, hs]))
      (body.alike_of_spans hok fun s hs => h s (by simp [spans, hs])) (h _ (by simp [spans]))
  | .function name _ body _, h =>
    .function (hok name) (fun p _ => hok p)
      (Stmt.all_alike_of_spans hok body fun s hs => h s (by simp [spans, hs])) (h _ (by simp [spans]))
  | .ret value _, h =>
    .ret (Expr.option_alike_of_spans value fun s hs => h s (by simp [spans, hs]))
      (h _ (by simp [spans]))

theorem Stmt.all_alike_of_spans (hok : ∀ n, ok n) : ∀ ss : List Stmt,
    (∀ span ∈ Stmt.spansAll ss, R span span) → Stmt.AllAlike R ok true ss ss
  | [], _ => .nil
  | s :: ss, h =>
    .cons (s.alike_of_spans hok fun span hs => h span (by simp [Stmt.spansAll, hs]))
      (Stmt.all_alike_of_spans hok ss fun span hs => h span (by simp [Stmt.spansAll, hs]))

end

theorem Expr.alike_self (hR : ∀ s, R s s) (e : Expr) : e.Alike R e :=
  e.alike_of_spans fun s _ => hR s

theorem Stmt.alike_self (hR : ∀ s, R s s) (hok : ∀ n, ok n) (s : Stmt) : Stmt.Alike R ok true s s :=
  s.alike_of_spans hok fun span _ => hR span

theorem Stmt.all_alike_self (hR : ∀ s, R s s) (hok : ∀ n, ok n) (ss : List Stmt) :
    Stmt.AllAlike R ok true ss ss := Stmt.all_alike_of_spans hok ss fun span _ => hR span

mutual

private theorem Expr.eq_of_alike (hR : ∀ s s', R s s' → s = s') : ∀ {e e' : Expr}, e.Alike R e' → e = e'
  | .literal _ _, _, .literal _ hs => by rw [hR _ _ hs]
  | .name _ _, _, .name _ hs => by rw [hR _ _ hs]
  | .group _ _, _, .group h hs => by rw [hR _ _ hs, eq_of_alike hR h]
  | .unary _ _ _, _, .unary _ h hs => by rw [hR _ _ hs, eq_of_alike hR h]
  | .binary _ _ _ _, _, .binary _ hleft hright hs => by
    rw [hR _ _ hs, eq_of_alike hR hleft, eq_of_alike hR hright]
  | .logical _ _ _ _, _, .logical _ hleft hright hs => by
    rw [hR _ _ hs, eq_of_alike hR hleft, eq_of_alike hR hright]
  | .assign _ _ _, _, .assign _ h hs => by rw [hR _ _ hs, eq_of_alike hR h]
  | .call _ _ _, _, .call hcallee harguments hs => by
    rw [hR _ _ hs, eq_of_alike hR hcallee, all_eq_of_alike hR harguments]
  | .get _ _ _, _, .get _ h hs => by rw [hR _ _ hs, eq_of_alike hR h]
  | .set _ _ _ _, _, .set _ hobject hvalue hs => by
    rw [hR _ _ hs, eq_of_alike hR hobject, eq_of_alike hR hvalue]
  | .questo _, _, .questo hs => by rw [hR _ _ hs]
  | .super _ _, _, .super _ hs => by rw [hR _ _ hs]

theorem Expr.all_eq_of_alike (hR : ∀ s s', R s s' → s = s') :
    ∀ {es es' : List Expr}, List.Forall₂ (Expr.Alike R) es es' → es = es'
  | [], _, .nil => rfl
  | _ :: _, _, .cons h hs => by rw [eq_of_alike hR h, all_eq_of_alike hR hs]

end

private theorem Expr.option_eq_of_alike (hR : ∀ s s', R s s' → s = s') {e e' : Option Expr}
    (h : Option.Rel (Expr.Alike R) e e') : e = e' := by
  cases h with
  | none => rfl
  | some h => rw [Expr.eq_of_alike hR h]

mutual

theorem Stmt.eq_of_alike (hR : ∀ s s', R s s' → s = s') :
    ∀ {inside : Bool} {s s' : Stmt}, Stmt.Alike R ok inside s s' → s = s'
  | _, _, _, .expr h hs => by rw [hR _ _ hs, Expr.eq_of_alike hR h]
  | _, _, _, .var _ h hs => by rw [hR _ _ hs, Expr.option_eq_of_alike hR h]
  | _, _, _, .block h hs => by rw [hR _ _ hs, all_eq_of_alike hR h]
  | _, _, _, .onlyThen hcondition hthen hs => by
    rw [hR _ _ hs, Expr.eq_of_alike hR hcondition, eq_of_alike hR hthen]
  | _, _, _, .thenElse hcondition hthen helse hs => by
    rw [hR _ _ hs, Expr.eq_of_alike hR hcondition, eq_of_alike hR hthen, eq_of_alike hR helse]
  | _, _, _, .loop hcondition hbody hs => by
    rw [hR _ _ hs, Expr.eq_of_alike hR hcondition, eq_of_alike hR hbody]
  | _, _, _, .function _ _ h hs => by rw [hR _ _ hs, all_eq_of_alike hR h]
  | _, _, _, .ret h hs => by rw [hR _ _ hs, Expr.option_eq_of_alike hR h]

theorem Stmt.all_eq_of_alike (hR : ∀ s s', R s s' → s = s') :
    ∀ {inside : Bool} {ss ss' : List Stmt}, Stmt.AllAlike R ok inside ss ss' → ss = ss'
  | _, _, _, .nil => rfl
  | _, _, _, .cons h hs => by rw [eq_of_alike hR h, all_eq_of_alike hR hs]

end

end Copione
