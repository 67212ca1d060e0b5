import Copione.Program.Parse
/-!
# The grammar of programs

Programs as sequences of words, and the trees that such sequences stand for. A word is what a
token says, without where it stands.
-/
namespace Copione

inductive Word where
  | mark (kind : TokenKind)
  | name (name : String)
  | constant (value : Constant)
  deriving DecidableEq

def Constant.kind : Constant → TokenKind
  | .null => .niente
  | .bool true => .vero
  | .bool false => .falso
  | .int _ => .integer
  | .float _ => .float
  | .str _ => .string

def Word.kind : Word → TokenKind
  | .mark kind => kind
  | .name _ => .identifier
  | .constant value => value.kind

def Token.word (t : Token) : Word :=
  match t.kind, t.literal with
  | .identifier, _ => .name t.lexeme
  | .vero, _ => .constant (.bool true)
  | .falso, _ => .constant (.bool false)
  | .niente, _ => .constant .null
  | .integer, some (.int n) => .constant (.int n)
  | .float, some (.float x) => .constant (.float x)
  | .string, some (.str s) => .constant (.str s)
  | kind, _ => .mark kind

@[simp] theorem Token.word_kind (t : Token) : t.word.kind = t.kind := by
  obtain ⟨kind, lexeme, literal, span⟩ := t
  cases kind <;> rcases literal with _ | ⟨_ | _ | _⟩ <;> rfl

/-- Kinds of tokens that say nothing but their kind. -/
def TokenKind.isMark : TokenKind → Bool
  | .identifier | .string | .integer | .float | .vero | .falso | .niente | .eof => false
  | _ => true

theorem Token.word_of_mark {t : Token} {kind : TokenKind} (hkind : t.kind = kind) (hmark : kind.isMark) :
    t.word = .mark kind := by
  obtain ⟨kind', lexeme, literal, span⟩ := t
  obtain rfl : kind' = kind := hkind
  cases kind' <;> first | rfl | cases hmark

theorem Token.word_of_identifier {t : Token} (h : t.kind = .identifier) : t.word = .name t.lexeme := by
  obtain ⟨kind, lexeme, literal, span⟩ := t
  obtain rfl : kind = .identifier := h
  rfl

namespace TokenKind

def beginsExpr : TokenKind → Bool
  | .leftParen | .minus | .bang | .identifier | .string | .integer | .float | .vero | .falso | .niente
  | .questo | .super => true
  | _ => false

def beginsStmt : TokenKind → Bool
  | .leftBrace | .se | .mentre | .variabile | .funzione | .ritorna => true
  | kind => kind.beginsExpr

theorem ne_of_beginsExpr {kind kind' : TokenKind} (h : kind.beginsExpr)
    (h' : kind'.beginsExpr = false) : kind ≠ kind' := by
  rintro rfl
  rw [h] at h'
  cases h'

theorem ne_of_beginsStmt {kind kind' : TokenKind} (h : kind.beginsStmt)
    (h' : kind'.beginsStmt = false) : kind ≠ kind' := by
  rintro rfl
  rw [h] at h'
  cases h'

private theorem beginsStmt_of_beginsExpr {kind : TokenKind} (h : kind.beginsExpr) :
    kind.beginsStmt := by
  cases kind <;> first | rfl | cases h

end TokenKind

theorem Constant.kind_beginsExpr (value : Constant) : value.kind.beginsExpr := by
  rcases value with _ | ⟨_ | _⟩ | _ | _ | _ <;> rfl

def commas : List (List Word) → List Word
  | [] => []
  | [item] => item
  | item :: items => item ++ .mark .comma :: commas items

theorem commas_cons (item : List Word) {items : List (List Word)} (h : items ≠ []) :
    commas (item :: items) = item ++ .mark .comma :: commas items := by
  cases items with
  | nil => exact absurd rfl h
  | cons second items => rfl

theorem commas_of_items {P : List Word → Prop} (hnil : P [])
    (hcomma : ∀ ws ws', P ws → P ws' → P (ws ++ .mark .comma :: ws')) {items : List (List Word)}
    (h : ∀ item ∈ items, P item) : P (commas items) := by
  induction items with
  | nil => exact hnil
  | cons item items ih =>
    have hitem := h item List.mem_cons_self
    have hrest := ih fun item hitem => h item (List.mem_cons_of_mem _ hitem)
    by_cases hitems : items = []
    · rw [hitems]
      exact hitem
    · rw [commas_cons item hitems]
      exact hcomma item _ hitem hrest

theorem exists_commas_eq_cons (w : Word) (ws : List Word) (items : List (List Word)) :
    ∃ tail, commas ((w :: ws) :: items) = w :: tail := by
  cases items with
  | nil => exact ⟨ws, rfl⟩
  | cons item items => exact ⟨_, rfl⟩

namespace Expr

mutual

def words : Expr → List Word
  | .literal value _ => [.constant value]
  | .name n _ => [.name n]
  | .group inner _ => .mark .leftParen :: inner.words ++ [.mark .rightParen]
  | .unary op operand _ => .mark op.kind :: operand.words
  | .binary op left right _ => left.words ++ .mark op.kind :: right.words
  | .logical op left right _ => left.words ++ .mark op.kind :: right.words
  | .assign n value _ => .name n :: .mark .equal :: value.words
  | .call callee arguments _ =>
    callee.words ++ .mark .leftParen :: commas (wordsOfAll arguments) ++ [.mark .rightParen]
  | .get object n _ => object.words ++ [.mark .dot, .name n]
  | .set object n value _ => object.words ++ .mark .dot :: .name n :: .mark .equal :: value.words
  | .questo _ => [.mark .questo]
  | .super method _ => [.mark .super, .mark .dot, .name method]

def wordsOfAll : List Expr → List (List Word)
  | [] => []
  | e :: es => e.words :: wordsOfAll es

end

theorem wordsOfAll_eq (es : List Expr) : wordsOfAll es = es.map words := by
  induction es with
  | nil => rfl
  | cons e es ih => rw [wordsOfAll, ih, List.map_cons]

theorem words_eq_cons : ∀ e : Expr, ∃ w ws, e.words = w :: ws ∧ w.kind.beginsExpr
  | .literal value _ => ⟨.constant value, [], by rw [words], value.kind_beginsExpr⟩
  | .name n _ => ⟨.name n, [], by rw [words], rfl⟩
  | .group inner _ => ⟨.mark .leftParen, inner.words ++ [.mark .rightParen], by rw [words]; rfl, rfl⟩
  | .unary op operand _ => ⟨.mark op.kind, operand.words, by rw [words], by cases op <;> rfl⟩
  | .binary op left right _ => by
    obtain ⟨w, ws, h, hw⟩ := words_eq_cons left
    exact ⟨w, ws ++ .mark op.kind :: right.words, by rw [words, h]; rfl, hw⟩
  | .logical op left right _ => by
    obtain ⟨w, ws, h, hw⟩ := words_eq_cons left
    exact ⟨w, ws ++ .mark op.kind :: right.words, by rw [words, h]; rfl, hw⟩
  | .assign n value _ => ⟨.name n, .mark .equal :: value.words, by rw [words], rfl⟩
  | .call callee arguments _ => by
    obtain ⟨w, ws, h, hw⟩ := words_eq_cons callee
    exact ⟨w, ws ++ .mark .leftParen :: commas (wordsOfAll arguments) ++ [.mark .rightParen],
      by rw [words, h]; rfl, hw⟩
  | .get object n _ => by
    obtain ⟨w, ws, h, hw⟩ := words_eq_cons object
    exact ⟨w, ws ++ [.mark .dot, .name n], by rw [words, h]; rfl, hw⟩
  | .set object n value _ => by
    obtain ⟨w, ws, h, hw⟩ := words_eq_cons object
    exact ⟨w, ws ++ .mark .dot :: .name n :: .mark .equal :: value.words, by rw [words, h]; rfl, hw⟩
  | .questo _ => ⟨.mark .questo, [], by rw [words], rfl⟩
  | .super method _ => ⟨.mark .super, [.mark .dot, .name method], by rw [words], rfl⟩

end Expr

namespace Stmt

mutual

def words : Stmt → List Word
  | .expr value _ => value.words ++ [.mark .semicolon]
  | .var name initial _ =>
    .mark .variabile :: .name name ::
      (initial.elim [] fun e => .mark .equal :: e.words) ++ [.mark .semicolon]
  | .block body _ => .mark .leftBrace :: wordsOfAll body ++ [.mark .rightBrace]
  | .cond condition thenBranch elseBranch _ =>
    .mark .se :: .mark .leftParen :: condition.words ++ .mark .rightParen :: thenBranch.words ++
      wordsOfElse elseBranch
  | .loop condition body _ =>
    .mark .mentre :: .mark .leftParen :: condition.words ++ .mark .rightParen :: body.words
  | .function name params body _ =>
    .mark .funzione :: .name name :: .mark .leftParen :: commas (params.map fun p => [.name p]) ++
      .mark .rightParen :: .mark .leftBrace :: wordsOfAll body ++ [.mark .rightBrace]
  | .ret value _ => .mark .ritorna :: (value.elim [] Expr.words) ++ [.mark .semicolon]

def wordsOfAll : List Stmt → List Word
  | [] => []
  | s :: ss => s.words ++ wordsOfAll ss

def wordsOfElse : Option Stmt → List Word
  | none => []
  | some s => .mark .oppure :: s.words

end

theorem words_eq_cons (s : Stmt) : ∃ w ws, s.words = w :: ws ∧ w.kind.beginsStmt := by
  cases s with
  | expr value _ =>
    obtain ⟨w, ws, h, hw⟩ := value.words_eq_cons
    exact ⟨w, ws ++ [.mark .semicolon], by rw [words, h]; rfl, TokenKind.beginsStmt_of_beginsExpr hw⟩
  | var => exact ⟨.mark .variabile, _, by rw [words]; rfl, rfl⟩
  | block => exact ⟨.mark .leftBrace, _, by rw [words]; rfl, rfl⟩
  | cond => exact ⟨.mark .se, _, by rw [words]; rfl, rfl⟩
  | loop => exact ⟨.mark .mentre, _, by rw [words]; rfl, rfl⟩
  | function => exact ⟨.mark .funzione, _, by rw [words]; rfl, rfl⟩
  | ret => exact ⟨.mark .ritorna, _, by rw [words]; rfl, rfl⟩

end Stmt

def Program.words (program : List Stmt) : List Word := Stmt.wordsOfAll program ++ [.mark .eof]

/-- How tightly an operator binds. -/
def PairOp.level : PairOp → Nat
  | .binary .equal | .binary .notEqual => 1
  | .logical .xor => 2
  | .logical .or => 3
  | .logical .and => 4
  | .binary .less | .binary .lessEqual | .binary .greater | .binary .greaterEqual => 5
  | .binary .add | .binary .subtract | .binary .concat => 6
  | .binary .multiply | .binary .divide => 7
  | .binary .bitAnd | .binary .bitOr | .binary .bitXor => 8

namespace Expr

/-- How tightly the outermost part of an expression binds: assignments not at all, then
operators between two operands, operators before one, calls and properties, and the rest. -/
def level : Expr → Nat
  | .assign .. | .set .. => 0
  | .binary op .. => (PairOp.binary op).level
  | .logical op .. => (PairOp.logical op).level
  | .unary .. => 9
  | .call .. | .get .. => 10
  | .literal .. | .name .. | .group .. | .questo _ | .super .. => 11

/-- Operands bind at least as tightly as their place asks for, and operators of one level
group to the left. -/
inductive WellFormed : Expr → Prop
  | literal (value : Constant) (span : Span) : WellFormed (.literal value span)
  | name (n : String) (span : Span) : WellFormed (.name n span)
  | questo (span : Span) : WellFormed (.questo span)
  | super (method : String) (span : Span) : WellFormed (.super method span)
  | group {inner : Expr} (h : WellFormed inner) (span : Span) : WellFormed (.group inner span)
  | unary {operand : Expr} (h : WellFormed operand) (hlevel : 9 ≤ operand.level) (op : UnaryOp)
    (span : Span) : WellFormed (.unary op operand span)
  | binary {left right : Expr} {op : BinaryOp} (hleft : WellFormed left) (hright : WellFormed right)
    (hleftLevel : (PairOp.binary op).level ≤ left.level)
    (hrightLevel : (PairOp.binary op).level + 1 ≤ right.level) (span : Span) :
    WellFormed (.binary op left right span)
  | logical {left right : Expr} {op : LogicalOp} (hleft : WellFormed left) (hright : WellFormed right)
    (hleftLevel : (PairOp.logical op).level ≤ left.level)
    (hrightLevel : (PairOp.logical op).level + 1 ≤ right.level) (span : Span) :
    WellFormed (.logical op left right span)
  | assign {value : Expr} (h : WellFormed value) (n : String) (span : Span) :
    WellFormed (.assign n value span)
  | call {callee : Expr} {arguments : List Expr} (hcallee : WellFormed callee)
    (hlevel : 10 ≤ callee.level) (harguments : ∀ a ∈ arguments, WellFormed a) (span : Span) :
    WellFormed (.call callee arguments span)
  | get {object : Expr} (h : WellFormed object) (hlevel : 10 ≤ object.level) (n : String)
    (span : Span) : WellFormed (.get object n span)
  | set {object value : Expr} (hobject : WellFormed object) (hlevel : 10 ≤ object.level)
    (hvalue : WellFormed value) (n : String) (span : Span) : WellFormed (.set object n value span)

end Expr

namespace Stmt

def isDeclaration : Stmt → Bool
  | .var .. | .function .. => true
  | _ => false

/-- Whether a statement ends with an `se` that an `oppure` behind it would belong to. -/
def endsOpen : Stmt → Bool
  | .cond _ _ none _ => true
  | .cond _ _ (some elseBranch) _ => elseBranch.endsOpen
  | .loop _ body _ => body.endsOpen
  | _ => false

/-- Branches and bodies of loops are no declarations, an `oppure` belongs to the nearest open
`se`, and a function is returned from only inside of one. -/
inductive WellFormed : Bool → Stmt → Prop
  | expr {inside : Bool} {value : Expr} (h : value.WellFormed) (span : Span) :
    WellFormed inside (.expr value span)
  | var {inside : Bool} {initial : Option Expr} (h : ∀ e ∈ initial, e.WellFormed) (name : String)
    (span : Span) : WellFormed inside (.var name initial span)
  | block {inside : Bool} {body : List Stmt} (h : ∀ s ∈ body, WellFormed inside s) (span : Span) :
    WellFormed inside (.block body span)
  | cond {inside : Bool} {condition : Expr} {thenBranch : Stmt} {elseBranch : Option Stmt}
    (hcondition : condition.WellFormed) (hthen : WellFormed inside thenBranch)
    (hthenKind : thenBranch.isDeclaration = false)
    (helse : ∀ s ∈ elseBranch, WellFormed inside s)
    (helseKind : ∀ s ∈ elseBranch, s.isDeclaration = false)
    (hclosed : elseBranch.isSome → thenBranch.endsOpen = false) (span : Span) :
    WellFormed inside (.cond condition thenBranch elseBranch span)
  | loop {inside : Bool} {condition : Expr} {body : Stmt} (hcondition : condition.WellFormed)
    (hbody : WellFormed inside body) (hbodyKind : body.isDeclaration = false) (span : Span) :
    WellFormed inside (.loop condition body span)
  | function {inside : Bool} {body : List Stmt} (h : ∀ s ∈ body, WellFormed true s)
    (name : String) (params : List String) (span : Span) :
    WellFormed inside (.function name params body span)
  | ret {value : Option Expr} (h : ∀ e ∈ value, e.WellFormed) (span : Span) :
    WellFormed true (.ret value span)

end Stmt

def Ranked (k : Nat) : List (List PairOp) → Prop
  | [] => k = 9
  | ops :: tighter => (∀ op, op ∈ ops ↔ op.level = k) ∧ Ranked (k + 1) tighter

theorem Ranked.le {k : Nat} {levels : List (List PairOp)} (h : Ranked k levels) : k ≤ 9 := by
  induction levels generalizing k with
  | nil => exact Nat.le_of_eq h
  | cons ops tighter ih => exact Nat.le_of_succ_le (ih h.2)

namespace PairOp

theorem ranked_levels : Ranked 1 levels := by
  refine ⟨?_, ?_, ?_, ?_, ?_, ?_, ?_, ?_, rfl⟩
  all_goals
    intro op
    rcases op with op | op <;> cases op <;> decide

private theorem find?_kind (op : PairOp) : levels.flatten.find? (·.kind == op.kind) = some op := by
  rcases op with op | op <;> cases op <;> rfl

theorem kind_inj {op op' : PairOp} (h : op.kind = op'.kind) : op = op' := by
  have hfind := find?_kind op
  rw [h, find?_kind op'] at hfind
  exact (Option.some.inj hfind).symm

theorem level_pos (op : PairOp) : 1 ≤ op.level := by
  rcases op with op | op <;> cases op <;> decide

theorem level_le (op : PairOp) : op.level ≤ 8 := by
  rcases op with op | op <;> cases op <;> decide

theorem isMark_kind (op : PairOp) : op.kind.isMark := by
  rcases op with op | op <;> cases op <;> rfl

theorem join_words (op : PairOp) (left right : Expr) :
    (op.join left right).words = left.words ++ .mark op.kind :: right.words := by
  cases op <;> rw [join, Expr.words] <;> rfl

@[simp] theorem join_level (op : PairOp) (left right : Expr) :
    (op.join left right).level = op.level := by
  cases op <;> rfl

theorem join_wellFormed {op : PairOp} {left right : Expr} (hleft : left.WellFormed)
    (hright : right.WellFormed) (hleftLevel : op.level ≤ left.level)
    (hrightLevel : op.level + 1 ≤ right.level) : (op.join left right).WellFormed := by
  cases op with
  | binary op => exact .binary hleft hright hleftLevel hrightLevel _
  | logical op => exact .logical hleft hright hleftLevel hrightLevel _

end PairOp

namespace UnaryOp

theorem isMark_kind (op : UnaryOp) : op.kind.isMark := by cases op <;> rfl

theorem ofKind?_kind (op : UnaryOp) : ofKind? op.kind = some op := by cases op <;> rfl

theorem kind_of_ofKind? {kind : TokenKind} {op : UnaryOp} (h : ofKind? kind = some op) :
    kind = op.kind := by
  cases kind <;> cases h <;> rfl

end UnaryOp

end Copione
