import Copione.Token.Basic
/-!
# Programs

Statements and expressions, each with the span of the text it was read from, and the
operators in their order of precedence.
-/
namespace Copione

inductive Constant where
  | null
  | bool (b : Bool)
  | int (n : Int64)
  | float (x : Float)
  | str (s : String)
  deriving DecidableEq

inductive UnaryOp where
  | negate
  | not
  deriving DecidableEq, Repr

inductive BinaryOp where
  | add
  | subtract
  | multiply
  | divide
  | concat
  | bitAnd
  | bitOr
  | bitXor
  | equal
  | notEqual
  | less
  | lessEqual
  | greater
  | greaterEqual
  deriving DecidableEq, Repr

inductive LogicalOp where
  | and
  | or
  | xor
  deriving DecidableEq, Repr

namespace UnaryOp

def kind : UnaryOp → TokenKind
  | .negate => .minus
  | .not => .bang

def ofKind? : TokenKind → Option UnaryOp
  | .minus => some .negate
  | .bang => some .not
  | _ => none

def name : UnaryOp → String
  | .negate => "Negate"
  | .not => "Not"

end UnaryOp

namespace BinaryOp

def kind : BinaryOp → TokenKind
  | .add => .plus
  | .subtract => .minus
  | .multiply => .star
  | .divide => .slash
  | .concat => .atSign
  | .bitAnd => .ampersand
  | .bitOr => .pipe
  | .bitXor => .caret
  | .equal => .equalEqual
  | .notEqual => .bangEqual
  | .less => .less
  | .lessEqual => .lessEqual
  | .greater => .greater
  | .greaterEqual => .greaterEqual

def name : BinaryOp → String
  | .add => "Add"
  | .subtract => "Subtract"
  | .multiply => "Multiply"
  | .divide => "Divide"
  | .concat => "Concat"
  | .bitAnd => "BitAnd"
  | .bitOr => "BitOr"
  | .bitXor => "BitXor"
  | .equal => "Equal"
  | .notEqual => "NotEqual"
  | .less => "Less"
  | .lessEqual => "LessEqual"
  | .greater => "Greater"
  | .greaterEqual => "GreaterEqual"

end BinaryOp

namespace LogicalOp

def kind : LogicalOp → TokenKind
  | .and => .ampersandAmpersand
  | .or => .pipePipe
  | .xor => .caretCaret

def name : LogicalOp → String
  | .and => "And"
  | .or => "Or"
  | .xor => "Xor"

end LogicalOp

inductive Expr where
  | literal (value : Constant) (span : Span)
  | name (name : String) (span : Span)
  | group (inner : Expr) (span : Span)
  | unary (op : UnaryOp) (operand : Expr) (span : Span)
  | binary (op : BinaryOp) (left right : Expr) (span : Span)
  | logical (op : LogicalOp) (left right : Expr) (span : Span)
  | assign (name : String) (value : Expr) (span : Span)
  | call (callee : Expr) (arguments : List Expr) (span : Span)
  | get (object : Expr) (name : String) (span : Span)
  | set (object : Expr) (name : String) (value : Expr) (span : Span)
  | questo (span : Span)
  | super (method : String) (span : Span)

def Expr.span : Expr → Span
  | .literal _ s | .name _ s | .group _ s | .unary _ _ s | .binary _ _ _ s | .logical _ _ _ s
  | .assign _ _ s | .call _ _ s | .get _ _ s | .set _ _ _ s | .questo s | .super _ s => s

inductive Stmt where
  | expr (value : Expr) (span : Span)
  | var (name : String) (initial : Option Expr) (span : Span)
  | block (body : List Stmt) (span : Span)
  | cond (condition : Expr) (thenBranch : Stmt) (elseBranch : Option Stmt) (span : Span)
  | loop (condition : Expr) (body : Stmt) (span : Span)
  | function (name : String) (params : List String) (body : List Stmt) (span : Span)
  | ret (value : Option Expr) (span : Span)

def Stmt.span : Stmt → Span
  | .expr _ s | .var _ _ s | .block _ s | .cond _ _ _ s | .loop _ _ s | .function _ _ _ s
  | .ret _ s => s

inductive PairOp where
  | binary (op : BinaryOp)
  | logical (op : LogicalOp)
  deriving DecidableEq, Repr

namespace PairOp

def kind : PairOp → TokenKind
  | .binary op => op.kind
  | .logical op => op.kind

def join (op : PairOp) (left right : Expr) : Expr :=
  let span := left.span.through right.span
  match op with
  | .binary op => .binary op left right span
  | .logical op => .logical op left right span

/-- Operators that bind equally, the loosest first. -/
def levels : List (List PairOp) :=
  [[.binary .equal, .binary .notEqual],
    [.logical .xor],
    [.logical .or],
    [.logical .and],
    [.binary .greater, .binary .greaterEqual, .binary .less, .binary .lessEqual],
    [.binary .add, .binary .subtract, .binary .concat],
    [.binary .multiply, .binary .divide],
    [.binary .bitAnd, .binary .bitOr, .binary .bitXor]]

end PairOp
end Copione
