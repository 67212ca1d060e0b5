import Copione.Program.Basic
/-!
# S-expressions

A program as nested lists in parentheses, one line for each statement. Spans are left out.
-/
namespace Copione

namespace Constant

/-- Texts stand between quotes as they are. -/
def sexp : Constant → String
  | .null => "niente"
  | .bool b => if b then "vero" else "falso"
  | .int n => toString n
  | .float x => Literal.floatStyle.write x
  | .str s => "\"" ++ s ++ "\""

end Constant

def parenthesize (items : List String) : String := "(" ++ " ".intercalate items ++ ")"

mutual

def Expr.sexp : Expr → String
  | .literal value _ => value.sexp
  | .name name _ => name
  | .group inner _ => parenthesize ["group", inner.sexp]
  | .unary op operand _ => parenthesize [op.kind.text, operand.sexp]
  | .binary op left right _ => parenthesize [op.kind.text, left.sexp, right.sexp]
  | .logical op left right _ => parenthesize [op.kind.text, left.sexp, right.sexp]
  | .assign name value _ => parenthesize ["=", name, value.sexp]
  | .call callee arguments _ => parenthesize ("call" :: callee.sexp :: sexpExprs arguments)
  | .get object name _ => parenthesize [".", object.sexp, name]
  | .set object name value _ => parenthesize [".=", object.sexp, name, value.sexp]
  | .questo _ => "questo"
  | .super method _ => parenthesize ["super", method]

def sexpExprs : List Expr → List String
  | [] => []
  | e :: rest => e.sexp :: sexpExprs rest

end

def sexpOption : Option Expr → List String
  | none => []
  | some e => [e.sexp]

mutual

def Stmt.sexp : Stmt → String
  | .expr value _ => value.sexp
  | .var name initial _ => parenthesize ("variabile" :: name :: sexpOption initial)
  | .block body _ => parenthesize ("blocco" :: sexpStmts body)
  | .cond condition thenBranch elseBranch _ =>
    parenthesize ("se" :: condition.sexp :: thenBranch.sexp :: sexpElse elseBranch)
  | .loop condition body _ => parenthesize ["mentre", condition.sexp, body.sexp]
  | .function name params body _ =>
    parenthesize ("funzione" :: name :: parenthesize params :: sexpStmts body)
  | .ret value _ => parenthesize ("ritorna" :: sexpOption value)

def sexpStmts : List Stmt → List String
  | [] => []
  | s :: rest => s.sexp :: sexpStmts rest

def sexpElse : Option Stmt → List String
  | none => []
  | some s => [s.sexp]

end

def Program.toSexp (stmts : List Stmt) : String :=
  String.join (stmts.map fun s => s.sexp ++ "\n")

end Copione
