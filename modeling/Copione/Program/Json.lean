import Copione.Json
import Copione.Program.Basic
/-!
# Programs as JSON

Every node is an object that names its form first and ends with its span.
-/
namespace Copione

/-- Positional from `0.00001` up to below `10 ^ 16`, exponents signed. There are no
infinities in JSON. -/
def Json.floatStyle : FloatStyle :=
  { tie := .even, positional := some (-5, 16), plus := true, infinity := "null", nan := "null" }

def Json.ofFloat (x : Float) : Json :=
  if x.isFinite then .plain (Json.floatStyle.write x) else Json.null

def Json.ofNat (n : Nat) : Json := .plain (toString n)

def Json.ofStrings (strings : List String) : Json := .array (strings.map Json.str)

def Span.toJson (s : Span) : Json :=
  .object [("offset", .ofNat s.offset), ("len", .ofNat s.len), ("line", .ofNat s.line)]

def Constant.toJson : Constant → Json
  | .null => .str "Null"
  | .bool b => .object [("Bool", .plain (if b then "true" else "false"))]
  | .int n => .object [("Integer", .plain (toString n))]
  | .float x => .object [("Float", .ofFloat x)]
  | .str s => .object [("Str", .str s)]

def Json.node (form : String) (fields : List (String × Json)) (span : Span) : Json :=
  .object (("type", .str form) :: fields ++ [("span", span.toJson)])

mutual

def Expr.toJson : Expr → Json
  | .literal value s => .node "Literal" [("value", value.toJson)] s
  | .name name s => .node "Variable" [("name", .str name)] s
  | .group inner s => .node "Grouping" [("expression", inner.toJson)] s
  | .unary op operand s =>
    .node "Unary" [("operator", .str op.name), ("operand", operand.toJson)] s
  | .binary op left right s =>
    .node "Binary"
      [("left", left.toJson), ("operator", .str op.name), ("right", right.toJson)] s
  | .logical op left right s =>
    .node "Logical"
      [("left", left.toJson), ("operator", .str op.name), ("right", right.toJson)] s
  | .assign name value s => .node "Assign" [("name", .str name), ("value", value.toJson)] s
  | .call callee arguments s =>
    .node "Call" [("callee", callee.toJson), ("arguments", .array (exprsToJson arguments))] s
  | .get object name s => .node "Get" [("object", object.toJson), ("name", .str name)] s
  | .set object name value s =>
    .node "Set" [("object", object.toJson), ("name", .str name), ("value", value.toJson)] s
  | .questo s => .node "This" [] s
  | .super method s => .node "Super" [("method", .str method)] s

def exprsToJson : List Expr → List Json
  | [] => []
  | e :: rest => e.toJson :: exprsToJson rest

end

mutual

def Stmt.toJson : Stmt → Json
  | .expr value s => .node "Expression" [("expression", value.toJson)] s
  | .var name initial s =>
    .node "Var" [("name", .str name), ("initializer", .ofOption Expr.toJson initial)] s
  | .block body s => .node "Block" [("statements", .array (stmtsToJson body))] s
  | .cond condition thenBranch elseBranch s =>
    .node "If"
      [("condition", condition.toJson), ("then_branch", thenBranch.toJson),
        ("else_branch", elseToJson elseBranch)] s
  | .loop condition body s =>
    .node "While" [("condition", condition.toJson), ("body", body.toJson)] s
  | .function name params body s =>
    .node "Function"
      [("name", .str name), ("params", .ofStrings params), ("body", .array (stmtsToJson body))] s
  | .ret value s => .node "Return" [("value", .ofOption Expr.toJson value)] s

def stmtsToJson : List Stmt → List Json
  | [] => []
  | s :: rest => s.toJson :: stmtsToJson rest

def elseToJson : Option Stmt → Json
  | none => .null
  | some s => s.toJson

end

def Program.toJson (stmts : List Stmt) : String := (Json.array (stmtsToJson stmts)).render

end Copione
