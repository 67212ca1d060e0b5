import Copione.Diagnostic
import Copione.Program.Basic
/-!
# Parsing

A recursive descent through the tokens. A declaration that cannot be read is reported, and
reading resumes at the next likely statement, so that one run finds every independent error.
-/
namespace Copione

inductive ParseFault where
  | expectedToken (what : String) (found : Token)
  | expectedExpression (found : Token)
  | invalidAssignmentTarget
  | returnOutsideFunction
  | missingWhileCondition

namespace ParseFault

def kind : ParseFault → ErrorKind
  | .expectedToken .. => .expectedToken
  | .expectedExpression _ => .expectedExpression
  | .invalidAssignmentTarget => .invalidAssignmentTarget
  | .returnOutsideFunction => .returnOutsideFunction
  | .missingWhileCondition => .missingWhileCondition

def describe (t : Token) : String :=
  if t.kind == .eof then "end of input" else "'" ++ t.lexeme ++ "'"

def message : ParseFault → String
  | .expectedToken what found => "expected " ++ what ++ ", found " ++ describe found
  | .expectedExpression found => "expected expression, found " ++ describe found
  | .invalidAssignmentTarget => "invalid assignment target"
  | .returnOutsideFunction => "'ritorna' outside of a function"
  | .missingWhileCondition => "missing condition in 'mentre'"

def report (f : ParseFault) (t : Token) : CompileError :=
  .parse f.kind f.message ⟨t.span.offset, max t.span.len 1, t.line⟩

end ParseFault

/-- A place among the tokens, and what was found out on the way there. -/
structure Parser where
  /-- Tokens already read, the last one first. -/
  before : List Token
  rest : List Token
  errors : Array CompileError
  /-- How many function bodies are open. -/
  functionDepth : Nat
  /-- How many blocks are open, function bodies included. -/
  blockDepth : Nat

abbrev Parse := EStateM CompileError Parser

namespace Parser

def ofTokens (tokens : List Token) : Parser := ⟨[], tokens, #[], 0, 0⟩

/-- The token at the place. A list of tokens ends with `eof`, which is never passed. -/
def current (p : Parser) : Token := p.rest.headD ⟨.eof, "", none, ⟨0, 0, 0⟩⟩

def previous (p : Parser) : Token := p.before.headD p.current

def isAtEnd (p : Parser) : Bool := p.current.kind == .eof

def next (p : Parser) : Parser :=
  match p.rest with
  | t :: rest => if t.kind == .eof then p else { p with before := t :: p.before, rest }
  | [] => p

def skip : Nat → Parser → Parser
  | 0, p => p
  | n + 1, p => skip n p.next

def peekKind : Parse TokenKind := return (← get).current.kind

def check (kind : TokenKind) : Parse Bool := return (← peekKind) == kind

def advance : Parse Token := do
  modify next
  return (← get).previous

def accept (kind : TokenKind) : Parse Bool := do
  if ← check kind then
    modify next
    return true
  else return false

def failAt {α : Type} (token : Token) (fault : ParseFault) : Parse α := throw (fault.report token)

def consume (kind : TokenKind) (what : String) : Parse Token := do
  if ← check kind then advance
  else
    let found := (← get).current
    failAt found (.expectedToken what found)

def expectName (what : String) : Parse String := return (← consume .identifier what).lexeme

def failExpression {α : Type} : Parse α := do
  let found := (← get).current
  failAt found (.expectedExpression found)

def spanFrom (start : Span) : Parse Span := return start.through (← get).previous.span

def foldPairs (ops : List PairOp) (operand : Parse Expr) : Nat → Expr → Parse Expr
  | 0, left => pure left
  | fuel + 1, left => do
    let kind ← peekKind
    match ops.find? (·.kind == kind) with
    | none => return left
    | some op =>
      modify next
      let right ← operand
      foldPairs ops operand fuel (op.join left right)

/-- Operands of the innermost kind joined by the operators of the levels, each level to the
left. -/
def pairs (fuel : Nat) (operand : Parse Expr) : List (List PairOp) → Parse Expr
  | [] => operand
  | ops :: tighter => do
    let left ← pairs fuel operand tighter
    foldPairs ops (pairs fuel operand tighter) fuel left

/-- `item`s with commas between them, at least one. -/
def commaSeparated {α : Type} (item : Parse α) : Nat → Parse (List α)
  | 0 => pure []
  | fuel + 1 => do
    let first ← item
    if ← accept .comma then
      return first :: (← commaSeparated item fuel)
    else return [first]

/-- A list that ends before a parenthesis, which may follow at once. -/
def listed {α : Type} (fuel : Nat) (item : Parse α) : Parse (List α) := do
  if ← check .rightParen then return [] else commaSeparated item fuel

def constant? (t : Token) : Option Constant :=
  match t.kind, t.literal with
  | .vero, _ => some (.bool true)
  | .falso, _ => some (.bool false)
  | .niente, _ => some .null
  | .integer, some (.int n) => some (.int n)
  | .float, some (.float x) => some (.float x)
  | .string, some (.str s) => some (.str s)
  | _, _ => none

def primary (expression : Parse Expr) : Parse Expr := do
  let token := (← get).current
  if let some value := constant? token then
    modify next
    return .literal value token.span
  match token.kind with
  | .questo =>
    modify next
    return .questo token.span
  | .super =>
    modify next
    discard (consume .dot "'.' after 'super'")
    let method ← expectName "method name after 'super.'"
    return .super method (← spanFrom token.span)
  | .identifier =>
    modify next
    return .name token.lexeme token.span
  | .leftParen =>
    modify next
    let inner ← expression
    discard (consume .rightParen "')' after expression")
    return .group inner (← spanFrom token.span)
  | _ => failExpression

/-- Calls and properties that follow `object`. -/
def trailers (fuel : Nat) (expression : Parse Expr) : Nat → Expr → Parse Expr
  | 0, object => pure object
  | count + 1, object => do
    if ← accept .leftParen then
      let arguments ← listed fuel expression
      discard (consume .rightParen "')' after arguments")
      trailers fuel expression count (.call object arguments (← spanFrom object.span))
    else if ← accept .dot then
      let name ← expectName "property name after '.'"
      trailers fuel expression count (.get object name (← spanFrom object.span))
    else return object

def call (fuel : Nat) (expression : Parse Expr) : Parse Expr := do
  let object ← primary expression
  trailers fuel expression fuel object

mutual

/-- An expression: operators, and an assignment to what they give if `=` follows. Whether it
can be assigned to is known only then. -/
def expression : Nat → Parse Expr
  | 0 => failExpression
  | fuel + 1 => do
    let target ← pairs fuel (unary fuel) PairOp.levels
    if !(← check .equal) then return target
    let sign ← advance
    let value ← expression fuel
    let span := target.span.through value.span
    match target with
    | .name name _ => return .assign name value span
    | .get object name _ => return .set object name value span
    | _ => failAt sign .invalidAssignmentTarget

def unary : Nat → Parse Expr
  | 0 => failExpression
  | fuel + 1 => do
    match UnaryOp.ofKind? (← peekKind) with
    | none => call fuel (expression fuel)
    | some op =>
      let start := (← advance).span
      let operand ← unary fuel
      return .unary op operand (start.through operand.span)

end

/-- How many tokens a statement takes at the beginning of the tokens: through its `;`, or
through the brace that closes the first block it opens. It ends before a brace that it did
not open. -/
def branchLength : Nat → List Token → Nat
  | _, [] => 0
  | depth, t :: rest =>
    match t.kind, depth with
    | .eof, _ | .rightBrace, 0 => 0
    | .rightBrace, 1 | .semicolon, 0 => 1
    | .rightBrace, depth + 2 => 1 + branchLength (depth + 1) rest
    | .leftBrace, depth => 1 + branchLength (depth + 1) rest
    | _, depth => 1 + branchLength depth rest

/-- Kinds before which a statement that cannot be read is given up. -/
def boundaries : List TokenKind :=
  [.oppure, .eof, .se, .mentre, .variabile, .funzione, .ritorna, .rightBrace]

/-- How many tokens there are to the next boundary; the place behind a `;` is one too. -/
def boundaryDistance : Bool → List Token → Nat
  | _, [] => 0
  | behindSemicolon, t :: rest =>
    if behindSemicolon || boundaries.contains t.kind then 0
    else 1 + boundaryDistance (t.kind == .semicolon) rest

def skipBranches : Nat → Parser → Parser
  | 0, p => p
  | fuel + 1, p =>
    if p.current.kind == .oppure then
      let branch := p.next
      skipBranches fuel (branch.skip (branchLength 0 branch.rest))
    else p

/-- Goes on to a likely statement. At the brace that closes an open block nothing is passed,
otherwise at least one token; `oppure` branches belong to what is given up. -/
def synchronize (p : Parser) : Parser :=
  if 0 < p.blockDepth && p.current.kind == .rightBrace then p
  else
    let p := p.next
    let p := p.skip (boundaryDistance (p.previous.kind == .semicolon) p.rest)
    skipBranches p.rest.length p

/-- Reads one declaration, or reports why it cannot and goes on behind it. -/
def recovering (declaration : Parse Stmt) : Parse (Option Stmt) := fun p =>
  match declaration p with
  | .ok stmt p => .ok (some stmt) p
  | .error e p => .ok none { p with errors := p.errors.push e }.synchronize

def declarations (stop : Parser → Bool) (declaration : Parse Stmt) : Nat → Parse (List Stmt)
  | 0 => pure []
  | fuel + 1 => do
    if stop (← get) then return []
    let stmt ← recovering declaration
    return stmt.toList ++ (← declarations stop declaration fuel)

def blockBody (fuel : Nat) (declaration : Parse Stmt) : Parse (List Stmt) := do
  modify fun p => { p with blockDepth := p.blockDepth + 1 }
  let body ← declarations (fun p => p.current.kind == .rightBrace || p.isAtEnd) declaration fuel
  modify fun p => { p with blockDepth := p.blockDepth - 1 }
  discard (consume .rightBrace "'\x7d' after block")
  return body

def inFunction {α : Type} (body : Parse α) : Parse α := fun p =>
  let leave (p : Parser) : Parser := { p with functionDepth := p.functionDepth - 1 }
  match body { p with functionDepth := p.functionDepth + 1 } with
  | .ok a p => .ok a (leave p)
  | .error e p => .error e (leave p)

def varDeclaration (expression : Parse Expr) : Parse Stmt := do
  let start := (← advance).span
  let name ← expectName "variable name"
  let initial ← if ← accept .equal then some <$> expression else pure none
  discard (consume .semicolon "';' after variable declaration")
  return .var name initial (← spanFrom start)

def functionDeclaration (fuel : Nat) (declaration : Parse Stmt) : Parse Stmt := do
  let start := (← advance).span
  let name ← expectName "function name"
  discard (consume .leftParen "'(' after function name")
  let params ← listed fuel (expectName "parameter name")
  discard (consume .rightParen "')' after parameters")
  discard (consume .leftBrace "'\x7b' before function body")
  let body ← inFunction (blockBody fuel declaration)
  return .function name params body (← spanFrom start)

def ifStatement (expression : Parse Expr) (statement : Parse Stmt) : Parse Stmt := do
  let start := (← advance).span
  discard (consume .leftParen "'(' after 'se'")
  let condition ← expression
  discard (consume .rightParen "')' after condition")
  let thenBranch ← statement
  let elseBranch ← if ← accept .oppure then some <$> statement else pure none
  return .cond condition thenBranch elseBranch (← spanFrom start)

def whileStatement (expression : Parse Expr) (statement : Parse Stmt) : Parse Stmt := do
  let start := (← advance).span
  discard (consume .leftParen "'(' after 'mentre'")
  if ← check .rightParen then
    failAt (← get).current .missingWhileCondition
  let condition ← expression
  discard (consume .rightParen "')' after condition")
  let body ← statement
  return .loop condition body (← spanFrom start)

def returnStatement (expression : Parse Expr) : Parse Stmt := do
  let p ← get
  if p.functionDepth == 0 then
    failAt p.current .returnOutsideFunction
  let start := (← advance).span
  let value ← if ← check .semicolon then pure none else some <$> expression
  discard (consume .semicolon "';' after return value")
  return .ret value (← spanFrom start)

def blockStatement (fuel : Nat) (declaration : Parse Stmt) : Parse Stmt := do
  let start := (← advance).span
  let body ← blockBody fuel declaration
  return .block body (← spanFrom start)

def expressionStatement (expression : Parse Expr) : Parse Stmt := do
  let value ← expression
  discard (consume .semicolon "';' after expression")
  return .expr value (← spanFrom value.span)

mutual

def declaration : Nat → Parse Stmt
  | 0 => failExpression
  | fuel + 1 => do
    match ← peekKind with
    | .variabile => varDeclaration (expression fuel)
    | .funzione => functionDeclaration fuel (declaration fuel)
    | _ => statement fuel

def statement : Nat → Parse Stmt
  | 0 => failExpression
  | fuel + 1 => do
    match ← peekKind with
    | .se => ifStatement (expression fuel) (statement fuel)
    | .mentre => whileStatement (expression fuel) (statement fuel)
    | .ritorna => returnStatement (expression fuel)
    | .leftBrace => blockStatement fuel (declaration fuel)
    | _ => expressionStatement (expression fuel)

end

def fuelFor (count : Nat) : Nat := 4 * count + 4

def program (fuel : Nat) : Parse (List Stmt) := declarations isAtEnd (declaration fuel) fuel

end Parser

/-- The statements of the tokens, the last of which is `eof`, or every error in them. -/
def Program.parse (tokens : List Token) : Except (List CompileError) (List Stmt) :=
  match Parser.program (Parser.fuelFor tokens.length) (Parser.ofTokens tokens) with
  | .ok stmts p => if p.errors.isEmpty then .ok stmts else .error p.errors.toList
  | .error e p => .error (p.errors.push e).toList

end Copione
