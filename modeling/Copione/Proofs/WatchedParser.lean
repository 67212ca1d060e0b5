import Copione.Program.Parse
/-!
# A parser that watches itself

The same recursive descent, with the tokens held in one list and looked up by their number. What
must never happen while it runs raises an alarm: a number without a token, a place behind an `eof`,
an operator that is none, a depth below zero, a declaration of the program that begins inside a
block, a loop that does not end.
-/
namespace Copione

/-- What must not happen while tokens are read. -/
inductive Alarm where
  | outOfRange
  | behindEnd
  | noOperator
  | depthBelowZero
  | notOutermost
  | outOfSteps
  deriving DecidableEq, Repr

inductive Stop where
  | fault (e : CompileError)
  | alarm (a : Alarm)

structure Watched where
  tokens : List Token
  /-- The number of the token that is looked at. -/
  place : Nat
  errors : Array CompileError
  functionDepth : Nat
  blockDepth : Nat

abbrev Watch := EStateM Stop Watched

namespace BinaryOp

def ofKind? : TokenKind → Option BinaryOp
  | .plus => some .add
  | .minus => some .subtract
  | .star => some .multiply
  | .slash => some .divide
  | .atSign => some .concat
  | .ampersand => some .bitAnd
  | .pipe => some .bitOr
  | .caret => some .bitXor
  | .equalEqual => some .equal
  | .bangEqual => some .notEqual
  | .less => some .less
  | .lessEqual => some .lessEqual
  | .greater => some .greater
  | .greaterEqual => some .greaterEqual
  | _ => none

end BinaryOp

namespace LogicalOp

def ofKind? : TokenKind → Option LogicalOp
  | .ampersandAmpersand => some .and
  | .pipePipe => some .or
  | .caretCaret => some .xor
  | _ => none

end LogicalOp

namespace Watched

def ofTokens (tokens : List Token) : Watched := ⟨tokens, 0, #[], 0, 0⟩

def raise {α : Type} (a : Alarm) : Watch α := throw (.alarm a)

def tokenAt (number : Nat) : Watch Token := do
  let w ← get
  if (w.tokens.take number).any (·.kind == .eof) then raise .behindEnd
  else
    match w.tokens[number]? with
    | some token => return token
    | none => raise .outOfRange

def current : Watch Token := do tokenAt (← get).place

def previous : Watch Token := do tokenAt ((← get).place - 1)

def peekKind : Watch TokenKind := return (← current).kind

def check (kind : TokenKind) : Watch Bool := return (← peekKind) == kind

def isAtEnd : Watch Bool := check .eof

def next : Watch Unit := do
  if ← isAtEnd then pure () else modify fun w => { w with place := w.place + 1 }

def advance : Watch Token := do
  next
  previous

def accept (kind : TokenKind) : Watch Bool := do
  if ← check kind then
    next
    return true
  else return false

def failAt {α : Type} (token : Token) (fault : ParseFault) : Watch α :=
  throw (.fault (fault.report token))

def consume (kind : TokenKind) (what : String) : Watch Token := do
  if ← check kind then advance
  else
    let found ← current
    failAt found (.expectedToken what found)

def expectName (what : String) : Watch String := return (← consume .identifier what).lexeme

def failExpression {α : Type} : Watch α := do
  let found ← current
  failAt found (.expectedExpression found)

def spanFrom (start : Span) : Watch Span := return start.through (← previous).span

inductive Join where
  | binary
  | logical

def Join.op? : Join → TokenKind → Option PairOp
  | .binary, kind => (BinaryOp.ofKind? kind).map .binary
  | .logical, kind => (LogicalOp.ofKind? kind).map .logical

def Join.build (join : Join) (left : Expr) (kind : TokenKind) (right : Expr) : Watch Expr :=
  match join.op? kind with
  | some op => return op.join left right
  | none => raise .noOperator

def levels : List (List TokenKind × Join) :=
  [([.equalEqual, .bangEqual], .binary),
    ([.caretCaret], .logical),
    ([.pipePipe], .logical),
    ([.ampersandAmpersand], .logical),
    ([.greater, .greaterEqual, .less, .lessEqual], .binary),
    ([.plus, .minus, .atSign], .binary),
    ([.star, .slash], .binary),
    ([.ampersand, .pipe, .caret], .binary)]

def foldPairs (kinds : List TokenKind) (join : Join) (operand : Watch Expr) :
    Nat → Expr → Watch Expr
  | 0, _ => raise .outOfSteps
  | fuel + 1, left => do
    let kind ← peekKind
    if kinds.contains kind then
      next
      let right ← operand
      foldPairs kinds join operand fuel (← join.build left kind right)
    else return left

def pairs (fuel : Nat) (operand : Watch Expr) : List (List TokenKind × Join) → Watch Expr
  | [] => operand
  | (kinds, join) :: tighter => do
    let left ← pairs fuel operand tighter
    foldPairs kinds join (pairs fuel operand tighter) fuel left

def commaSeparated {α : Type} (item : Watch α) : Nat → Watch (List α)
  | 0 => raise .outOfSteps
  | fuel + 1 => do
    let first ← item
    if ← accept .comma then
      return first :: (← commaSeparated item fuel)
    else return [first]

def listed {α : Type} (fuel : Nat) (item : Watch α) : Watch (List α) := do
  if ← check .rightParen then return [] else commaSeparated item fuel

def primary (expression : Watch Expr) : Watch Expr := do
  let token ← current
  if let some value := Parser.constant? token then
    next
    return .literal value token.span
  match token.kind with
  | .questo =>
    next
    return .questo token.span
  | .super =>
    next
    discard (consume .dot "'.' after 'super'")
    let method ← expectName "method name after 'super.'"
    return .super method (← spanFrom token.span)
  | .identifier =>
    next
    return .name token.lexeme token.span
  | .leftParen =>
    next
    let inner ← expression
    discard (consume .rightParen "')' after expression")
    return .group inner (← spanFrom token.span)
  | _ => failExpression

def trailers (fuel : Nat) (expression : Watch Expr) : Nat → Expr → Watch Expr
  | 0, _ => raise .outOfSteps
  | count + 1, object => do
    if ← accept .leftParen then
      let arguments ← listed fuel expression
      discard (consume .rightParen "')' after arguments")
      trailers fuel expression count (.call object arguments (← spanFrom object.span))
    else if ← accept .dot then
      let name ← expectName "property name after '.'"
      trailers fuel expression count (.get object name (← spanFrom object.span))
    else return object

def call (fuel : Nat) (expression : Watch Expr) : Watch Expr := do
  let object ← primary expression
  trailers fuel expression fuel object

mutual

def expression : Nat → Watch Expr
  | 0 => raise .outOfSteps
  | fuel + 1 => do
    let target ← pairs fuel (unary fuel) levels
    if !(← check .equal) then return target
    let sign ← advance
    let value ← expression fuel
    let span := target.span.through value.span
    match target with
    | .name name _ => return .assign name value span
    | .get object name _ => return .set object name value span
    | _ => failAt sign .invalidAssignmentTarget

def unary : Nat → Watch Expr
  | 0 => raise .outOfSteps
  | fuel + 1 => do
    match UnaryOp.ofKind? (← peekKind) with
    | none => call fuel (expression fuel)
    | some op =>
      let start := (← advance).span
      let operand ← unary fuel
      return .unary op operand (start.through operand.span)

end

/-- Passes one branch, `depth` blocks of which are open. -/
def skipBranch : Nat → Nat → Watch Unit
  | 0, _ => raise .outOfSteps
  | fuel + 1, depth => do
    match ← peekKind, depth with
    | .eof, _ | .rightBrace, 0 => pure ()
    | .rightBrace, 1 | .semicolon, 0 => next
    | .rightBrace, depth + 2 => do
      next
      skipBranch fuel (depth + 1)
    | .leftBrace, depth => do
      next
      skipBranch fuel (depth + 1)
    | _, depth => do
      next
      skipBranch fuel depth

def skipBranches (fuel : Nat) : Nat → Watch Unit
  | 0 => raise .outOfSteps
  | count + 1 => do
    if ← accept .oppure then
      skipBranch fuel 0
      skipBranches fuel count
    else pure ()

def atBoundary : Watch Bool := do
  let ended ← isAtEnd
  let before ← previous
  let kind ← peekKind
  return ended || before.kind == .semicolon ||
    [.se, .mentre, .variabile, .funzione, .ritorna, .rightBrace].contains kind

def seekBoundary (fuel : Nat) : Nat → Watch Unit
  | 0 => raise .outOfSteps
  | count + 1 => do
    if ← check .oppure then skipBranches fuel fuel
    else if ← atBoundary then pure ()
    else
      next
      seekBoundary fuel count

def synchronize (fuel : Nat) : Watch Unit := do
  let depth := (← get).blockDepth
  if 0 < depth && (← check .rightBrace) then pure ()
  else
    next
    seekBoundary fuel fuel

/-- An alarm is not recovered from. -/
def recovering (fuel : Nat) (declaration : Watch Stmt) : Watch (Option Stmt) := fun w =>
  match declaration w with
  | .ok stmt w => .ok (some stmt) w
  | .error (.fault e) w => ((fun _ => none) <$> synchronize fuel) { w with errors := w.errors.push e }
  | .error (.alarm a) w => .error (.alarm a) w

def declarations (fuel : Nat) (stop : Watch Bool) (declaration : Watch Stmt) :
    Nat → Watch (List Stmt)
  | 0 => raise .outOfSteps
  | count + 1 => do
    if ← stop then return []
    let stmt ← recovering fuel declaration
    return stmt.toList ++ (← declarations fuel stop declaration count)

def enterBlock : Watch Unit := modify fun w => { w with blockDepth := w.blockDepth + 1 }

def leaveBlock : Watch Unit := do
  match (← get).blockDepth with
  | 0 => raise .depthBelowZero
  | depth + 1 => modify fun w => { w with blockDepth := depth }

def blockBody (fuel : Nat) (declaration : Watch Stmt) : Watch (List Stmt) := do
  enterBlock
  let stop : Watch Bool := do return (← check .rightBrace) || (← isAtEnd)
  let body ← declarations fuel stop declaration fuel
  leaveBlock
  discard (consume .rightBrace "'\x7d' after block")
  return body

def leaveFunction : Watch Unit := do
  match (← get).functionDepth with
  | 0 => raise .depthBelowZero
  | depth + 1 => modify fun w => { w with functionDepth := depth }

def inFunction {α : Type} (body : Watch α) : Watch α := fun w =>
  match body { w with functionDepth := w.functionDepth + 1 } with
  | .ok a w => ((fun _ => a) <$> leaveFunction) w
  | .error (.fault e) w => (leaveFunction >>= fun _ => throw (.fault e)) w
  | .error (.alarm a) w => .error (.alarm a) w

def varDeclaration (expression : Watch Expr) : Watch Stmt := do
  let start := (← advance).span
  let name ← expectName "variable name"
  let initial ← if ← accept .equal then some <$> expression else pure none
  discard (consume .semicolon "';' after variable declaration")
  return .var name initial (← spanFrom start)

def functionDeclaration (fuel : Nat) (declaration : Watch Stmt) : Watch Stmt := do
  let start := (← advance).span
  let name ← expectName "function name"
  discard (consume .leftParen "'(' after function name")
  let params ← listed fuel (expectName "parameter name")
  discard (consume .rightParen "')' after parameters")
  discard (consume .leftBrace "'\x7b' before function body")
  let body ← inFunction (blockBody fuel declaration)
  return .function name params body (← spanFrom start)

def ifStatement (expression : Watch Expr) (statement : Watch Stmt) : Watch Stmt := do
  let start := (← advance).span
  discard (consume .leftParen "'(' after 'se'")
  let condition ← expression
  discard (consume .rightParen "')' after condition")
  let thenBranch ← statement
  let elseBranch ← if ← accept .oppure then some <$> statement else pure none
  return .cond condition thenBranch elseBranch (← spanFrom start)

def whileStatement (expression : Watch Expr) (statement : Watch Stmt) : Watch Stmt := do
  let start := (← advance).span
  discard (consume .leftParen "'(' after 'mentre'")
  if ← check .rightParen then
    failAt (← current) .missingWhileCondition
  let condition ← expression
  discard (consume .rightParen "')' after condition")
  let body ← statement
  return .loop condition body (← spanFrom start)

def returnStatement (expression : Watch Expr) : Watch Stmt := do
  let token ← current
  if (← get).functionDepth == 0 then
    failAt token .returnOutsideFunction
  let start := (← advance).span
  let value ← if ← check .semicolon then pure none else some <$> expression
  discard (consume .semicolon "';' after return value")
  return .ret value (← spanFrom start)

def blockStatement (fuel : Nat) (declaration : Watch Stmt) : Watch Stmt := do
  let start := (← advance).span
  let body ← blockBody fuel declaration
  return .block body (← spanFrom start)

def expressionStatement (expression : Watch Expr) : Watch Stmt := do
  let value ← expression
  discard (consume .semicolon "';' after expression")
  return .expr value (← spanFrom value.span)

mutual

def declaration : Nat → Watch Stmt
  | 0 => raise .outOfSteps
  | fuel + 1 => do
    match ← peekKind with
    | .variabile => varDeclaration (expression fuel)
    | .funzione => functionDeclaration fuel (declaration fuel)
    | _ => statement fuel

def statement : Nat → Watch Stmt
  | 0 => raise .outOfSteps
  | fuel + 1 => do
    match ← peekKind with
    | .se => ifStatement (expression fuel) (statement fuel)
    | .mentre => whileStatement (expression fuel) (statement fuel)
    | .ritorna => returnStatement (expression fuel)
    | .leftBrace => blockStatement fuel (declaration fuel)
    | _ => expressionStatement (expression fuel)

end

def outermost (declaration : Watch Stmt) : Watch Stmt := do
  let w ← get
  if w.functionDepth == 0 && w.blockDepth == 0 then declaration else raise .notOutermost

def program (fuel : Nat) : Watch (List Stmt) :=
  declarations fuel isAtEnd (outermost (declaration fuel)) fuel

/-- The statements of the tokens or every error in them, unless there was an alarm. -/
def parse (fuel : Nat) (tokens : List Token) :
    Except Alarm (Except (List CompileError) (List Stmt)) :=
  match program fuel (ofTokens tokens) with
  | .ok stmts w => .ok (if w.errors.isEmpty then .ok stmts else .error w.errors.toList)
  | .error (.fault e) w => .ok (.error (w.errors.push e).toList)
  | .error (.alarm a) _ => .error a

end Watched
end Copione
