import Copione.Scope
import Copione.Value.Convert
/-!
# Evaluation

Statements run and expressions evaluate on a machine that holds the scopes, the output and
the clock. Every step down into a part of the program uses up one unit of fuel; running out
is told apart from the errors of the program.
-/
namespace Copione

structure Output where
  /-- How many bytes the device takes in all, `none` if it never fills up. -/
  limit : Option Nat
  /-- The texts the device took, the last one first. -/
  writes : List String
  /-- A copy of them all, if one is kept. -/
  capture : Option String

namespace Output

def unlimited : Output := ⟨none, [], none⟩

/-- A device that takes everything, with a copy. -/
def capturing : Output := ⟨none, [], some ""⟩

/-- A device that takes a text only if it then holds at most `limit` bytes. -/
def limited (limit : Nat) : Output := ⟨some limit, [], none⟩

def accepted (o : Output) : String := String.join o.writes.reverse

def size (o : Output) : Nat := o.writes.foldr (fun text n => text.utf8ByteSize + n) 0

def hasRoom (o : Output) (text : String) : Bool :=
  match o.limit with
  | none => true
  | some limit => o.size + text.utf8ByteSize ≤ limit

def take (o : Output) (text : String) : Output :=
  { o with writes := text :: o.writes, capture := o.capture.map (· ++ text) }

end Output

structure Machine where
  scopes : Scopes
  /-- The scope in which names are looked up. -/
  current : ScopeId
  /-- How many functions were declared so far. -/
  functions : Nat
  output : Output
  /-- What each reading of the clock gives, in milliseconds. -/
  clock : Nat → Float
  /-- How often the clock was read. -/
  readings : Nat

def Machine.start (output : Output) (clock : Nat → Float) : Machine :=
  ⟨⟨#[Scope.globals]⟩, 0, 0, output, clock, 0⟩

abbrev Eval := EStateM Signal Machine

namespace Eval

def fail {α : Type} (fault : Fault) : Eval α := throw (.error (.ofFault fault))

def liftFault {α : Type} : Except Fault α → Eval α
  | .ok a => pure a
  | .error fault => fail fault

/-- Puts errors that have no line yet on `line`. -/
def locate {α : Type} (line : Nat) (m : Eval α) : Eval α := fun s =>
  match m s with
  | .ok a s => .ok a s
  | .error e s => .error (e.atLine line) s

def failAt {α : Type} (line : Nat) (fault : Fault) : Eval α := locate line (fail fault)

/-- Does `m` in another scope and comes back, however it ends. -/
def within {α : Type} (scope : ScopeId) (m : Eval α) : Eval α := fun s =>
  let before := s.current
  match m { s with current := scope } with
  | .ok a s => .ok a { s with current := before }
  | .error e s => .error e { s with current := before }

def lookup (name : String) : Eval Value := do
  let s ← get
  liftFault (s.scopes.get s.current name)

def bindIn (scope : ScopeId) (name : String) (value : Value) : Eval Unit :=
  modify fun s => { s with scopes := s.scopes.bind scope name value }

def defineIn (scope : ScopeId) (name : String) (value : Value) : Eval Unit := do
  liftFault (Scopes.checkName name)
  bindIn scope name value

def define (name : String) (value : Value) : Eval Unit := do
  defineIn (← get).current name value

def assign (name : String) (value : Value) : Eval Unit := do
  let s ← get
  let owner ← liftFault (s.scopes.assignee s.current name value)
  bindIn owner name value

def newScope (parent : ScopeId) : Eval ScopeId :=
  modifyGet fun s => (s.scopes.next, { s with scopes := s.scopes.push (.inside parent) })

/-- Hands one text to the device, which takes it whole or not at all. -/
def write (text : String) : Eval Unit := do
  if (← get).output.hasRoom text then
    modify fun s => { s with output := s.output.take text }
  else fail (.outputFailed "device full")

def readClock : Eval Float :=
  modifyGet fun s => (s.clock s.readings, { s with readings := s.readings + 1 })

def negate : Value → Option Value
  | .int n => some (.int (-n))
  | .float x => some (.float (-x))
  | _ => none

def applyUnary (op : UnaryOp) (v : Value) (line : Nat) : Eval Value :=
  match op with
  | .not => pure (.bool !v.isTruthy)
  | .negate =>
    match negate v with
    | some result => pure result
    | none => failAt line (.cannotNegate v.type)

/-- Integer arithmetic wraps around; division always gives a float. -/
def integerOp (op : BinaryOp) (a b : Int64) : Option Value :=
  match op with
  | .add => some (.int (a + b))
  | .subtract => some (.int (a - b))
  | .multiply => some (.int (a * b))
  | .divide => some (.float (Binary.ofInt a.toInt / Binary.ofInt b.toInt))
  | .bitAnd => some (.int (a &&& b))
  | .bitOr => some (.int (a ||| b))
  | .bitXor => some (.int (a ^^^ b))
  | .less => some (.bool (a < b))
  | .lessEqual => some (.bool (a ≤ b))
  | .greater => some (.bool (b < a))
  | .greaterEqual => some (.bool (b ≤ a))
  | _ => none

/-- Every comparison with a NaN is false. -/
def floatOp (op : BinaryOp) (a b : Float) : Option Value :=
  match op with
  | .add => some (.float (a + b))
  | .subtract => some (.float (a - b))
  | .multiply => some (.float (a * b))
  | .divide => some (.float (a / b))
  | .less => some (.bool (a < b))
  | .lessEqual => some (.bool (a ≤ b))
  | .greater => some (.bool (b < a))
  | .greaterEqual => some (.bool (b ≤ a))
  | _ => none

/-- The result of an operator, if it has one on the two types. -/
def combine (op : BinaryOp) (left right : Value) : Option Value :=
  match op, left, right with
  | .equal, a, b => some (.bool (a.equals b))
  | .notEqual, a, b => some (.bool !(a.equals b))
  | .concat, .str a, .str b => some (.str (a ++ b))
  | op, .int a, .int b => integerOp op a b
  | op, .float a, .float b => floatOp op a b
  | _, _, _ => none

def applyBinary (op : BinaryOp) (left right : Value) (line : Nat) : Eval Value :=
  match combine op left right with
  | some result => pure result
  | none => failAt line (.cannotCombine op left.type right.type)

def expectBool (op : LogicalOp) (line : Nat) : Value → Eval Bool
  | .bool b => pure b
  | other => failAt line (.needsBooleans op other.type)

/-- The result of a logical operator whose right operand is not needed. -/
def shortcut : LogicalOp → Bool → Option Bool
  | .and, false => some false
  | .or, true => some true
  | _, _ => none

def joinBools : LogicalOp → Bool → Bool → Bool
  | .and, a, b => a && b
  | .or, a, b => a || b
  | .xor, a, b => a != b

/-- A built-in function on its arguments. A missing argument is `niente`, and more than it
takes are not looked at. -/
def callBuiltin (b : Builtin) (args : List Value) : Eval Value := do
  let arg := args.headD .null
  match b with
  | .scrive =>
    write arg.display
    return .null
  | .scriveLina =>
    write (arg.display ++ "\n")
    return .null
  | .tipoDiDato => return .str arg.type.name
  | .trasformaInIntero => return .int (← liftFault arg.toInteger)
  | .trasformaInVirgola => return .float (← liftFault arg.toFloat)
  | .trasformaInBool => return .bool (← liftFault arg.toBool)
  | .trasformaInStringa => return .str arg.display
  | .tempoMillis => return .float (← readClock)

def bindParams (scope : ScopeId) : List String → List Value → Eval Unit
  | param :: params, arg :: args => do
    defineIn scope param arg
    bindParams scope params args
  | _, _ => pure ()

/-- The value that `body` returns with, or `niente` if it runs to its end. -/
def catchReturn (body : Eval Unit) : Eval Value := fun s =>
  match body s with
  | .ok _ s => .ok .null s
  | .error (.returned value) s => .ok value s
  | .error e s => .error e s

def runAll (exec : Stmt → Eval Unit) : List Stmt → Eval Unit
  | [] => pure ()
  | stmt :: rest => do
    exec stmt
    runAll exec rest

def callClosure (exec : Stmt → Eval Unit) (c : Closure) (args : List Value) : Eval Value := do
  let scope ← newScope c.scope
  bindParams scope c.params args
  catchReturn (within scope (runAll exec c.body))

def apply (exec : Stmt → Eval Unit) (line : Nat) (callee : Value) (args : List Value) :
    Eval Value :=
  match callee with
  | .function f =>
    if args.length != f.arity then
      failAt line (.arityMismatch f.name f.arity args.length)
    else
      locate line <|
        match f with
        | .builtin b => callBuiltin b args
        | .closure c => callClosure exec c args
  | other => failAt line (.notCallable other.type)

def evalAll (eval : Expr → Eval Value) : List Expr → Eval (List Value)
  | [] => pure []
  | e :: rest => do
    let v ← eval e
    return v :: (← evalAll eval rest)

def repeatWhile (turn : Eval Bool) : Nat → Eval Unit
  | 0 => throw .exhausted
  | fuel + 1 => do
    if ← turn then repeatWhile turn fuel else pure ()

/-- One turn of a loop: false if its condition does not hold. -/
def loopTurn (eval : Expr → Eval Value) (exec : Stmt → Eval Unit) (condition : Expr)
    (body : Stmt) : Eval Bool := do
  let value ← eval condition
  if value.type == .null then failAt condition.span.line .emptyCondition
  if value.isTruthy then
    exec body
    return true
  else return false

def evalOption (eval : Expr → Eval Value) : Option Expr → Eval Value
  | none => pure .null
  | some e => eval e

def declareFunction (name : String) (params : List String) (body : List Stmt) : Eval Unit := do
  let s ← get
  set { s with functions := s.functions + 1 }
  define name (.function (.closure ⟨s.functions, name, params, body, s.current⟩))

mutual

def eval : Nat → Expr → Eval Value
  | 0, _ => throw .exhausted
  | fuel + 1, e =>
    match e with
    | .literal value _ => pure (.ofConstant value)
    | .name name s => locate s.line (lookup name)
    | .group inner _ => eval fuel inner
    | .unary op operand s => do applyUnary op (← eval fuel operand) s.line
    | .binary op left right s => do
      let a ← eval fuel left
      let b ← eval fuel right
      applyBinary op a b s.line
    | .logical op left right s => do
      let a ← expectBool op s.line (← eval fuel left)
      match shortcut op a with
      | some result => return .bool result
      | none =>
        let b ← expectBool op s.line (← eval fuel right)
        return .bool (joinBools op a b)
    | .assign name value s => do
      let v ← eval fuel value
      locate s.line (assign name v)
      return v
    | .call callee arguments s => do
      let f ← eval fuel callee
      let args ← evalAll (eval fuel) arguments
      apply (exec fuel) s.line f args
    | .get object name s => do
      let v ← eval fuel object
      failAt s.line (.noProperty name v.type)
    | .set object name _ s => do
      let v ← eval fuel object
      failAt s.line (.noProperty name v.type)
    | .questo s => locate s.line (lookup "questo")
    | .super _ s => locate s.line (lookup "super")

def exec : Nat → Stmt → Eval Unit
  | 0, _ => throw .exhausted
  | fuel + 1, stmt =>
    match stmt with
    | .expr value _ => discard (eval fuel value)
    | .var name initial s => do
      let v ← evalOption (eval fuel) initial
      locate s.line (define name v)
    | .block body _ => do
      let scope ← newScope (← get).current
      within scope (runAll (exec fuel) body)
    | .cond condition thenBranch elseBranch _ => do
      let v ← eval fuel condition
      if v.isTruthy then exec fuel thenBranch
      else
        match elseBranch with
        | some branch => exec fuel branch
        | none => pure ()
    | .loop condition body _ => repeatWhile (loopTurn (eval fuel) (exec fuel) condition body) fuel
    | .function name params body s => locate s.line (declareFunction name params body)
    | .ret value _ => do throw (.returned (← evalOption (eval fuel) value))

end

/-- Runs a program up to its first failure. -/
def interpret (fuel : Nat) (stmts : List Stmt) : Eval Unit := runAll (exec fuel) stmts

/-- More fuel than any run that ends in a lifetime can use. -/
def lifetime : Nat := 0x4000000000000000

end Eval
end Copione
