import Copione.Proofs.ParserSteps
/-!
# Parsers that differ in what they assign to

The parser, with a parameter for what it makes of an assignment. One that checks the target is the parser
itself; the tolerant one takes every expression on the left of `=`.
-/
namespace Copione

namespace Parser

/-- What to make of a target, of the `=` behind it and of the value. -/
abbrev Assigning := Token → Expr → Expr → Parse Expr

def checked : Assigning := fun sign target value =>
  let span := target.span.through value.span
  match target with
  | .name name _ => return .assign name value span
  | .get object name _ => return .set object name value span
  | _ => failAt sign .invalidAssignmentTarget

/-- Everything is assigned to; what has no place in the tree for that is left out of it. -/
def tolerant : Assigning := fun _ target value =>
  let span := target.span.through value.span
  match target with
  | .name name _ => return .assign name value span
  | .get object name _ => return .set object name value span
  | _ => return value

mutual

def expressionWith (assign : Assigning) : Nat → Parse Expr
  | 0 => failExpression
  | fuel + 1 => do
    let target ← pairs fuel (unaryWith assign fuel) PairOp.levels
    if !(← check .equal) then return target
    let sign ← advance
    let value ← expressionWith assign fuel
    assign sign target value

def unaryWith (assign : Assigning) : Nat → Parse Expr
  | 0 => failExpression
  | fuel + 1 => do
    match UnaryOp.ofKind? (← peekKind) with
    | none => call fuel (expressionWith assign fuel)
    | some op =>
      let start := (← advance).span
      let operand ← unaryWith assign fuel
      return .unary op operand (start.through operand.span)

end

mutual

def declarationWith (assign : Assigning) : Nat → Parse Stmt
  | 0 => failExpression
  | fuel + 1 => do
    match ← peekKind with
    | .variabile => varDeclaration (expressionWith assign fuel)
    | .funzione => functionDeclaration fuel (declarationWith assign fuel)
    | _ => statementWith assign fuel

def statementWith (assign : Assigning) : Nat → Parse Stmt
  | 0 => failExpression
  | fuel + 1 => do
    match ← peekKind with
    | .se => ifStatement (expressionWith assign fuel) (statementWith assign fuel)
    | .mentre => whileStatement (expressionWith assign fuel) (statementWith assign fuel)
    | .ritorna => returnStatement (expressionWith assign fuel)
    | .leftBrace => blockStatement fuel (declarationWith assign fuel)
    | _ => expressionStatement (expressionWith assign fuel)

end

def programWith (assign : Assigning) (fuel : Nat) : Parse (List Stmt) :=
  declarations isAtEnd (declarationWith assign fuel) fuel

end Parser

/-- What `Program.parse` does, with another way to assign. -/
def Program.parseWith (assign : Parser.Assigning) (tokens : List Token) :
    Except (List CompileError) (List Stmt) :=
  match Parser.programWith assign (Parser.fuelFor tokens.length) (Parser.ofTokens tokens) with
  | .ok stmts p => if p.errors.isEmpty then .ok stmts else .error p.errors.toList
  | .error e p => .error (p.errors.push e).toList

namespace Parser

private theorem expression_unary_checked (fuel : Nat) :
    expressionWith checked fuel = expression fuel ∧ unaryWith checked fuel = unary fuel := by
  induction fuel with
  | zero => exact ⟨by rw [expressionWith, expression], by rw [unaryWith, unary]⟩
  | succ fuel ih =>
    obtain ⟨hexpression, hunary⟩ := ih
    constructor
    · have hstep := expressionWith.eq_2 checked fuel
      rw [hexpression, hunary] at hstep
      exact hstep.trans (expression.eq_2 fuel).symm
    · have hstep := unaryWith.eq_2 checked fuel
      rw [hexpression, hunary] at hstep
      exact hstep.trans (unary.eq_2 fuel).symm

private theorem declaration_statement_checked (fuel : Nat) :
    declarationWith checked fuel = declaration fuel ∧ statementWith checked fuel = statement fuel := by
  induction fuel with
  | zero => exact ⟨by rw [declarationWith, declaration], by rw [statementWith, statement]⟩
  | succ fuel ih =>
    obtain ⟨hdeclaration, hstatement⟩ := ih
    have hexpression := (expression_unary_checked fuel).1
    constructor
    · have hstep := declarationWith.eq_2 checked fuel
      rw [hexpression, hdeclaration, hstatement] at hstep
      exact hstep.trans (declaration.eq_2 fuel).symm
    · have hstep := statementWith.eq_2 checked fuel
      rw [hexpression, hdeclaration, hstatement] at hstep
      exact hstep.trans (statement.eq_2 fuel).symm

private theorem programWith_checked (fuel : Nat) : programWith checked fuel = program fuel := by
  rw [programWith, (declaration_statement_checked fuel).1, program]

end Parser

/-- The parser checks what it assigns to. -/
theorem Program.parseWith_checked (tokens : List Token) :
    parseWith Parser.checked tokens = parse tokens := by
  rw [parseWith, Parser.programWith_checked]
  rfl

end Copione
