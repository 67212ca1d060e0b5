import Copione.Span
/-!
# Diagnostics

The kinds of error, the families they fall into, and what a program that does not scan or
parse is told.
-/
namespace Copione

inductive Category where
  | lexical
  | syntactic
  | scoping
  | running
  deriving DecidableEq, Repr

namespace Category

def name : Category → String
  | .lexical => "Lexical"
  | .syntactic => "Syntax"
  | .scoping => "Scoping"
  | .running => "Runtime"

def returnCode : Category → Nat
  | .lexical => 3
  | .syntactic => 4
  | .scoping | .running => 5

end Category

inductive ErrorKind where
  | unexpectedCharacter
  | unterminatedString
  | tokenTooLong
  | malformedNumericLiteral
  | sourceUnreadable
  | expectedToken
  | expectedExpression
  | invalidAssignmentTarget
  | returnOutsideFunction
  | undefinedVariable
  | reservedKeyword
  | mismatchedType
  | notCallable
  | missingWhileCondition
  | arityMismatch
  | invalidPropertyAccess
  | outputFailed
  deriving DecidableEq, Repr

namespace ErrorKind

def all : List ErrorKind :=
  [.unexpectedCharacter, .unterminatedString, .tokenTooLong, .malformedNumericLiteral,
    .sourceUnreadable, .expectedToken, .expectedExpression, .invalidAssignmentTarget,
    .returnOutsideFunction, .undefinedVariable, .reservedKeyword, .mismatchedType, .notCallable,
    .missingWhileCondition, .arityMismatch, .invalidPropertyAccess, .outputFailed]

def name : ErrorKind → String
  | .unexpectedCharacter => "UnexpectedCharacter"
  | .unterminatedString => "UnterminatedString"
  | .tokenTooLong => "TokenTooLong"
  | .malformedNumericLiteral => "MalformedNumericLiteral"
  | .sourceUnreadable => "SourceUnreadable"
  | .expectedToken => "ExpectedToken"
  | .expectedExpression => "ExpectedExpression"
  | .invalidAssignmentTarget => "InvalidAssignmentTarget"
  | .returnOutsideFunction => "ReturnOutsideFunction"
  | .undefinedVariable => "UndefinedVariable"
  | .reservedKeyword => "ReservedKeyword"
  | .mismatchedType => "MismatchedType"
  | .notCallable => "NotCallable"
  | .missingWhileCondition => "MissingWhileCondition"
  | .arityMismatch => "ArityMismatch"
  | .invalidPropertyAccess => "InvalidPropertyAccess"
  | .outputFailed => "OutputFailed"

def ofName? (name : String) : Option ErrorKind := all.find? (·.name == name)

def category : ErrorKind → Category
  | .unexpectedCharacter | .unterminatedString | .tokenTooLong | .malformedNumericLiteral
  | .sourceUnreadable => .lexical
  | .expectedToken | .expectedExpression | .invalidAssignmentTarget
  | .returnOutsideFunction => .syntactic
  | .undefinedVariable | .reservedKeyword => .scoping
  | .mismatchedType | .notCallable | .missingWhileCondition | .arityMismatch
  | .invalidPropertyAccess | .outputFailed => .running

end ErrorKind

inductive Stage where
  | scan
  | parse
  deriving DecidableEq, Repr

namespace Stage

def name : Stage → String
  | .scan => "scan"
  | .parse => "parse"

def code (s : Stage) : String := "giosue::" ++ s.name

/-- The stage alone decides the exit status: an empty loop condition that the parser finds
is of a runtime kind and still a parser's failure. -/
def returnCode : Stage → Nat
  | .scan => 3
  | .parse => 4

end Stage

/-- Why a program cannot be run. -/
structure CompileError where
  stage : Stage
  kind : ErrorKind
  message : String
  line : Nat
  span : Span
  deriving DecidableEq, Repr

namespace CompileError

def scan (kind : ErrorKind) (message : String) (line : Nat) (span : Span) : CompileError :=
  ⟨.scan, kind, message, line, span⟩

/-- A parser's error is on the line of its span. -/
def parse (kind : ErrorKind) (message : String) (span : Span) : CompileError :=
  ⟨.parse, kind, message, span.line, span⟩

def display (e : CompileError) : String :=
  let (stage, line, message) := (e.stage.name, e.line, e.message)
  s!"{stage} error: line {line}: {message}"

end CompileError
end Copione
