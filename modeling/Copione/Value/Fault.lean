import Copione.Diagnostic
import Copione.Value.Basic
/-!
# Faults

Why a running program stops: an error of its own, or a `ritorna` on its way to the call it
leaves.
-/
namespace Copione

inductive Fault where
  | undefinedVariable (name : String)
  | typeChanged (name : String) (held given : ValueType)
  | reservedWord (name : String)
  | cannotNegate (found : ValueType)
  | cannotCombine (op : BinaryOp) (left right : ValueType)
  | needsBooleans (op : LogicalOp) (found : ValueType)
  | notCallable (found : ValueType)
  | arityMismatch (name : String) (expected given : Nat)
  | noProperty (name : String) (found : ValueType)
  | emptyCondition
  | cannotConvert (value : Value) (target : ValueType)
  | outputFailed (reason : String)

namespace Fault

def kind : Fault → ErrorKind
  | .undefinedVariable _ | .typeChanged .. => .undefinedVariable
  | .reservedWord _ => .reservedKeyword
  | .cannotNegate _ | .cannotCombine .. | .needsBooleans .. | .cannotConvert .. =>
    .mismatchedType
  | .notCallable _ => .notCallable
  | .arityMismatch .. => .arityMismatch
  | .noProperty .. => .invalidPropertyAccess
  | .emptyCondition => .missingWhileCondition
  | .outputFailed _ => .outputFailed

def message : Fault → String
  | .undefinedVariable name => s!"undefined variable '{name}'"
  | .typeChanged name held given =>
    let (held, given) := (held.name, given.name)
    s!"cannot assign a value of type {given} to '{name}', which holds type {held}"
  | .reservedWord name => s!"'{name}' is a reserved word"
  | .cannotNegate found =>
    let found := found.name
    s!"cannot negate a value of type {found}"
  | .cannotCombine op left right =>
    let (op, left, right) := (op.kind.text, left.name, right.name)
    s!"operator '{op}' cannot be applied to {left} and {right}"
  | .needsBooleans op found =>
    let (op, found) := (op.kind.text, found.name)
    s!"operator '{op}' needs Booleano operands, found {found}"
  | .notCallable found =>
    let found := found.name
    s!"a value of type {found} is not callable"
  | .arityMismatch name expected given =>
    s!"'{name}' expects {expected} argument(s) but got {given}"
  | .noProperty name found =>
    let found := found.name
    s!"cannot access property '{name}' on a value of type {found}"
  | .emptyCondition => "'mentre' condition evaluated to niente"
  | .cannotConvert value target =>
    let (type, shown, target) := (value.type.name, value.display, target.name)
    s!"cannot convert {type} '{shown}' to {target}"
  | .outputFailed reason => s!"failed to write output: {reason}"

end Fault

/-- An error that stops a program, with its line once that is known. -/
structure RuntimeError where
  kind : ErrorKind
  message : String
  line : Option Nat
  deriving DecidableEq, Repr

namespace RuntimeError

def ofFault (f : Fault) : RuntimeError := ⟨f.kind, f.message, none⟩

def display (e : RuntimeError) : String :=
  match e.line with
  | some line => "runtime error: line " ++ toString line ++ ": " ++ e.message
  | none => "runtime error: " ++ e.message

end RuntimeError

/-- Why an evaluation ends before its value or its last statement. -/
inductive Signal where
  | error (e : RuntimeError)
  | returned (value : Value)
  /-- The steps granted to the evaluation are used up. -/
  | exhausted

namespace Signal

def atLine (line : Nat) : Signal → Signal
  | .error ⟨kind, message, none⟩ => .error ⟨kind, message, some line⟩
  | other => other

def error? : Signal → Option RuntimeError
  | .error e => some e
  | _ => none

def display : Signal → String
  | .error e => e.display
  | .returned _ => "return"
  | .exhausted => "out of steps"

end Signal
end Copione
