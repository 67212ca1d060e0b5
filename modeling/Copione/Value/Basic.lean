import Copione.Program.Basic
/-!
# Values

What expressions evaluate to. Functions are the built-in ones and those that a program
declares; a declared one remembers the scope of its declaration.
-/
namespace Copione

inductive Builtin where
  | scrive
  | scriveLina
  | tipoDiDato
  | trasformaInIntero
  | trasformaInVirgola
  | trasformaInBool
  | trasformaInStringa
  | tempoMillis
  deriving DecidableEq, Repr

namespace Builtin

def all : List Builtin :=
  [.scrive, .scriveLina, .tipoDiDato, .trasformaInIntero, .trasformaInVirgola, .trasformaInBool,
    .trasformaInStringa, .tempoMillis]

def name : Builtin → String
  | .scrive => "Scrive"
  | .scriveLina => "ScriveLina"
  | .tipoDiDato => "TipoDiDato"
  | .trasformaInIntero => "TrasformaInIntero"
  | .trasformaInVirgola => "TrasformaInVirgola"
  | .trasformaInBool => "TrasformaInBool"
  | .trasformaInStringa => "TrasformaInStringa"
  | .tempoMillis => "TempoMillis"

def ofName? (name : String) : Option Builtin := all.find? (·.name == name)

def arity : Builtin → Nat
  | .tempoMillis => 0
  | _ => 1

end Builtin

/-- The place of a scope in the table of scopes. -/
abbrev ScopeId := Nat

/-- A function declared with `funzione`. Each execution of a declaration makes a function of
its own, told apart by its serial number. -/
structure Closure where
  serial : Nat
  name : String
  params : List String
  body : List Stmt
  scope : ScopeId

inductive Callable where
  | builtin (b : Builtin)
  | closure (c : Closure)

namespace Callable

def name : Callable → String
  | .builtin b => b.name
  | .closure c => c.name

def arity : Callable → Nat
  | .builtin b => b.arity
  | .closure c => c.params.length

def same : Callable → Callable → Bool
  | .builtin a, .builtin b => a == b
  | .closure a, .closure b => a.serial == b.serial
  | _, _ => false

def display (f : Callable) : String := "<funzione " ++ f.name ++ ">"

end Callable

inductive Value where
  | null
  | bool (b : Bool)
  | int (n : Int64)
  | float (x : Float)
  | str (s : String)
  | function (f : Callable)

inductive ValueType where
  | null
  | bool
  | int
  | float
  | str
  | function
  deriving DecidableEq, Repr

def ValueType.name : ValueType → String
  | .null => "Niente"
  | .bool => "Booleano"
  | .int => "Intero"
  | .float => "Virgola"
  | .str => "Stringa"
  | .function => "Funzione"

namespace Value

def ofConstant : Constant → Value
  | .null => .null
  | .bool b => .bool b
  | .int n => .int n
  | .float x => .float x
  | .str s => .str s

def type : Value → ValueType
  | .null => .null
  | .bool _ => .bool
  | .int _ => .int
  | .float _ => .float
  | .str _ => .str
  | .function _ => .function

def sameType (a b : Value) : Bool := a.type == b.type

/-- Only `falso` is not true. -/
def isTruthy : Value → Bool
  | .bool b => b
  | _ => true

/-- Values of different types are never equal. -/
def equals : Value → Value → Bool
  | .null, .null => true
  | .bool a, .bool b => a == b
  | .int a, .int b => a == b
  | .float a, .float b => a == b
  | .str a, .str b => a == b
  | .function a, .function b => a.same b
  | _, _ => false

def floatStyle : FloatStyle :=
  { tie := .up, positional := none, plus := false, infinity := "inf", nan := "NaN" }

def display : Value → String
  | .null => "niente"
  | .bool b => if b then "vero" else "falso"
  | .int n => toString n
  | .float x => floatStyle.write x
  | .str s => s
  | .function f => f.display

end Value
end Copione
