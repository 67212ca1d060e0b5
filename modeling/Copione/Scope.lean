import Copione.Value.Fault
/-!
# Scopes

Names are bound in scopes, and a scope may lie inside another one. Scopes live in a table,
so that functions and blocks share them by number. A scope is made after the one around it,
which is why every chain of scopes ends.
-/
namespace Copione

structure Scope where
  bindings : List (String × Value)
  enclosing : Option ScopeId

namespace Scope

def empty : Scope := ⟨[], none⟩

/-- The outermost scope of a program: the built-in functions under their names. -/
def globals : Scope := ⟨Builtin.all.map fun b => (b.name, .function (.builtin b)), none⟩

def inside (parent : ScopeId) : Scope := ⟨[], some parent⟩

def find? (s : Scope) (name : String) : Option Value := s.bindings.lookup name

def insertBinding (name : String) (value : Value) :
    List (String × Value) → List (String × Value)
  | [] => [(name, value)]
  | (key, held) :: rest =>
    if key == name then (key, value) :: rest
    else (key, held) :: insertBinding name value rest

def insert (s : Scope) (name : String) (value : Value) : Scope :=
  { s with bindings := insertBinding name value s.bindings }

end Scope

/-- All scopes of a run, in order of creation. -/
structure Scopes where
  table : Array Scope

namespace Scopes

/-- Adds a scope; its number is the former size of the table. -/
def push (s : Scopes) (scope : Scope) : Scopes := ⟨s.table.push scope⟩

def next (s : Scopes) : ScopeId := s.table.size

def chainUpTo (s : Scopes) : Nat → ScopeId → List ScopeId
  | 0, _ => []
  | fuel + 1, id =>
    match s.table[id]? with
    | none => []
    | some scope =>
      match scope.enclosing with
      | none => [id]
      | some parent => id :: chainUpTo s fuel parent

/-- A scope and those around it, from the inside out. -/
def chain (s : Scopes) (id : ScopeId) : List ScopeId := s.chainUpTo (id + 1) id

def bound? (s : Scopes) (id : ScopeId) (name : String) : Option Value :=
  s.table[id]?.bind (·.find? name)

/-- The innermost scope that binds a name, with the value there. -/
def nearest? (s : Scopes) (id : ScopeId) (name : String) : Option (ScopeId × Value) :=
  (s.chain id).findSome? fun i => (s.bound? i name).map (i, ·)

def bind (s : Scopes) (id : ScopeId) (name : String) (value : Value) : Scopes :=
  ⟨s.table.modify id (·.insert name value)⟩

def checkName (name : String) : Except Fault Unit :=
  if isReserved name then .error (.reservedWord name) else .ok ()

/-- The scope whose binding an assignment changes: the innermost one that binds the name.
Only `niente` gives way to a value of another type. -/
def assignee (s : Scopes) (id : ScopeId) (name : String) (value : Value) :
    Except Fault ScopeId :=
  match s.nearest? id name with
  | some (owner, held) =>
    if held.type == .null || held.sameType value then .ok owner
    else .error (.typeChanged name held.type value.type)
  | none => .error (.undefinedVariable name)

def define (s : Scopes) (id : ScopeId) (name : String) (value : Value) : Except Fault Scopes :=
  (checkName name).map fun _ => s.bind id name value

def get (s : Scopes) (id : ScopeId) (name : String) : Except Fault Value :=
  match s.nearest? id name with
  | some (_, value) => .ok value
  | none => .error (.undefinedVariable name)

def assign (s : Scopes) (id : ScopeId) (name : String) (value : Value) : Except Fault Scopes :=
  (s.assignee id name value).map fun owner => s.bind owner name value

end Scopes
end Copione
