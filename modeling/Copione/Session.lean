import Copione.Eval
import Copione.Program.Parse
import Copione.Token.Scan
/-!
# Sessions

Programs fed one after another to one machine. What one of them defines the next ones see,
and a failing program does not stop those after it.
-/
namespace Copione

inductive Failure where
  | scan (e : CompileError)
  | parse (errors : List CompileError)
  | run (signal : Signal)

def Failure.lines : Failure → List String
  | .scan e => [e.display]
  | .parse errors => errors.map CompileError.display
  | .run signal => [signal.display]

/-- What a program wrote, and why it stopped if it did. -/
structure Report where
  output : String
  failure : Option Failure

namespace Machine

/-- Does something on a machine and says what it wrote meanwhile. -/
def observe {α : Type} (m : Machine) (action : Eval α) : String × Except Signal α × Machine :=
  let count := m.output.writes.length
  let written (m : Machine) : String :=
    String.join (m.output.writes.take (m.output.writes.length - count)).reverse
  match action m with
  | .ok a m => (written m, .ok a, m)
  | .error e m => (written m, .error e, m)

def run (m : Machine) (stmts : List Stmt) : Report × Machine :=
  match m.observe (Eval.interpret Eval.lifetime stmts) with
  | (output, .ok _, m) => (⟨output, none⟩, m)
  | (output, .error signal, m) => (⟨output, some (.run signal)⟩, m)

/-- Runs the program that was scanned, if it could be and if it parses. -/
def feed (m : Machine) (scanned : Except ScanFailure (List Token)) : Report × Machine :=
  match scanned with
  | .error f => (⟨"", some (.scan f.error)⟩, m)
  | .ok tokens =>
    match Program.parse tokens with
    | .error errors => (⟨"", some (.parse errors)⟩, m)
    | .ok stmts => m.run stmts

end Machine
end Copione
