import Copione.FileTree
import Copione.Program.Json
import Copione.Program.Sexp
import Copione.Prompt
/-!
# The command line

What the program does for given arguments, files and input: its exit status and what it
writes.
-/
namespace Copione

inductive TreeFormat where
  | sexp
  | json
  deriving DecidableEq, Repr

structure Options where
  file : Option String := none
  dumpTokens : Bool := false
  dumpAst : Bool := false
  format : Option TreeFormat := none
  bufferSize : Option Nat := none
  deriving DecidableEq, Repr

namespace Options

/-- Sets a value that may be given only once. -/
def once {α : Type} (old : Option α) (new : Option α) : Option (Option α) :=
  if old.isSome || new.isNone then none else some new

def format? : String → Option TreeFormat
  | "sexp" => some .sexp
  | "json" => some .json
  | _ => none

/-- Reads a number of at most 64 bits, with an optional plus sign. -/
def number? (s : String) : Option Nat :=
  let digits :=
    match s.toList with
    | '+' :: rest => rest
    | cs => cs
  let n := Numeral.toNat digits
  if !digits.isEmpty && digits.all Numeral.isDigit && n < UInt64.size then some n else none

def withFile (o : Options) (path : String) : Option Options := do
  let file ← once o.file (if path.isEmpty then none else some path)
  return { o with file }

def withFormat (o : Options) (value : String) : Option Options := do
  let format ← once o.format (format? value)
  return { o with format }

def withBufferSize (o : Options) (value : String) : Option Options := do
  let bufferSize ← once o.bufferSize (number? value)
  return { o with bufferSize }

def isOption (arg : String) : Bool := arg.toList.head? == some '-' && arg != "-"

def splitValue (arg : String) : String × Option String :=
  let name := arg.toList.takeWhile (· != '=')
  match arg.toList.dropWhile (· != '=') with
  | [] => (arg, none)
  | _ :: value => (String.ofList name, some (String.ofList value))

def setValue (o : Options) (name value : String) : Option Options :=
  if name == "--ast-format" then o.withFormat value
  else if name == "--buffer-size" then o.withBufferSize value
  else none

def setFlag (o : Options) (name : String) : Option Options :=
  if name == "--dump-tokens" && !o.dumpTokens then some { o with dumpTokens := true }
  else if name == "--dump-ast" && !o.dumpAst then some { o with dumpAst := true }
  else none

/-- Takes the arguments one by one; `none` if one of them makes no sense. -/
def parseFrom (o : Options) : List String → Option Options
  | [] => some o
  | arg :: rest =>
    if arg == "--" then rest.foldlM withFile o
    else if !isOption arg then do parseFrom (← o.withFile arg) rest
    else
      match splitValue arg with
      | (name, some value) => do parseFrom (← o.setValue name value) rest
      | (name, none) =>
        match o.setFlag name with
        | some o => parseFrom o rest
        | none =>
          match rest with
          | [] => none
          | value :: rest => if isOption value then none else do parseFrom (← o.setValue name value) rest

def parse? (args : List String) : Option Options := parseFrom {} args

end Options

/-- Exit status and what was written. -/
structure Outcome where
  code : Nat
  stdout : String
  stderr : String
  deriving DecidableEq, Repr

namespace CommandLine

def lines (texts : List String) : String := String.join (texts.map (· ++ "\n"))

def failure (code : Nat) (message : String) : Outcome := ⟨code, "", "error: " ++ message ++ "\n"⟩

def usage : String :=
  "usage: giosue [--dump-tokens] [--dump-ast] [--ast-format sexp|json] [--buffer-size CHARS] [FILE]"

/-- Tokens on a line each, with a blank line between those of different lines. -/
def tokenLines : List Token → List String
  | [] => []
  | [t] => [t.display]
  | t :: next :: rest =>
    let more := tokenLines (next :: rest)
    t.display :: if t.line == next.line then more else "" :: more

def compileCode (errors : List CompileError) : Nat :=
  match errors with
  | e :: _ => e.stage.returnCode
  | [] => 1

def rejected (stdout : String) (errors : List CompileError) : Outcome :=
  ⟨compileCode errors, stdout, lines (errors.map CompileError.display)⟩

def process (o : Options) (clock : Nat → Float) (scanned : Except ScanFailure (List Token)) :
    Outcome :=
  match scanned with
  | .error f =>
    let dump := if o.dumpTokens then lines (tokenLines (f.held.getD [])) else ""
    rejected dump [f.error]
  | .ok tokens =>
    if o.dumpTokens then ⟨0, lines (tokenLines tokens), ""⟩
    else
      match Program.parse tokens with
      | .error errors => rejected "" errors
      | .ok stmts =>
        if o.dumpAst then
          match o.format with
          | some .json => ⟨0, Program.toJson stmts ++ "\n", ""⟩
          | _ => ⟨0, Program.toSexp stmts, ""⟩
        else
          let (report, _) := (Machine.start .unlimited clock).run stmts
          match report.failure with
          | none => ⟨0, report.output, ""⟩
          | some f => ⟨5, report.output, lines f.lines⟩

/-- A file that is read as a whole and must be UTF-8. -/
def runWhole (o : Options) (clock : Nat → Float) (path : String) (entry : FileEntry) : Outcome :=
  let context := "read source file '" ++ path ++ "': "
  match entry with
  | .unopenable reason missing => failure (if missing then 2 else 1) (context ++ reason)
  | .unreadable reason => failure 1 (context ++ reason)
  | .contents bytes =>
    match String.fromUTF8? ⟨bytes.toArray⟩ with
    | none => failure 1 (context ++ "stream did not contain valid UTF-8")
    | some text => process o clock (Token.scan text)

def oversized : Outcome := ⟨101, "", "capacity overflow\n"⟩

/-- A file that is read through a window. The file is opened before the buffer is made, and
read after that. -/
def runWindowed (o : Options) (clock : Nat → Float) (path : String) (capacity : Nat)
    (entry : FileEntry) : Outcome :=
  let context := "read source file '" ++ path ++ "': "
  match entry, decide (Window.largestCapacity < capacity) with
  | .unopenable reason missing, _ =>
    failure (if missing then 2 else 1) ("open source file '" ++ path ++ "': " ++ reason)
  | _, true => oversized
  | .unreadable reason, false =>
    failure 1 (context ++ (SourceError.unreadable reason).message ++ ": " ++ reason)
  | .contents bytes, false => process o clock (Token.scanReader (Reader.ofBytes bytes) capacity)

def runFile (o : Options) (clock : Nat → Float) (path : String) (entry : FileEntry) : Outcome :=
  match o.bufferSize with
  | none => runWhole o clock path entry
  | some capacity => runWindowed o clock path capacity entry

def needsFile (o : Options) : Bool := o.dumpTokens || o.dumpAst

def fileRequired : Outcome :=
  failure 1 "a source file is required for --dump-tokens and --dump-ast"

def misused : Outcome := failure 2 usage

inductive Task where
  | done (o : Outcome)
  | file (o : Options) (path : String)
  | prompt

def plan (args : List String) : Task :=
  match Options.parse? args with
  | none => .done misused
  | some o =>
    match o.file with
    | some path => .file o path
    | none => if needsFile o then .done fileRequired else .prompt

/-- The whole program: arguments, the files it may look up, and its standard input. -/
def run (args : List String) (files : String → FileEntry) (input : List UInt8)
    (clock : Nat → Float) : Outcome :=
  match plan args with
  | .done o => o
  | .file o path => runFile o clock path (files path)
  | .prompt =>
    let (shown, errors) := Prompt.session (Machine.start .unlimited clock) input
    ⟨0, String.join shown, lines errors⟩

end CommandLine
end Copione
