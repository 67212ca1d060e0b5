import Copione.CommandLine
import Std.Time.DateTime.Timestamp
/-!
# The executable

Reads files and lines, and writes what the command line and the prompt answer.
-/
namespace Copione.Main

/-- What an error of the operating system says about a path. Some calls give its number
negated. -/
def entryOfCode (code : UInt32) (details : String) : FileEntry :=
  let number := (if code < 0x80000000 then code else -code).toNat
  match PathFault.ofNumber? number with
  | some fault => fault.entry
  | none => .unopenable (FileEntry.systemError details.capitalize number) false

def entryOfError : IO.Error → FileEntry
  | .noFileOrDirectory _ code details | .noSuchThing _ code details
  | .inappropriateType _ code details | .invalidArgument _ code details
  | .permissionDenied _ code details | .resourceExhausted _ code details =>
    entryOfCode code details
  | e => .unopenable (toString e) false

def readEntry (path : String) : IO FileEntry := do
  try
    return .contents (← IO.FS.readBinFile path).toList
  catch e => return entryOfError e

/-- The clock of a run: the time of its start, and a little more at each reading. -/
def startClock : IO (Nat → Float) := do
  let start := (← Std.Time.Timestamp.now).toMillisecondsSinceUnixEpoch.val
  return fun reading => Binary.ofInt start + Binary.ofRatio false reading 1000

/-- Reads on to the next line feed. -/
partial def readLine (input : IO.FS.Stream) (line : ByteArray) : IO ByteArray := do
  let byte ← input.read 1
  if byte.isEmpty then return line
  if byte.toList == [10] then return line ++ byte
  readLine input (line ++ byte)

partial def converse (m : Machine) (input output errors : IO.FS.Stream) : IO Unit := do
  output.putStr Prompt.mark
  output.flush
  let line ← readLine input .empty
  if line.isEmpty then return
  match String.fromUTF8? line with
  | none => errors.putStrLn Prompt.unreadable
  | some text =>
    let (report, m) := Prompt.turn m text
    output.putStr report.output
    output.flush
    errors.putStr (CommandLine.lines ((report.failure.map Failure.lines).getD []))
    converse m input output errors

def finish (o : Outcome) (output errors : IO.FS.Stream) : IO UInt32 := do
  output.putStr o.stdout
  output.flush
  errors.putStr o.stderr
  return o.code.toUInt32

end Copione.Main

def main (args : List String) : IO UInt32 := do
  let (input, output, errors) := (← IO.getStdin, ← IO.getStdout, ← IO.getStderr)
  let clock ← Copione.Main.startClock
  match Copione.CommandLine.plan args with
  | .done o => Copione.Main.finish o output errors
  | .file o path =>
    let entry ← Copione.Main.readEntry path
    Copione.Main.finish (Copione.CommandLine.runFile o clock path entry) output errors
  | .prompt =>
    Copione.Main.converse (Copione.Machine.start .unlimited clock) input output errors
    return 0
