import Copione.Session
import Copione.Text.Blank
/-!
# The prompt

Lines are programs of one session. A line that looks like an expression is run as a call
that prints its value.
-/
namespace Copione.Prompt

def mark : String := "> "

def statementWords : List String :=
  ["variabile", "funzione", "se", "oppure", "mentre", "ritorna"]

def isWordChar (c : Char) : Bool := c.isAlphanum || c == '_' || c == '\x7b'

/-- Whether a line neither ends like a statement nor begins like one. -/
def isBareExpression (line : List Char) : Bool :=
  let word := line.takeWhile isWordChar
  line.getLast? != some ';' && line.getLast? != some '\x7d' &&
    !statementWords.contains (String.ofList word) && word.head? != some '\x7b'

/-- The program that a line stands for; blank lines stand for none. -/
def programOf? (line : String) : Option String :=
  let text := Text.trim line.toList
  if text.isEmpty then none
  else if isBareExpression text then some ("ScriveLina(" ++ String.ofList text ++ ");")
  else some (String.ofList text)

def turn (m : Machine) (line : String) : Report × Machine :=
  match programOf? line with
  | none => (⟨"", none⟩, m)
  | some text => m.feed (Token.scan text)

def unreadable : String := "read error: stream did not contain valid UTF-8"

/-- Bytes up to and with the next line feed, and the bytes after it. -/
def splitLine : List UInt8 → List UInt8 × List UInt8
  | [] => ([], [])
  | b :: rest =>
    if b == 10 then ([b], rest)
    else
      let (line, more) := splitLine rest
      (b :: line, more)

/-- Everything that a prompt shows while it reads `input`: on the one hand the output with
the marks, on the other hand the errors. The input ends the prompt, or a line that is not
text. -/
def converse : Nat → Machine → List UInt8 → List String × List String
  | 0, _, _ => ([], [])
  | fuel + 1, m, input =>
    match splitLine input with
    | ([], _) => ([mark], [])
    | (line, rest) =>
      match String.fromUTF8? ⟨line.toArray⟩ with
      | none => ([mark], [unreadable])
      | some text =>
        let (report, m) := turn m text
        let errors := (report.failure.map Failure.lines).getD []
        let (shown, more) := converse fuel m rest
        (mark :: report.output :: shown, errors ++ more)

def session (m : Machine) (input : List UInt8) : List String × List String :=
  converse (input.length + 1) m input

end Copione.Prompt
