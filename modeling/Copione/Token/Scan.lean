import Copione.Decimal.Numeral
import Copione.Diagnostic
import Copione.Source.Cursor
import Copione.Source.Window
import Copione.Token.Basic
/-!
# Scanning

The tokens of a source, up to the first character that cannot begin or continue one. A
scanner keeps its tokens and its place when it fails, so it can be asked to go on.
-/
namespace Copione

inductive ScanFault where
  | unexpectedCharacter (c : Char)
  | unterminatedString
  | malformedNumber (lexeme : String)
  | source (e : SourceError)
  deriving DecidableEq, Repr

namespace ScanFault

def kind : ScanFault → ErrorKind
  | .unexpectedCharacter _ => .unexpectedCharacter
  | .unterminatedString => .unterminatedString
  | .malformedNumber _ => .malformedNumericLiteral
  | .source (.tokenTooLong ..) => .tokenTooLong
  | .source (.unreadable _) => .sourceUnreadable

def message : ScanFault → String
  | .unexpectedCharacter c => s!"unexpected character '{c}'"
  | .unterminatedString => "unterminated string"
  | .malformedNumber lexeme => s!"malformed numeric literal '{lexeme}'"
  | .source e => e.message

/-- The fault as a diagnostic about `len` bytes from `offset`. -/
def report (f : ScanFault) (offset len line : Nat) : CompileError :=
  .scan f.kind f.message line ⟨offset, len, line⟩

end ScanFault

structure Scanner (σ : Type) where
  source : σ
  /-- Tokens that no successful scan has returned yet. -/
  tokens : Array Token
  line : Nat
  /-- The line on which the token being read began. -/
  tokenLine : Nat

abbrev Scan (σ : Type) := EStateM CompileError (Scanner σ)

/-- Kinds of the characters that are always a token of their own. -/
def TokenKind.single? : Char → Option TokenKind
  | '(' => some .leftParen
  | ')' => some .rightParen
  | '\x7b' => some .leftBrace
  | '\x7d' => some .rightBrace
  | ',' => some .comma
  | '.' => some .dot
  | ';' => some .semicolon
  | '+' => some .plus
  | '*' => some .star
  | '/' => some .slash
  | '@' => some .atSign
  | _ => none

/-- For a character that a second one may join: that second one, and the kinds of the token
without and with it. -/
def TokenKind.double? : Char → Option (Char × TokenKind × TokenKind)
  | '!' => some ('=', .bang, .bangEqual)
  | '=' => some ('=', .equal, .equalEqual)
  | '<' => some ('=', .less, .lessEqual)
  | '>' => some ('=', .greater, .greaterEqual)
  | '&' => some ('&', .ampersand, .ampersandAmpersand)
  | '|' => some ('|', .pipe, .pipePipe)
  | '^' => some ('^', .caret, .caretCaret)
  | _ => none

namespace Scanner

variable {σ : Type} [Source σ]

def ofSource (source : σ) : Scanner σ := ⟨source, #[], 1, 1⟩

def isNameStart (c : Char) : Bool := c.isAlpha || c == '_'

def isNamePart (c : Char) : Bool := c.isAlphanum || c == '_'

/-- Asks the source. Its failures are reported at the token being read. -/
def ask {α : Type} (question : EStateM SourceError σ α) : Scan σ α := fun s =>
  match question s.source with
  | .ok answer source => .ok answer { s with source }
  | .error e source =>
    .error ((ScanFault.source e).report (Source.tokenOffset source) 1 s.tokenLine) { s with source }

def startToken : Scan σ Unit :=
  modify fun s => { s with source := Source.startToken s.source }

def currentLexeme : Scan σ String :=
  modifyGet fun s =>
    let (text, source) := Source.currentToken s.source
    (text, { s with source })

def emit (kind : TokenKind) (literal : Option Literal) : Scan σ Unit := do
  let lexeme ← currentLexeme
  modify fun s =>
    let span := ⟨Source.tokenOffset s.source, lexeme.utf8ByteSize, s.tokenLine⟩
    { s with tokens := s.tokens.push ⟨kind, lexeme, literal, span⟩ }

def reject {α : Type} (fault : ScanFault) : Scan σ α := do
  let lexeme ← currentLexeme
  let s ← get
  throw (fault.report (Source.tokenOffset s.source) (max lexeme.utf8ByteSize 1) s.tokenLine)

/-- Takes characters while they satisfy `p`, and shows the one that does not. -/
def skipWhile (p : Char → Bool) : Nat → Scan σ (Option Char)
  | 0 => pure none
  | fuel + 1 => do
    match ← ask Source.peek with
    | none => return none
    | some c =>
      if p c then
        discard (ask Source.advance)
        skipWhile p fuel
      else return some c

/-- The rest of the line is no token, and each of its characters is released at once. -/
def comment : Nat → Scan σ Unit
  | 0 => pure ()
  | fuel + 1 => do
    match ← ask Source.peek with
    | none | some '\n' => return
    | some _ =>
      discard (ask Source.advance)
      startToken
      comment fuel

def string (fuel : Nat) : Scan σ Unit := do
  match ← skipWhile (fun c => c != '"' && c != '\n') fuel with
  | some '"' =>
    discard (ask Source.advance)
    let lexeme ← currentLexeme
    emit .string (some (.str (String.ofList (lexeme.toList.drop 1).dropLast)))
  | _ => reject .unterminatedString

def number (fuel : Nat) : Scan σ Unit := do
  let stop ← skipWhile Numeral.isDigit fuel
  let isFloat ←
    if stop == some '.' then
      let next ← ask Source.peekNext
      pure (next.any Numeral.isDigit)
    else pure false
  if isFloat then
    discard (ask Source.advance)
    discard (skipWhile Numeral.isDigit fuel)
    let digits := (← currentLexeme).toList
    let whole := digits.takeWhile Numeral.isDigit
    let fraction := (digits.dropWhile Numeral.isDigit).drop 1
    emit .float (some (.float (Numeral.toFloat false whole fraction)))
  else
    let lexeme ← currentLexeme
    match Numeral.toInt64? false lexeme.toList with
    | some n => emit .integer (some (.int n))
    | none => reject (.malformedNumber lexeme)

def word (fuel : Nat) : Scan σ Unit := do
  discard (skipWhile isNamePart fuel)
  let lexeme ← currentLexeme
  match TokenKind.keyword? lexeme with
  | some kind => emit kind none
  | none => emit .identifier (some (.str lexeme))

def oneOrTwo (second : Char) (single double : TokenKind) : Scan σ Unit := do
  let joined ← ask (Source.advanceIf second)
  emit (if joined.isSome then double else single) none

/-- Reads the rest of what `c` begins; `fuel` exceeds the number of characters to come. -/
def dispatch (fuel : Nat) (c : Char) : Scan σ Unit := do
  if c == ' ' || c == '\t' || c == '\r' then return
  if c == '\n' then
    modify fun s => { s with line := s.line + 1 }
    return
  if let some kind := TokenKind.single? c then
    emit kind none
  else if let some (second, single, double) := TokenKind.double? c then
    oneOrTwo second single double
  else if c == '-' then
    if (← ask (Source.advanceIf '-')).isSome then comment fuel else emit .minus none
  else if c == '"' then string fuel
  else if Numeral.isDigit c then number fuel
  else if isNameStart c then word fuel
  else reject (.unexpectedCharacter c)

def scanToken (fuel : Nat) : Scan σ Unit := do
  match ← ask Source.advance with
  | none => return
  | some c => dispatch fuel c

def scanUpTo : Nat → Scan σ Unit
  | 0 => pure ()
  | fuel + 1 => do
    startToken
    if ← ask Source.isAtEnd then return
    modify fun s => { s with tokenLine := s.line }
    scanToken fuel
    scanUpTo fuel

/-- Reads to the end of the source and hands over the tokens, the last of which marks the
end. -/
def scanTokens : Scan σ (List Token) := do
  scanUpTo (Source.remaining (← get).source + 1)
  let s ← get
  let tokens := s.tokens.push ⟨.eof, "", none, ⟨Source.tokenOffset s.source, 0, s.line⟩⟩
  set { s with tokens := #[] }
  return tokens.toList

end Scanner

/-- How a scan ended, with the tokens that were read before a failure. -/
structure ScanFailure where
  error : CompileError
  /-- `none` if there was no source to read from. -/
  held : Option (List Token)

namespace Token

def scanSource {σ : Type} [Source σ] (source : σ) : Except ScanFailure (List Token) :=
  match Scanner.scanTokens (Scanner.ofSource source) with
  | .ok tokens _ => .ok tokens
  | .error error s => .error ⟨error, some s.tokens.toList⟩

def scan (text : String) : Except ScanFailure (List Token) :=
  scanSource (Cursor.ofText text.toList)

/-- The tokens of a stream, read through a window of `capacity` characters. -/
def scanReader (reader : Reader) (capacity : Nat) : Except ScanFailure (List Token) :=
  match Window.open? reader capacity with
  | .ok window => scanSource window
  | .error e => .error ⟨(ScanFault.source e).report 0 1 1, none⟩

end Token
end Copione
