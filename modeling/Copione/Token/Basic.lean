import Copione.Decimal.Layout
import Copione.Span
import Copione.Text.Quoted
/-!
# Tokens

The words of the Giosue language, and how a token is shown.
-/
namespace Copione

inductive TokenKind where
  | leftParen
  | rightParen
  | leftBrace
  | rightBrace
  | comma
  | dot
  | minus
  | plus
  | semicolon
  | slash
  | star
  | atSign
  | bang
  | bangEqual
  | equal
  | equalEqual
  | greater
  | greaterEqual
  | less
  | lessEqual
  | ampersand
  | ampersandAmpersand
  | pipe
  | pipePipe
  | caret
  | caretCaret
  | identifier
  | string
  | integer
  | float
  | se
  | oppure
  | mentre
  | vero
  | falso
  | niente
  | variabile
  | funzione
  | ritorna
  | questo
  | super
  | eof
  deriving DecidableEq, Repr

namespace TokenKind

def table : List (TokenKind × String × String) :=
  [(.leftParen, "LeftParen", "("), (.rightParen, "RightParen", ")"),
    (.leftBrace, "LeftBrace", "\x7b"), (.rightBrace, "RightBrace", "\x7d"),
    (.comma, "Comma", ","), (.dot, "Dot", "."), (.minus, "Minus", "-"), (.plus, "Plus", "+"),
    (.semicolon, "Semicolon", ";"), (.slash, "Slash", "/"), (.star, "Star", "*"),
    (.atSign, "At", "@"), (.bang, "Bang", "!"), (.bangEqual, "BangEqual", "!="),
    (.equal, "Equal", "="), (.equalEqual, "EqualEqual", "=="), (.greater, "Greater", ">"),
    (.greaterEqual, "GreaterEqual", ">="), (.less, "Less", "<"),
    (.lessEqual, "LessEqual", "<="), (.ampersand, "Ampersand", "&"),
    (.ampersandAmpersand, "AmpersandAmpersand", "&&"), (.pipe, "Pipe", "|"),
    (.pipePipe, "PipePipe", "||"), (.caret, "Caret", "^"), (.caretCaret, "CaretCaret", "^^"),
    (.identifier, "Identifier", "IDENTIFIER"), (.string, "String", "STRING"),
    (.integer, "Integer", "INTEGER"), (.float, "Float", "FLOAT"), (.se, "Se", "se"),
    (.oppure, "Oppure", "oppure"), (.mentre, "Mentre", "mentre"), (.vero, "Vero", "vero"),
    (.falso, "Falso", "falso"), (.niente, "Niente", "niente"),
    (.variabile, "Variabile", "variabile"), (.funzione, "Funzione", "funzione"),
    (.ritorna, "Ritorna", "ritorna"), (.questo, "Questo", "questo"), (.super, "Super", "super"),
    (.eof, "Eof", "EOF")]

def row (k : TokenKind) : String × String := (table.lookup k).getD ("", "")

def name (k : TokenKind) : String := k.row.1

/-- The spelling of a fixed token, the name of a class of tokens in capitals. -/
def text (k : TokenKind) : String := k.row.2

def ofName? (name : String) : Option TokenKind :=
  (table.find? (·.2.1 == name)).map (·.1)

def keywords : List TokenKind :=
  [.se, .oppure, .mentre, .vero, .falso, .niente, .variabile, .funzione, .ritorna, .questo,
    .super]

def keyword? (word : String) : Option TokenKind := keywords.find? (·.text == word)

end TokenKind

def isReserved (word : String) : Bool := (TokenKind.keyword? word).isSome

/-- What a literal token or a name stands for. -/
inductive Literal where
  | int (n : Int64)
  | float (x : Float)
  | str (s : String)
  deriving DecidableEq

namespace Literal

/-- Positional from `0.0001` up to below `10 ^ 16`. -/
def floatStyle : FloatStyle :=
  { tie := .up, positional := some (-4, 16), plus := false, infinity := "inf", nan := "NaN" }

def display : Literal → String
  | .int n => toString n
  | .float x => floatStyle.write x
  | .str s => Text.quote s.toList

end Literal

structure Token where
  kind : TokenKind
  lexeme : String
  literal : Option Literal
  span : Span
  deriving DecidableEq

namespace Token

def line (t : Token) : Nat := t.span.line

def display (t : Token) : String :=
  let (kind, lexeme, line) := (t.kind.name, t.lexeme, t.line)
  let literal :=
    match t.literal with
    | some l => " = " ++ l.display
    | none => ""
  s!"{kind} '{lexeme}'{literal} line {line}"

end Token
end Copione
