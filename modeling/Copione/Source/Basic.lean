import Copione.Text.Quoted
/-!
# Character sources

A source hands out characters one at a time, lets the next two be seen before they are
taken, and remembers where the token being read began. Sources that read from a device can
fail, and keep their state when they do.
-/
namespace Copione

inductive SourceError where
  | tokenTooLong (capacity : Nat) (start : List Char)
  | unreadable (reason : String)
  deriving DecidableEq, Repr

def SourceError.message : SourceError → String
  | .tokenTooLong capacity start =>
    let quoted := Text.quote start
    s!"token too long: exceeds the {capacity}-character buffer (starts with {quoted})"
  | .unreadable reason => s!"failed to read source: {reason}"

class Source (σ : Type) where
  /-- Takes the next character, if there is one. -/
  advance : EStateM SourceError σ (Option Char)
  peek : EStateM SourceError σ (Option Char)
  /-- The character after the one that `peek` shows. -/
  peekNext : EStateM SourceError σ (Option Char)
  /-- The text taken since the token began. -/
  currentToken : σ → String × σ
  /-- Begins a new token at the next character. -/
  startToken : σ → σ
  /-- Where the current token begins, in UTF-8 bytes from the start of the text. -/
  tokenOffset : σ → Nat
  /-- At least the number of characters still to come. -/
  remaining : σ → Nat

namespace Source

variable {σ : Type} [Source σ]

def advanceIf (expected : Char) : EStateM SourceError σ (Option Char) := do
  if (← peek) == some expected then advance else pure none

def isAtEnd : EStateM SourceError σ Bool := do
  return (← peek).isNone

end Source

def utf8Length (s : List Char) : Nat := s.foldr (fun c n => c.utf8Size + n) 0

end Copione
