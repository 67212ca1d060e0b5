import Copione.Source.Basic
/-!
# Text in memory

A cursor splits a text into what was released, the token being read, and what is to come.
-/
namespace Copione

/-- A position in a text that is wholly in memory. -/
structure Cursor where
  /-- Characters of the token so far, the last one first. -/
  taken : List Char
  rest : List Char
  tokenOffset : Nat
  deriving DecidableEq, Repr

namespace Cursor

def ofText (text : List Char) : Cursor := ⟨[], text, 0⟩

def token (c : Cursor) : List Char := c.taken.reverse

def advance : EStateM SourceError Cursor (Option Char) := do
  let c ← get
  match c.rest with
  | [] => return none
  | next :: rest =>
    set { c with taken := next :: c.taken, rest }
    return some next

def startToken (c : Cursor) : Cursor :=
  { c with taken := [], tokenOffset := c.tokenOffset + utf8Length c.token }

instance : Source Cursor where
  advance := advance
  peek := return (← get).rest.head?
  peekNext := return (← get).rest[1]?
  currentToken c := (String.ofList c.token, c)
  startToken := startToken
  tokenOffset := Cursor.tokenOffset
  remaining c := c.rest.length

end Cursor
end Copione
