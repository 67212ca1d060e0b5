import Copione.Source.Basic
import Copione.Source.Reader
import Copione.Text.Utf8
/-!
# A window on a stream

Only `capacity` characters of the stream are resident. When a character past them is asked
for, the token being read moves to the front and the room behind it is filled from the
reader, so a token is never longer than the window. A character whose bytes come in two
reads waits in `pending`.
-/
namespace Copione

structure Window where
  capacity : Nat
  /-- The resident characters; the token is `buffer[tokenStart:current]`. -/
  buffer : Array Char
  tokenStart : Nat
  current : Nat
  tokenOffset : Nat
  /-- Bytes that are read but not decoded. -/
  pending : List UInt8
  /-- The reader has reported the end of input. -/
  exhausted : Bool
  /-- The text of the token, once it was asked for. -/
  memo : Option String
  reader : Reader
  deriving DecidableEq, Repr

namespace Window

def token (w : Window) : List Char := (w.buffer.extract w.tokenStart w.current).toList

def decodeInto (exhausted : Bool) :
    Nat → Array Char → List UInt8 → Array Char × List UInt8
  | 0, buffer, bytes => (buffer, bytes)
  | room + 1, buffer, bytes =>
    match Utf8.first? bytes with
    | some (c, rest) => decodeInto exhausted room (buffer.push c) rest
    | none =>
      if exhausted && !bytes.isEmpty then (buffer.push Utf8.replacement, [])
      else (buffer, bytes)

/-- Decodes pending bytes while there is room. At the end of input the beginning of a
character is one ill-formed sequence. -/
def decodePending (w : Window) : Window :=
  let (buffer, pending) :=
    decodeInto w.exhausted (w.capacity - w.buffer.size) w.buffer w.pending
  { w with buffer, pending }

def pull : Nat → EStateM SourceError Window Unit
  | 0 => pure ()
  | fuel + 1 => do
    let w ← get
    if w.exhausted || w.capacity ≤ w.buffer.size then return
    let (result, reader) := w.reader.read (w.capacity - w.buffer.size)
    match result with
    | .interrupted =>
      set { w with reader }
      pull fuel
    | .failed reason =>
      set { w with reader }
      throw (.unreadable reason)
    | .piece bytes =>
      set { w with reader, pending := w.pending ++ bytes, exhausted := bytes.isEmpty }.decodePending
      pull fuel

/-- Reads until the window is full or the input ends. Interrupted reads are repeated. -/
def fill : EStateM SourceError Window Unit := do
  modify decodePending
  pull ((← get).reader.span + 1)

def compact (w : Window) : Window :=
  { w with
    buffer := w.buffer.extract w.tokenStart w.buffer.size
    current := w.current - w.tokenStart
    tokenStart := 0
    memo := none }

/-- Makes the character `lookahead` places past the next one resident; false at the end of
input. -/
def ensure (lookahead : Nat) : EStateM SourceError Window Bool := do
  let w ← get
  if w.current + lookahead < w.buffer.size then return true
  if w.exhausted && w.pending.isEmpty then return false
  if w.capacity ≤ w.current + lookahead - w.tokenStart then
    throw (.tokenTooLong w.capacity ((w.buffer.toList.drop w.tokenStart).take 32))
  modify compact
  fill
  let w ← get
  return w.current + lookahead < w.buffer.size

def look (lookahead : Nat) : EStateM SourceError Window (Option Char) := do
  if ← ensure lookahead then
    let w ← get
    return w.buffer[w.current + lookahead]?
  else return none

def advance : EStateM SourceError Window (Option Char) := do
  modify fun w => { w with memo := none }
  let next ← look 0
  if next.isSome then modify fun w => { w with current := w.current + 1 }
  return next

def currentToken (w : Window) : String × Window :=
  match w.memo with
  | some text => (text, w)
  | none =>
    let text := String.ofList w.token
    (text, { w with memo := some text })

def startToken (w : Window) : Window :=
  { w with
    tokenOffset := w.tokenOffset + utf8Length w.token
    tokenStart := w.current
    memo := none }

/-- The largest capacity for which memory can be asked: a character takes four bytes, and a
buffer has fewer than `2 ^ 63` of them. -/
def largestCapacity : Nat := 0x1FFFFFFFFFFFFFFF

/-- A filled window at the beginning of the stream. It holds at least one character. -/
def open? (reader : Reader) (capacity : Nat) : Except SourceError Window :=
  let start : Window :=
    { capacity := max capacity 1, buffer := #[], tokenStart := 0, current := 0
      tokenOffset := 0, pending := [], exhausted := false, memo := none, reader }
  match fill start with
  | .ok _ w => .ok w
  | .error e _ => .error e

instance : Source Window where
  advance := advance
  peek := look 0
  peekNext := look 1
  currentToken := currentToken
  startToken := startToken
  tokenOffset := Window.tokenOffset
  remaining w := (w.buffer.size - w.current) + w.pending.length + w.reader.bytes.length

end Window
end Copione
