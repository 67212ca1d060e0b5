import Copione.Proofs.WindowView
/-!
# A window that watches itself

The same window, with every index into its characters and its bytes looked up, every subtraction done
and every loop run round by round. What must never happen raises an alarm: an index or the end of a
slice that is out of range, a difference below zero, a read with no room for a byte, a loop that does
not end.
-/
namespace Copione.Window

/-- What must not happen while a window is in use. -/
inductive Breach where
  | outOfRange
  | belowZero
  | emptyRead
  | outOfSteps
  deriving DecidableEq, Repr

/-- Why a guarded call leaves early. -/
inductive Halt where
  | refused (e : SourceError)
  | breach (b : Breach)
  deriving DecidableEq, Repr

abbrev Guard := EStateM Halt Window

namespace Guard

def raise {α : Type} (b : Breach) : Guard α := throw (.breach b)

def refuse {α : Type} (e : SourceError) : Guard α := throw (.refused e)

def subtract (a b : Nat) : Guard Nat := if b ≤ a then pure (a - b) else raise .belowZero

def charAt (index : Nat) : Guard Char := do
  match (← get).buffer[index]? with
  | some c => return c
  | none => raise .outOfRange

def slice (first last : Nat) : Guard (Array Char) := do
  let w ← get
  if first ≤ last ∧ last ≤ w.buffer.size then return w.buffer.extract first last
  else raise .outOfRange

def pendingFrom (index : Nat) : Guard (List UInt8) := do
  let w ← get
  if index ≤ w.pending.length then return w.pending.drop index else raise .outOfRange

def push (c : Char) : Guard Unit := modify fun w => { w with buffer := w.buffer.push c }

/-- Decodes while there is room, the first `consumed` bytes being decoded. Gives the number of bytes
that are decoded at the end. -/
def decodeFrom : Nat → Nat → Guard Nat
  | 0, _ => raise .outOfSteps
  | steps + 1, consumed => do
    let w ← get
    if w.buffer.size < w.capacity ∧ consumed < w.pending.length then
      let bytes ← pendingFrom consumed
      match Utf8.first? bytes with
      | some (c, rest) =>
        push c
        decodeFrom steps (consumed + (← subtract bytes.length rest.length))
      | none =>
        if w.exhausted then
          push Utf8.replacement
          decodeFrom steps w.pending.length
        else return consumed
    else return consumed

def decodePending (steps : Nat) : Guard Unit := do
  let pending ← pendingFrom (← decodeFrom steps 0)
  modify fun w => { w with pending }

def read : Guard ReadResult := do
  let w ← get
  let room ← subtract w.capacity w.buffer.size
  if room = 0 then raise .emptyRead
  else
    let (result, reader) := w.reader.read room
    set { w with reader }
    return result

/-- Only a read without bytes ends the input. -/
def pull (steps : Nat) : Nat → Guard Unit
  | 0 => raise .outOfSteps
  | rounds + 1 => do
    let w ← get
    if w.exhausted || w.capacity ≤ w.buffer.size then return
    match ← read with
    | .interrupted => pull steps rounds
    | .failed reason => refuse (.unreadable reason)
    | .piece bytes =>
      modify fun w => { w with pending := w.pending ++ bytes, exhausted := bytes.isEmpty }
      decodePending steps
      pull steps rounds

def fill (steps : Nat) : Guard Unit := do
  decodePending steps
  pull steps steps

def compact : Guard Unit := do
  let w ← get
  let buffer ← slice w.tokenStart w.buffer.size
  let current ← subtract w.current w.tokenStart
  set { w with buffer, current, tokenStart := 0, memo := none }

def ensure (steps lookahead : Nat) : Nat → Guard Bool
  | 0 => raise .outOfSteps
  | rounds + 1 => do
    let w ← get
    if w.current + lookahead < w.buffer.size then return true
    if w.exhausted && w.pending.isEmpty then return false
    let needed ← subtract (w.current + lookahead) w.tokenStart
    if w.capacity ≤ needed then
      let start ← slice w.tokenStart w.buffer.size
      refuse (.tokenTooLong w.capacity (start.toList.take 32))
    else
      compact
      fill steps
      ensure steps lookahead rounds

def look (steps lookahead : Nat) : Guard (Option Char) := do
  if ← ensure steps lookahead steps then
    return some (← charAt ((← get).current + lookahead))
  else return none

def advance (steps : Nat) : Guard (Option Char) := do
  modify fun w => { w with memo := none }
  let next ← look steps 0
  if next.isSome then modify fun w => { w with current := w.current + 1 }
  return next

def currentToken : Guard String := do
  let w ← get
  let token ← slice w.tokenStart w.current
  match w.memo with
  | some text => return text
  | none =>
    let text := String.ofList token.toList
    set { w with memo := some text }
    return text

def startToken : Guard Unit := do
  let w ← get
  let token ← slice w.tokenStart w.current
  set { w with
    tokenOffset := w.tokenOffset + utf8Length token.toList, tokenStart := w.current, memo := none }

def answer (steps : Nat) : Source.Call → Guard Source.Answer
  | .advance => .char <$> advance steps
  | .peek => .char <$> look steps 0
  | .peekNext => .char <$> look steps 1
  | .advanceIf expected => .char <$> do
    if (← look steps 0) == some expected then advance steps else pure none
  | .isAtEnd => .flag <$> do return (← look steps 0).isNone
  | .currentToken => .text <$> currentToken
  | .startToken => do
    startToken
    return .done
  | .tokenOffset => return .offset (← get).tokenOffset

end Guard

def Guard.open? (steps : Nat) (reader : Reader) (capacity : Nat) : Except Halt Window :=
  match fill steps (unread reader capacity) with
  | .ok _ w => .ok w
  | .error halt _ => .error halt

end Copione.Window
