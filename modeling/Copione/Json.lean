/-!
# JSON documents

Documents whose objects keep the order of their fields, and their indented text.
-/
namespace Copione

inductive Json where
  /-- A text that needs no quotes: `null`, a truth value or a number. -/
  | plain (text : String)
  | str (s : String)
  | array (items : List Json)
  | object (fields : List (String × Json))

namespace Json

def null : Json := .plain "null"

def ofOption {α : Type} (f : α → Json) : Option α → Json
  | none => null
  | some a => f a

def hexDigits (n : Nat) : List Char := [Nat.digitChar (n / 16), Nat.digitChar (n % 16)]

def escape (c : Char) : List Char :=
  if c == '"' then ['\\', '"']
  else if c == '\\' then ['\\', '\\']
  else if c == '\n' then ['\\', 'n']
  else if c == '\r' then ['\\', 'r']
  else if c == '\t' then ['\\', 't']
  else if c == '\x08' then ['\\', 'b']
  else if c == '\x0c' then ['\\', 'f']
  else if c.toNat < 0x20 then ['\\', 'u', '0', '0'] ++ hexDigits c.toNat
  else [c]

def quote (s : String) : String := String.ofList ('"' :: s.toList.flatMap escape ++ ['"'])

def indent (depth : Nat) : String := String.ofList (List.replicate (2 * depth) ' ')

/-- Items between brackets, each on a line of its own. -/
def bracket (opening closing : String) (depth : Nat) (items : List String) : String :=
  if items.isEmpty then opening ++ closing
  else
    let lines := items.map fun item => "\n" ++ indent (depth + 1) ++ item
    opening ++ ",".intercalate lines ++ "\n" ++ indent depth ++ closing

mutual

/-- The text of a document that stands `depth` steps inside another. -/
def renderAt (depth : Nat) : Json → String
  | .plain text => text
  | .str s => quote s
  | .array items => bracket "[" "]" depth (renderItems (depth + 1) items)
  | .object fields => bracket "\x7b" "\x7d" depth (renderFields (depth + 1) fields)

def renderItems (depth : Nat) : List Json → List String
  | [] => []
  | item :: rest => renderAt depth item :: renderItems depth rest

def renderFields (depth : Nat) : List (String × Json) → List String
  | [] => []
  | (key, value) :: rest =>
    (quote key ++ ": " ++ renderAt depth value) :: renderFields depth rest

end

def render (j : Json) : String := renderAt 0 j

end Json
end Copione
