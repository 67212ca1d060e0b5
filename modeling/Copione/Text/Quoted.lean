import Copione.Text.Printable
/-!
# Quoted texts

A text between double quotes, on one line: quotes, backslashes and the usual controls have
two-character escapes, and what cannot be printed is written as its code point.
-/
namespace Copione.Text

def codePointEscape (c : Char) : List Char :=
  ['\\', 'u', '\x7b'] ++ Nat.toDigits 16 c.toNat ++ ['\x7d']

def escape (c : Char) : List Char :=
  if c == '"' then ['\\', '"']
  else if c == '\\' then ['\\', '\\']
  else if c == '\t' then ['\\', 't']
  else if c == '\r' then ['\\', 'r']
  else if c == '\n' then ['\\', 'n']
  else if c == '\x00' then ['\\', '0']
  else if isPrintable c then [c]
  else codePointEscape c

def quote (s : List Char) : String :=
  String.ofList ('"' :: s.flatMap escape ++ ['"'])

end Copione.Text
