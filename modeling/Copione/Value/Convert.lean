import Copione.Decimal.Numeral
import Copione.Text.Blank
import Copione.Value.Fault
/-!
# Conversions

From any value to integers, floats and truth values. Texts are read as the language's own
numerals, with an optional sign and blanks around them.
-/
namespace Copione.Value

def splitSign : List Char → Bool × List Char
  | '-' :: rest => (true, rest)
  | s => (false, s)

def allDigits (s : List Char) : Bool := !s.isEmpty && s.all Numeral.isDigit

/-- Reads `-? DIGIT+` in the range of 64-bit integers. -/
def parseInteger? (s : String) : Option Int64 :=
  let (negative, digits) := splitSign (Text.trim s.toList)
  if allDigits digits then Numeral.toInt64? negative digits else none

/-- Reads `-? DIGIT+ ('.' DIGIT+)?`. -/
def parseFloat? (s : String) : Option Float :=
  let (negative, unsigned) := splitSign (Text.trim s.toList)
  let whole := unsigned.takeWhile (· != '.')
  match unsigned.dropWhile (· != '.') with
  | [] => if allDigits whole then some (Numeral.toFloat negative whole []) else none
  | _ :: fraction =>
    if allDigits whole && allDigits fraction then some (Numeral.toFloat negative whole fraction)
    else none

/-- The integer part of a float, if it is in the range of 64-bit integers. The limits are compared
as floats. The largest integer is not a float and is rounded up, to the first one out of range. -/
def truncate? (x : Float) : Option Int64 :=
  let whole := Binary.trunc x
  let low := Binary.ofInt Int64.minValue.toInt
  let high := Binary.ofInt Int64.maxValue.toInt
  if whole.isFinite && low ≤ whole && whole < high then some (Binary.ofFloat whole).toInt64 else none

def toInteger (v : Value) : Except Fault Int64 :=
  let result :=
    match v with
    | .int n => some n
    | .float x => truncate? x
    | .bool b => some (if b then 1 else 0)
    | .str s => parseInteger? s
    | .null | .function _ => none
  match result with
  | some n => .ok n
  | none => .error (.cannotConvert v .int)

def toFloat (v : Value) : Except Fault Float :=
  let result :=
    match v with
    | .int n => some (Binary.ofInt n.toInt)
    | .float x => some x
    | .bool b => some (if b then 1 else 0)
    | .str s => parseFloat? s
    | .null | .function _ => none
  match result with
  | some x => .ok x
  | none => .error (.cannotConvert v .float)

/-- Numbers are true unless they are zero; texts must spell a truth value. -/
def toBool (v : Value) : Except Fault Bool :=
  let result :=
    match v with
    | .bool b => some b
    | .int n => some (n != 0)
    | .float x => some (x != 0)
    | .str s =>
      let word := String.ofList (Text.trim s.toList)
      if word == "vero" then some true else if word == "falso" then some false else none
    | .null | .function _ => none
  match result with
  | some b => .ok b
  | none => .error (.cannotConvert v .bool)

end Copione.Value
