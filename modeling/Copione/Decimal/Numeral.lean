import Copione.Decimal.Binary
/-!
# Numerals

What a run of ASCII digits denotes, alone or around a decimal point.
-/
namespace Copione.Numeral

def isDigit (c : Char) : Bool := '0' ≤ c && c ≤ '9'

def toNat (digits : List Char) : Nat :=
  digits.foldl (fun n c => n * 10 + (c.toNat - '0'.toNat)) 0

def inInt64? (n : Int) : Option Int64 :=
  if Int64.minValue.toInt ≤ n ∧ n ≤ Int64.maxValue.toInt then some (Int64.ofInt n) else none

def toInt64? (negative : Bool) (digits : List Char) : Option Int64 :=
  inInt64? (if negative then -(toNat digits : Int) else toNat digits)

/-- The float nearest to `whole.fraction`; beyond the largest float it is an infinity. -/
def toFloat (negative : Bool) (whole fraction : List Char) : Float :=
  Binary.ofRatio negative (toNat (whole ++ fraction)) (Nat.pow 10 fraction.length)

end Copione.Numeral
