import Copione.Decimal.Shortest
/-!
# Float texts

How the shortest decimal of a float is laid out: positionally, with at least one digit on
both sides of the point, or with one digit before the point and a power of ten.
-/
namespace Copione

namespace Decimal

/-- The power of ten of the first digit. -/
def leadingExponent (d : Decimal) : Int := (Nat.toDigits 10 d.digits).length + d.exponent - 1

/-- Positional text, `0.0` for zero. -/
def positional (d : Decimal) : List Char :=
  let digits := Nat.toDigits 10 d.digits
  let zeros (n : Nat) := List.replicate n '0'
  let whole := d.leadingExponent + 1
  if 0 ≤ d.exponent then digits ++ zeros d.exponent.toNat ++ ['.', '0']
  else if 0 < whole then digits.take whole.toNat ++ '.' :: digits.drop whole.toNat
  else '0' :: '.' :: zeros (-whole).toNat ++ digits

/-- One digit, the others after a point if there are any, and the exponent; `plus` says
whether an exponent that is not negative is signed. -/
def scientific (plus : Bool) (d : Decimal) : List Char :=
  let mantissa :=
    match Nat.toDigits 10 d.digits with
    | first :: second :: more => first :: '.' :: second :: more
    | digits => digits
  let e := d.leadingExponent
  let sign := if e < 0 then ['-'] else if plus then ['+'] else []
  mantissa ++ 'e' :: sign ++ Nat.toDigits 10 e.natAbs

end Decimal

structure FloatStyle where
  tie : Tie
  /-- Leading exponents that are written positionally, `none` for all of them. -/
  positional : Option (Int × Int)
  plus : Bool
  infinity : String
  nan : String

def FloatStyle.write (style : FloatStyle) (x : Float) : String :=
  match Binary.ofFloat x with
  | .nan => style.nan
  | .infinite false => style.infinity
  | .infinite true => "-" ++ style.infinity
  | .finite negative mantissa scale =>
    let d := Decimal.shortest style.tie mantissa scale
    let plain :=
      match style.positional with
      | none => true
      | some (low, high) => mantissa == 0 || (low ≤ d.leadingExponent && d.leadingExponent < high)
    let magnitude := if plain then d.positional else d.scientific style.plus
    String.ofList (if negative then '-' :: magnitude else magnitude)

end Copione
