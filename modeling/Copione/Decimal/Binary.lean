/-!
# Binary64 numbers as exact ratios

A finite float is `mantissa * 2 ^ scale / 2 ^ 1074`, a ratio of natural numbers. Going back,
a ratio is rounded to the nearest float, halves to the even mantissa. The magnitude's bits
are `scale * 2 ^ 52 + mantissa`, so a mantissa that rounds up to the next power of two
carries into the exponent by itself.
-/
namespace Copione

/-- A float taken apart. -/
inductive Binary where
  | nan
  | infinite (negative : Bool)
  | finite (negative : Bool) (mantissa scale : Nat)
  deriving DecidableEq, Repr

namespace Binary

/-- Every finite float is a whole multiple of `1 / unit`. -/
def unit : Nat := 1 <<< 1074

/-- `2 ^ 52`, the number of fractions that an exponent goes with. -/
def fractions : Nat := 0x10000000000000

def infinityBits : Nat := 2047 * fractions

def signBit : Nat := 0x8000000000000000

def ofBits (bits : UInt64) : Binary :=
  let n := bits.toNat
  let negative := signBit ≤ n
  let exponent := n / fractions % 2048
  let fraction := n % fractions
  if exponent == 2047 then
    if fraction == 0 then .infinite negative else .nan
  else if exponent == 0 then .finite negative fraction 0
  else .finite negative (fractions + fraction) (exponent - 1)

def ofFloat (x : Float) : Binary := ofBits x.toBits

/-- The quotient rounded to the nearest natural number, halves to the even one. -/
def roundQuotient (num den : Nat) : Nat :=
  let q := num / den
  let r := num % den
  if 2 * r < den || (2 * r == den && q % 2 == 0) then q else q + 1

/-- The magnitude bits of the float nearest to `num / den`. -/
def nearestBits (num den : Nat) : Nat :=
  let scaled := num * unit
  let scale := (scaled / den).log2 - 52
  min (scale * fractions + roundQuotient scaled (den <<< scale)) infinityBits

/-- The float nearest to `num / den`, with the given sign also when it is zero. -/
def ofRatio (negative : Bool) (num den : Nat) : Float :=
  Float.ofBits (UInt64.ofNat ((if negative then signBit else 0) + nearestBits num den))

def ofInt (n : Int) : Float := ofRatio (n < 0) n.natAbs 1

/-- The integer part of the magnitude of a finite float. -/
def whole (mantissa scale : Nat) : Nat := (mantissa <<< scale) / unit

/-- The float without its fraction. It keeps its sign, also as a zero. -/
def trunc (x : Float) : Float :=
  match ofFloat x with
  | .finite negative mantissa scale => ofRatio negative (whole mantissa scale) 1
  | _ => x

/-- The integer part as a 64-bit integer: the nearest one for what is out of range, and zero for
what is no number. -/
def toInt64 : Binary → Int64
  | .nan => 0
  | .infinite negative => if negative then Int64.minValue else Int64.maxValue
  | .finite negative mantissa scale =>
    let magnitude : Int := ↑(whole mantissa scale)
    Int64.ofIntClamp (if negative then -magnitude else magnitude)

end Binary
end Copione
