import Copione.Decimal.Binary
/-!
# Shortest decimals

The decimal with the fewest digits among those that round to a given float. The search goes
through ever finer grids of powers of ten and takes the first grid with a point in the
interval of numbers that round to the float; a point of a coarser grid has fewer digits.
-/
namespace Copione

/-- The number `digits * 10 ^ exponent`. -/
structure Decimal where
  digits : Nat
  exponent : Int
  deriving DecidableEq, Repr

/-- Which of two equally near decimals stands for a float. -/
inductive Tie where
  | up
  | even
  deriving DecidableEq, Repr

namespace Decimal

/-- Numbers that round to one float: `value` with its two limits, all over `den`. -/
structure Interval where
  low : Nat
  value : Nat
  high : Nat
  den : Nat
  closed : Bool

/-- The limits lie halfway to the neighbours; below a power of two the neighbour is nearer. -/
def interval (mantissa scale : Nat) : Interval :=
  let narrow := mantissa == Binary.fractions && 0 < scale
  { low := (4 * mantissa - if narrow then 1 else 2) <<< scale
    value := (4 * mantissa) <<< scale
    high := (4 * mantissa + 2) <<< scale
    den := 4 * Binary.unit
    closed := mantissa % 2 == 0 }

/-- The same numbers counted in units of `10 ^ exponent`, to be compared with whole ones. -/
def Interval.rescale (i : Interval) (exponent : Int) : Interval :=
  let down := Nat.pow 10 (-exponent).toNat
  { i with
    low := i.low * down
    value := i.value * down
    high := i.high * down
    den := i.den * Nat.pow 10 exponent.toNat }

def Interval.contains (i : Interval) (n : Nat) : Bool :=
  if i.closed then i.low ≤ n * i.den && n * i.den ≤ i.high
  else i.low < n * i.den && n * i.den < i.high

/-- The whole number of the interval that is nearest to its value. -/
def Interval.nearest? (i : Interval) (tie : Tie) : Option Nat :=
  let below := i.value / i.den
  let rest := i.value % i.den
  let upward := i.den < 2 * rest || (2 * rest == i.den && (tie == .up || below % 2 == 1))
  match i.contains below, i.contains (below + 1) with
  | true, true => some (if upward then below + 1 else below)
  | true, false => some below
  | false, true => some (below + 1)
  | false, false => none

/-- Tries the grid of `10 ^ exponent` and then `fuel` finer ones. -/
def refine (tie : Tie) (i : Interval) : Nat → Int → Decimal
  | 0, exponent => ⟨i.value / i.den, exponent⟩
  | fuel + 1, exponent =>
    match (i.rescale exponent).nearest? tie with
    | some digits => ⟨digits, exponent⟩
    | none => refine tie i fuel (exponent - 1)

/-- An exponent `e` with `num / den < 10 ^ e`, never much too large. -/
def coarseExponent (num den : Nat) : Int :=
  ((num.log2 : Int) - den.log2 + 1) * 30103 / 100000 + 1

/-- The shortest decimal of `mantissa * 2 ^ scale / 2 ^ 1074`, at most 17 digits long. -/
def shortest (tie : Tie) (mantissa scale : Nat) : Decimal :=
  if mantissa == 0 then ⟨0, 0⟩
  else
    let i := interval mantissa scale
    refine tie i 24 (coarseExponent i.value i.den)

end Decimal
end Copione
