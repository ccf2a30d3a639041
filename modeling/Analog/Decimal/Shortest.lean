import Analog.Decimal.Binary64

/-!
The fewest decimal digits that read back as a given double. A decimal reads back when it lies
between the midpoints to the two neighbouring doubles; of the decimals of one length that do, the
nearest is taken, and of two that are equally near the even one.
-/
namespace Analog.Decimal

structure Digits where
  digits : Nat
  exponent : Int
  deriving DecidableEq, Repr

/-- A double `value` with the midpoints `low` and `high` around it, all in units of `2 ^ unit`. -/
structure Interval where
  low : Nat
  value : Nat
  high : Nat
  unit : Int
  closed : Bool

def Interval.around (mantissa : Nat) (exponent : Int) : Interval :=
  let gap := if mantissa == twoPow 52 && exponent != -1074 then 1 else 2
  ⟨4 * mantissa - gap, 4 * mantissa, 4 * mantissa + 2, exponent - 2, mantissa % 2 == 0⟩

def Interval.onGrid? (i : Interval) (j : Int) : Option Nat :=
  let lift := twoPow i.unit.toNat * tenPow (-j).toNat
  let step := tenPow j.toNat * twoPow (-i.unit).toNat
  let inside (q : Nat) : Bool :=
    if i.closed then i.low * lift ≤ q * step && q * step ≤ i.high * lift
    else i.low * lift < q * step && q * step < i.high * lift
  let below := i.value * lift / step
  let nearest := roundDiv (i.value * lift) step
  let other := if nearest == below then below + 1 else below
  if inside nearest then some nearest
  else if inside other then some other
  else none

def leadingExponent (num den : Nat) : Int :=
  let digitsOf (n : Nat) : Int := (Nat.toDigits 10 n).length
  let guess := digitsOf num - digitsOf den
  if num * tenPow (-guess).toNat < den * tenPow guess.toNat then guess - 1 else guess

/-- Tries grids from coarse to fine; the last one, of 17 digits, always has a hit. -/
def Interval.search (i : Interval) (lead : Int) : Nat → Nat → Digits
  | 0, _ => ⟨0, 0⟩
  | fuel + 1, length =>
    let j := lead - length
    match i.onGrid? j with
    | some q => ⟨q, j⟩
    | none => i.search lead fuel (length + 1)

def shortest (mantissa : Nat) (exponent : Int) : Digits :=
  if mantissa == 0 then ⟨0, 0⟩
  else
    let i := Interval.around mantissa exponent
    let (num, den) := scale i.value 1 i.unit
    i.search (leadingExponent num den) 17 0

end Analog.Decimal
