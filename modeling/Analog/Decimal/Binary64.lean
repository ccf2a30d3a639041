/-!
Finite doubles as `± mantissa · 2 ^ exponent` with exact natural numbers, and the double nearest to
a ratio. Rounding is to nearest, a tie goes to the even mantissa.
-/
namespace Analog.Decimal

structure Parts where
  negative : Bool
  mantissa : Nat
  exponent : Int
  deriving DecidableEq, Repr

def twoPow (n : Nat) : Nat := Nat.pow 2 n

def tenPow (n : Nat) : Nat := Nat.pow 10 n

def isNegative (x : Float) : Bool := x.toBits >>> 63 == 1

def parts? (x : Float) : Option Parts :=
  let bits := x.toBits.toNat
  let field : Nat := bits / twoPow 52 % twoPow 11
  let fraction := bits % twoPow 52
  if field == 2047 then none
  else if field == 0 then some ⟨isNegative x, fraction, -1074⟩
  else some ⟨isNegative x, fraction + twoPow 52, (field : Int) - 1075⟩

def roundDiv (num den : Nat) : Nat :=
  let q := num / den
  let r := num % den
  if 2 * r < den then q
  else if den < 2 * r then q + 1
  else if q % 2 == 0 then q else q + 1

def scale (num den : Nat) (e : Int) : Nat × Nat :=
  (num * twoPow e.toNat, den * twoPow (-e).toNat)

/-- The exponent at which the mantissa of `num / den` has 53 bits, but not below the least one. -/
def targetExponent (num den : Nat) : Int :=
  let guess : Int := (num.log2 : Int) - den.log2 - 53
  let (n, d) := scale num den (-guess)
  let e := if n / d < twoPow 53 then guess else guess + 1
  if e < -1074 then -1074 else e

def withSign (negative : Bool) (bits : Nat) : Float :=
  Float.ofBits (if negative then bits + twoPow 63 else bits).toUInt64

/-- The double nearest to `num / den`, or none when it lies beyond the largest one. The top bit of a
normal mantissa counts one into the exponent field, and so does the carry of one that rounds up. -/
def ofRatio? (negative : Bool) (num den : Nat) : Option Float :=
  if num == 0 then some (withSign negative 0)
  else
    let e := targetExponent num den
    let (n, d) := scale num den (-e)
    let m := roundDiv n d
    let bits := (e + 1074).toNat * twoPow 52 + m
    if bits < 2047 * twoPow 52 then some (withSign negative bits) else none

end Analog.Decimal
