import Analog.Decimal.Binary64

/-!
Arithmetic on doubles and machine integers that the language fixes exactly: remainder, extremes,
length of a vector, and the way from a real to an integer.
-/
namespace Analog.Arithmetic

open Analog.Decimal

def nan : Float := 0.0 / 0.0

def remainder (x y : Float) : Float :=
  match parts? x, parts? y with
  | some a, some b =>
    if b.mantissa == 0 then nan
    else
      let e := if a.exponent < b.exponent then a.exponent else b.exponent
      let m := a.mantissa * twoPow (a.exponent - e).toNat
      let n := b.mantissa * twoPow (b.exponent - e).toNat
      let (num, den) := scale (m % n) 1 e
      (ofRatio? a.negative num den).getD nan
  | some _, none => if y.isNaN then nan else x
  | none, _ => nan

/-- Infinities of the matching sign win over a NaN; of two zeros the negative one is smaller. -/
def minimum (x y : Float) : Float :=
  if (x.isInf && x < 0) || (y.isInf && y < 0) then -(1.0 / 0.0)
  else if x.isNaN || y.isNaN then nan
  else if x == 0 && y == 0 then if isNegative x then x else y
  else if x < y then x else y

def maximum (x y : Float) : Float :=
  if (x.isInf && x > 0) || (y.isInf && y > 0) then 1.0 / 0.0
  else if x.isNaN || y.isNaN then nan
  else if x == 0 && y == 0 then if isNegative x then y else x
  else if x > y then x else y

def hypotenuse (x y : Float) : Float :=
  if x.isInf || y.isInf then 1.0 / 0.0
  else if x.isNaN || y.isNaN then nan
  else
    let p := if x.abs < y.abs then y.abs else x.abs
    let q := if x.abs < y.abs then x.abs else y.abs
    if p == 0 then 0 else
      let r := q / p
      p * (1 + r * r).sqrt

/-- Drops the fraction; a real that no integer holds gives the least one. -/
def truncate (x : Float) : Int64 :=
  if -9223372036854775808.0 ≤ x && x < 9223372036854775808.0 then x.toInt64 else Int64.minValue

def power (base : Int64) : Nat → Int64
  | 0 => 1
  | n + 1 => power base n * base

end Analog.Arithmetic
