import Analog.Decimal.Binary64

/-!
Reading numbers. An integer is an optional sign and decimal digits. A real is an optional sign and
one of: decimal digits with an optional point and exponent, hexadecimal digits after `0x` with a
binary exponent, or the name of an infinity; `nan` stands without a sign. A real beyond the largest
double is refused.
-/
namespace Analog.Decimal

def digitValue? (base : Nat) (c : Char) : Option Nat :=
  let n :=
    if '0' ≤ c && c ≤ '9' then c.toNat - '0'.toNat
    else if 'a' ≤ c && c ≤ 'f' then c.toNat - 'a'.toNat + 10
    else if 'A' ≤ c && c ≤ 'F' then c.toNat - 'A'.toNat + 10
    else 16
  if n < base then some n else none

def isDigit (base : Nat) (c : Char) : Bool := (digitValue? base c).isSome

def digitsValue (base : Nat) (cs : List Char) : Nat :=
  cs.foldl (fun acc c => acc * base + (digitValue? base c).getD 0) 0

def takeSign : List Char → Bool × List Char
  | '-' :: cs => (true, cs)
  | '+' :: cs => (false, cs)
  | cs => (false, cs)

def readInt? (cs : List Char) : Option Int64 :=
  let (negative, digits) := takeSign cs
  if digits.isEmpty || !digits.all (isDigit 10) then none
  else
    let n : Int := digitsValue 10 digits
    let n := if negative then -n else n
    if Int64.minValue.toInt ≤ n && n ≤ Int64.maxValue.toInt then some (Int64.ofInt n) else none

structure Mantissa where
  digits : List Char
  places : Nat

def takeMantissa (base : Nat) (cs : List Char) : Mantissa × List Char :=
  let whole := cs.takeWhile (isDigit base)
  match cs.dropWhile (isDigit base) with
  | '.' :: rest =>
    let fraction := rest.takeWhile (isDigit base)
    (⟨whole ++ fraction, fraction.length⟩, rest.dropWhile (isDigit base))
  | rest => (⟨whole, 0⟩, rest)

/-- An exponent, which is all digits after an optional sign. From 10000 on further digits do not
count: no double is that large or small. -/
def readExponent? (cs : List Char) : Option Int :=
  let (negative, digits) := takeSign cs
  if digits.isEmpty || !digits.all (isDigit 10) then none
  else
    let n := digits.foldl
      (fun acc c => if acc < 10000 then acc * 10 + (digitValue? 10 c).getD 0 else acc) 0
    some (if negative then -(n : Int) else n)

/-- The double nearest to `m · 10 ^ e`. A number of 310 digits is beyond the largest double, and
one that is zero up to 400 places is nearest to zero. -/
def ofDecimal? (negative : Bool) (m : Nat) (e : Int) : Option Float :=
  let length : Int := (Nat.toDigits 10 m).length
  if m == 0 || length + e < -400 then ofRatio? negative 0 1
  else if 310 < length + e then none
  else ofRatio? negative (m * tenPow e.toNat) (tenPow (-e).toNat)

def ofBinary? (negative : Bool) (m : Nat) (e : Int) : Option Float :=
  let length : Int := m.log2 + 1
  if m == 0 || length + e < -1100 then ofRatio? negative 0 1
  else if 1100 < length + e then none
  else ofRatio? negative (m * twoPow e.toNat) (twoPow (-e).toNat)

def readDecimal? (negative : Bool) (cs : List Char) : Option Float :=
  let (m, rest) := takeMantissa 10 cs
  if m.digits.isEmpty then none
  else match rest with
    | [] => ofDecimal? negative (digitsValue 10 m.digits) (-m.places)
    | c :: tail =>
      if c == 'e' || c == 'E' then do
        let e ← readExponent? tail
        ofDecimal? negative (digitsValue 10 m.digits) (e - m.places)
      else none

def readHex? (negative : Bool) (cs : List Char) : Option Float :=
  let (m, rest) := takeMantissa 16 cs
  if m.digits.isEmpty then none
  else match rest with
    | [] => none
    | c :: tail =>
      if c == 'p' || c == 'P' then do
        let e ← readExponent? tail
        ofBinary? negative (digitsValue 16 m.digits) (e - 4 * m.places)
      else none

def infinity (negative : Bool) : Float := withSign negative (2047 * twoPow 52)

def readReal? (cs : List Char) : Option Float :=
  let lower := cs.map Char.toLower
  if lower == ['n', 'a', 'n'] then some (0.0 / 0.0)
  else
    let (negative, body) := takeSign cs
    let (_, name) := takeSign lower
    if name == ['i', 'n', 'f'] || name == ['i', 'n', 'f', 'i', 'n', 'i', 't', 'y'] then
      some (infinity negative)
    else match body with
      | '0' :: x :: rest =>
        if x == 'x' || x == 'X' then readHex? negative rest else readDecimal? negative body
      | _ => readDecimal? negative body

end Analog.Decimal
