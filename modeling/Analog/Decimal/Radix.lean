import Analog.Decimal.Reader

/-!
Integers that tell their base: `0x`, `0o` and `0b` stand before hexadecimal, octal and binary
digits, a lone `0` before octal ones. Underscores may stand between digits.
-/
namespace Analog.Decimal

def splitBase : List Char → Nat × List Char
  | '0' :: mark :: digit :: rest =>
    if mark == 'x' || mark == 'X' then (16, digit :: rest)
    else if mark == 'o' || mark == 'O' then (8, digit :: rest)
    else if mark == 'b' || mark == 'B' then (2, digit :: rest)
    else (8, mark :: digit :: rest)
  | '0' :: rest => (8, rest)
  | cs => (10, cs)

def underscoresFit (afterDigit : Bool) : List Char → Bool
  | [] => true
  | '_' :: cs => afterDigit && (cs.head?.map (isDigit 16)).getD false && underscoresFit false cs
  | _ :: cs => underscoresFit true cs

def readNat? (cs : List Char) : Option Nat :=
  let (base, digits) := splitBase cs
  let plain := digits.filter (· != '_')
  if cs.isEmpty || !plain.all (isDigit base) || !underscoresFit (base != 10) digits then none
  else
    let n := digitsValue base plain
    if n < twoPow 64 then some n else none

def readSigned? (cs : List Char) : Option Int :=
  match cs with
  | '-' :: rest => (readNat? rest).bind fun n => if n ≤ twoPow 63 then some (-(n : Int)) else none
  | '+' :: rest => (readNat? rest).bind fun n => if n < twoPow 63 then some (n : Int) else none
  | cs => (readNat? cs).map fun n => (n : Int)

end Analog.Decimal
