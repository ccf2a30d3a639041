import Analog.Text.Bytes

/-!
Bytes that are written with 64 characters, four for three bytes. Line breaks between them do not
count, and equals signs fill up the last four.
-/
namespace Analog.Text

def sextet? (c : Char) : Option Nat :=
  if 'A' ≤ c && c ≤ 'Z' then some (c.toNat - 'A'.toNat)
  else if 'a' ≤ c && c ≤ 'z' then some (c.toNat - 'a'.toNat + 26)
  else if '0' ≤ c && c ≤ '9' then some (c.toNat - '0'.toNat + 52)
  else if c == '+' then some 62
  else if c == '/' then some 63
  else none

def threeBytes (a b c d : Nat) : Bytes :=
  let n := ((a * 64 + b) * 64 + c) * 64 + d
  [(n / 65536).toUInt8, (n / 256).toUInt8, n.toUInt8]

def fromBase64Quads? : List Char → Option Bytes
  | [] => some []
  | [a, b, '=', '='] => do return (threeBytes (← sextet? a) (← sextet? b) 0 0).take 1
  | [a, b, c, '='] => do return (threeBytes (← sextet? a) (← sextet? b) (← sextet? c) 0).take 2
  | a :: b :: c :: d :: rest => do
    let bytes := threeBytes (← sextet? a) (← sextet? b) (← sextet? c) (← sextet? d)
    return bytes ++ (← fromBase64Quads? rest)
  | _ => none

def fromBase64? (cs : List Char) : Option Bytes :=
  fromBase64Quads? (cs.filter fun c => c != '\n' && c != '\r')

end Analog.Text
