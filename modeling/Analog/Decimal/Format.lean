import Analog.Decimal.Shortest

/-!
The text of a real number: the fewest digits that read back, with an exponent when the number is
small or large, and always so that it reads back as a real.
-/
namespace Analog.Decimal

structure Format where
  least : Int
  bound : Int
  exponentWidth : Nat

def Format.real : Format := ⟨-4, 6, 2⟩

def padLeft (width : Nat) (s : String) : String :=
  String.ofList (List.replicate (width - s.length) '0') ++ s

def dropZeros (digits : List Char) : List Char :=
  (digits.reverse.dropWhile (· == '0')).reverse

def Format.exponential (f : Format) (digits : List Char) (lead : Int) : String :=
  let mantissa := match digits with
    | [] => "0"
    | [d] => d.toString
    | d :: rest => d.toString ++ "." ++ String.ofList rest
  let sign := if lead < 0 then "-" else "+"
  mantissa ++ "e" ++ sign ++ padLeft f.exponentWidth (toString lead.natAbs)

def positional (digits : List Char) (lead : Int) : String :=
  let whole := (lead + 1).toNat
  let padded := List.replicate (-(lead + 1)).toNat '0' ++ digits
  let front := (padded ++ List.replicate (whole - padded.length) '0').take whole
  let back := padded.drop whole
  (if front.isEmpty then "0" else String.ofList front) ++
    (if back.isEmpty then "" else "." ++ String.ofList back)

def Format.write (f : Format) (d : Digits) : String :=
  let all := Nat.toDigits 10 d.digits
  let lead := d.exponent + all.length - 1
  let digits := dropZeros all
  if digits.isEmpty then "0"
  else if lead < f.least || f.bound ≤ lead then f.exponential digits lead
  else positional digits lead

def Format.float (f : Format) (x : Float) : String :=
  match parts? x with
  | some p => (if p.negative then "-" else "") ++ f.write (shortest p.mantissa p.exponent)
  | none => if x.isNaN then "NaN" else if isNegative x then "-Inf" else "+Inf"

def realText (x : Float) : String :=
  let s := Format.real.float x
  if s.toList.any ['.', 'e', 'I', 'N'].contains then s else s ++ ".0"

end Analog.Decimal
