import Analog.Text.Bytes
import Analog.Text.Printable

/-!
Quoted text. Writing puts a byte string between double quotes and escapes what is not printable;
reading undoes it and refuses raw line feeds, unknown escapes and anything after the last quote.
-/
namespace Analog.Text

def hexDigit (n : Nat) : Char := Nat.digitChar (n % 16)

def hex : Nat → Nat → String
  | 0, _ => ""
  | width + 1, n => (hex width (n / 16)).push (hexDigit n)

def controlLetters : List (Char × Char) :=
  [('\x07', 'a'), ('\x08', 'b'), ('\x0c', 'f'), ('\n', 'n'), ('\r', 'r'), ('\t', 't'),
    ('\x0b', 'v')]

def escapeChar (c : Char) : String :=
  if c == '"' || c == '\\' then String.ofList ['\\', c]
  else if isPrintable c then c.toString
  else match controlLetters.lookup c with
    | some letter => String.ofList ['\\', letter]
    | none =>
      let n := c.toNat
      if n < 0x20 || n == 0x7F then "\\x" ++ hex 2 n
      else if n < 0x10000 then "\\u" ++ hex 4 n
      else "\\U" ++ hex 8 n

def Piece.escape : Piece → String
  | .char c => escapeChar c
  | .stray b => "\\x" ++ hex 2 b.toNat

def quote (bs : Bytes) : String :=
  "\"" ++ String.join ((pieces bs).map Piece.escape) ++ "\""

def hexValue? (c : Char) : Option Nat :=
  if '0' ≤ c && c ≤ '9' then some (c.toNat - '0'.toNat)
  else if 'a' ≤ c && c ≤ 'f' then some (c.toNat - 'a'.toNat + 10)
  else if 'A' ≤ c && c ≤ 'F' then some (c.toNat - 'A'.toNat + 10)
  else none

def octalValue? (c : Char) : Option Nat :=
  if '0' ≤ c && c ≤ '7' then some (c.toNat - '0'.toNat) else none

def takeDigits (base : Nat) (value? : Char → Option Nat) :
    Nat → Nat → List Char → Option (Nat × List Char)
  | 0, acc, cs => some (acc, cs)
  | _ + 1, _, [] => none
  | count + 1, acc, c :: cs => do
    let d ← value? c
    takeDigits base value? count (acc * base + d) cs

def takeEscape : List Char → Option (Bytes × List Char)
  | [] => none
  | 'x' :: cs => do
    let (n, rest) ← takeDigits 16 hexValue? 2 0 cs
    return ([n.toUInt8], rest)
  | 'u' :: cs => do
    let (n, rest) ← takeDigits 16 hexValue? 4 0 cs
    let c ← charAbove? 0 n
    return (String.utf8EncodeChar c, rest)
  | 'U' :: cs => do
    let (n, rest) ← takeDigits 16 hexValue? 8 0 cs
    let c ← charAbove? 0 n
    return (String.utf8EncodeChar c, rest)
  | '\\' :: cs => some ([0x5C], cs)
  | '"' :: cs => some ([0x22], cs)
  | c :: cs =>
    match controlLetters.find? (·.2 == c) with
    | some (control, _) => some ([control.toNat.toUInt8], cs)
    | none => do
      let d ← octalValue? c
      let (n, rest) ← takeDigits 8 octalValue? 2 d cs
      if n < 256 then return ([n.toUInt8], rest) else none

def unquoteFuel : Nat → List Char → Option Bytes
  | 0, _ => none
  | _, [] => none
  | fuel + 1, c :: cs =>
    if c == '"' then if cs.isEmpty then some [] else none
    else if c == '\n' then none
    else if c == '\\' then do
      let (bs, rest) ← takeEscape cs
      return bs ++ (← unquoteFuel fuel rest)
    else do
      return String.utf8EncodeChar c ++ (← unquoteFuel fuel cs)

def unquote? : List Char → Option Bytes
  | '"' :: cs => unquoteFuel cs.length cs
  | _ => none

end Analog.Text
