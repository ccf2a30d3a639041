/-!
Byte strings and their characters. A byte string need not be UTF-8, so it falls into pieces: each
piece is a character or a byte that belongs to none.
-/
namespace Analog.Text

abbrev Bytes := List UInt8

def encode (cs : List Char) : Bytes := cs.flatMap String.utf8EncodeChar

inductive Piece where
  | char (c : Char)
  | stray (b : UInt8)
  deriving DecidableEq, Repr

def continuation? (b : UInt8) : Option Nat :=
  if 0x80 ≤ b && b ≤ 0xBF then some (b.toNat - 0x80) else none

def charAbove? (least n : Nat) : Option Char :=
  if h : n.isValidChar then
    if least ≤ n then some (Char.ofNatAux n h) else none
  else none

def firstChar? : Bytes → Option (Char × Nat)
  | [] => none
  | b :: rest =>
    if b < 0x80 then some (Char.ofNat b.toNat, 1)
    else if b < 0xC0 then none
    else if b < 0xE0 then
      match rest with
      | b1 :: _ => do
        let x ← continuation? b1
        let c ← charAbove? 0x80 ((b.toNat - 0xC0) * 64 + x)
        return (c, 2)
      | _ => none
    else if b < 0xF0 then
      match rest with
      | b1 :: b2 :: _ => do
        let x ← continuation? b1
        let y ← continuation? b2
        let c ← charAbove? 0x800 (((b.toNat - 0xE0) * 64 + x) * 64 + y)
        return (c, 3)
      | _ => none
    else if b < 0xF8 then
      match rest with
      | b1 :: b2 :: b3 :: _ => do
        let x ← continuation? b1
        let y ← continuation? b2
        let z ← continuation? b3
        let c ← charAbove? 0x10000 ((((b.toNat - 0xF0) * 64 + x) * 64 + y) * 64 + z)
        return (c, 4)
      | _ => none
    else none

def piecesFuel : Nat → Bytes → List Piece
  | 0, _ => []
  | _, [] => []
  | fuel + 1, b :: rest =>
    match firstChar? (b :: rest) with
    | some (c, n) => .char c :: piecesFuel fuel (rest.drop (n - 1))
    | none => .stray b :: piecesFuel fuel rest

def pieces (bs : Bytes) : List Piece := piecesFuel bs.length bs

def decode (bs : Bytes) : List Char :=
  (pieces bs).map fun
    | .char c => c
    | .stray _ => '�'

end Analog.Text
