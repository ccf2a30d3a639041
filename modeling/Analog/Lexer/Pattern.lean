import Analog.Text.Bytes

/-!
Patterns that match the start of a text. Scanning gives the length of the match; zero means none.
-/
namespace Analog

inductive Pattern where
  | unit (chars : List Char)
  /-- A text by its UTF-8 form: at each byte that starts a character, the character of the input at
  the byte's position has the byte's number. -/
  | bytes (text : List Char)
  | within (low high : Char)
  | many (p : Pattern)
  | upTo (c : Char)
  | finish
  | oneOf (ps : List Pattern)
  | sequence (ps : List Pattern)
  | leading (first rest : Pattern)
  | between (opening closing : List Char)
  deriving Inhabited

namespace Pattern

def scanUnit (chars items : List Char) : Nat :=
  if chars.isPrefixOf items then chars.length else 0

def leadBytes : Nat → List Char → List (Nat × UInt8)
  | _, [] => []
  | at_, c :: cs =>
    let bs := String.utf8EncodeChar c
    (at_, bs.headD 0) :: leadBytes (at_ + bs.length) cs

def scanBytes (text items : List Char) : Nat :=
  let size := (Text.encode text).length
  let agrees := (leadBytes 0 text).all fun (i, b) =>
    match items[i]? with
    | some c => c.toNat == b.toNat
    | none => false
  if size ≤ items.length && agrees then size else 0

def scanManyFuel (scan : List Char → Nat) : Nat → List Char → Nat
  | 0, _ => 0
  | _, [] => 0
  | fuel + 1, c :: cs =>
    match scan (c :: cs) with
    | 0 => 0
    | n + 1 => n + 1 + scanManyFuel scan fuel (cs.drop n)

def scanMany (scan : List Char → Nat) (items : List Char) : Nat :=
  scanManyFuel scan items.length items

def closing? (closing : List Char) : List Char → Option Nat
  | [] => none
  | c :: cs =>
    match scanUnit closing (c :: cs) with
    | 0 => (closing? closing cs).map (· + 1)
    | n + 1 => some (n + 1)

def scanBetween (opening closing items : List Char) : Nat :=
  match scanUnit opening items with
  | 0 => 0
  | n + 1 =>
    match closing? closing (items.drop (n + 1)) with
    | some k => n + 1 + k
    | none => items.length

mutual

def scan : Pattern → List Char → Nat
  | unit chars, items => scanUnit chars items
  | bytes text, items => scanBytes text items
  | within low high, items =>
    match items with
    | [] => 0
    | c :: _ => if low ≤ c && c ≤ high then 1 else 0
  | many p, items => scanMany p.scan items
  | upTo c, items => (items.takeWhile (· != c)).length
  | finish, items => if items.isEmpty then 1 else 0
  | oneOf ps, items => scanFirst ps items
  | sequence ps, items => scanAll ps 0 items
  | leading first rest, items =>
    match first.scan items with
    | 0 => 0
    | n + 1 => n + 1 + scanMany rest.scan (items.drop (n + 1))
  | between opening closing, items => scanBetween opening closing items

def scanFirst : List Pattern → List Char → Nat
  | [], _ => 0
  | p :: ps, items =>
    match p.scan items with
    | 0 => scanFirst ps items
    | n + 1 => n + 1

def scanAll : List Pattern → Nat → List Char → Nat
  | [], done, _ => done
  | p :: ps, done, items =>
    if items.isEmpty then if ps.isEmpty then done else 0
    else match ps.isEmpty, p.scan items with
      | true, n => done + n
      | false, 0 => 0
      | false, n + 1 => scanAll ps (done + n + 1) (items.drop (n + 1))

end

end Pattern
end Analog
