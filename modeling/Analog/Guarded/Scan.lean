import Analog.Circuit.Use
import Analog.Raw.Parser

/-!
Cutting a text into words, with a guard on every access: characters from behind the end of a text
are a crash, as is a round of the lexer that takes no character.
-/
namespace Analog

inductive Crash where
  /-- Characters that the text does not have. -/
  | outOfRange
  /-- A word after the last one. -/
  | pastEnd
  /-- A word of another kind than the one that was seen. -/
  | otherKind
  /-- A round of a loop that takes nothing, or readings nested too deep. -/
  | stalled
  /-- A device that has a place already. -/
  | entered
  /-- A use of a branch that was not taken. -/
  | underflow (u : Underflow)
  /-- A block that waits, but not for a name. -/
  | nameless
  deriving DecidableEq, Repr

namespace Crash

open Lexeme (digitsLength)

def range (items : List Char) (start stop : Nat) : Except Crash (List Char) :=
  if start ≤ stop ∧ stop ≤ items.length then .ok ((items.drop start).take (stop - start))
    else .error .outOfRange

def after (items : List Char) (n : Nat) : Except Crash (List Char) :=
  if n ≤ items.length then .ok (items.drop n) else .error .outOfRange

def many (one : List Char → Except Crash Nat) : Nat → List Char → Except Crash Nat
  | _, [] => return 0
  | 0, _ :: _ => .error .stalled
  | fuel + 1, c :: cs => do
    match ← one (c :: cs) with
    | 0 => return 0
    | n + 1 => return n + 1 + (← many one fuel (← after cs n))

def between (opening closing items : List Char) : Except Crash Nat := do
  match Pattern.scanUnit opening items with
  | 0 => return 0
  | n + 1 =>
    match Pattern.closing? closing (← after items (n + 1)) with
    | some k => return n + 1 + k
    | none => return items.length

mutual

def scan : Pattern → List Char → Except Crash Nat
  | .many p, items => many (scan p) items.length items
  | .oneOf ps, items => scanFirst ps items
  | .sequence ps, items => scanAll ps 0 items
  | .leading first rest, items => do
    match ← scan first items with
    | 0 => return 0
    | n + 1 =>
      let behind ← after items (n + 1)
      return n + 1 + (← many (scan rest) behind.length behind)
  | .between opening closing, items => between opening closing items
  | .unit chars, items => return Pattern.scanUnit chars items
  | .bytes text, items => return Pattern.scanBytes text items
  | .within low high, items => return (Pattern.within low high).scan items
  | .upTo c, items => return (Pattern.upTo c).scan items
  | .finish, items => return Pattern.finish.scan items

def scanFirst : List Pattern → List Char → Except Crash Nat
  | [], _ => return 0
  | p :: ps, items => do
    match ← scan p items with
    | 0 => scanFirst ps items
    | n + 1 => return n + 1

def scanAll : List Pattern → Nat → List Char → Except Crash Nat
  | [], done, _ => return done
  | p :: ps, done, items =>
    if items.isEmpty then return if ps.isEmpty then done else 0
    else do
      match ps.isEmpty, ← scan p items with
      | true, n => return done + n
      | false, 0 => return 0
      | false, n + 1 => scanAll ps (done + n + 1) (← after items (n + 1))

end

def fraction (items : List Char) (n : Nat) : Except Crash Nat := do
  match ← after items n with
  | '.' :: _ =>
    match digitsLength (← after items (n + 1)) with
    | 0 => return 0
    | m + 1 => return m + 2
  | _ => return 0

def exponent (items : List Char) (n : Nat) : Except Crash Nat := do
  match ← after items n with
  | c :: cs =>
    if c == 'e' || c == 'E' then
      let sign := Lexeme.signLength cs
      match digitsLength (← after items (n + 1 + sign)) with
      | 0 => return 0
      | m + 1 => return m + 2 + sign
    else return 0
  | [] => return 0

def scale (items : List Char) (n : Nat) : Except Crash Nat := do
  match ← after items n with
  | c :: cs =>
    if Value.isScaleLetter c then
      if cs.isEmpty then return 1
      else return if Lexeme.identifierRest.scan (← range items (n + 1) (n + 2)) == 0 then 1 else 0
    else return 0
  | [] => return 0

def number (items : List Char) : Except Crash Nat := do
  match digitsLength items with
  | 0 => return 0
  | whole + 1 =>
    let n := whole + 1 + (← fraction items (whole + 1))
    match ← exponent items n with
    | 0 => return n + (← scale items n)
    | e + 1 => return n + e + 1

inductive Shape where
  | pattern (p : Pattern)
  | number
  | string

def Shape.plain : Shape → Scanner Char
  | .pattern p => p.scan
  | .number => Lexeme.scanNumber
  | .string => Lexeme.scanString

def Shape.measure : Shape → List Char → Except Crash Nat
  | .pattern p, items => scan p items
  | .number, items => Crash.number items
  | .string, items => return Lexeme.scanString items

def signs : List (String × Kind) := [
  ("(", .leftParen), (")", .rightParen), ("[", .leftSquare), ("]", .rightSquare), (",", .comma),
  (";", .semicolon), (":", .colon), ("?", .question), ("<+", .contribute), ("<=", .lessEqual),
  ("<", .less), (">=", .greaterEqual), (">", .greater), ("==", .equal), ("=", .assign),
  ("!=", .notEqual), ("!", .bang), ("&&", .both), ("||", .either), ("+", .plus), ("-", .minus),
  ("**", .power), ("*", .times), ("/", .divide), ("%", .modulo)]

def shapes : List (Shape × Option Kind) := [
  (.pattern (.sequence [.bytes ['/', '/'], .upTo '\n']), none),
  (.pattern (.between ['/', '*'] ['*', '/']), none)] ++
  signs.map (fun sign => (.pattern (.unit sign.1.toList), some sign.2)) ++ [
  (.pattern (.many (.oneOf [.unit [' '], .unit ['\t'], .unit ['\n'], .unit ['\r']])), none),
  (.number, some .number),
  (.string, some .string),
  (.pattern (.leading Lexeme.identifierStart Lexeme.identifierRest), some .identifier),
  (.pattern .finish, some .finish)]

def firstMatch : List (Shape × Option Kind) → List Char → Except Crash (Option (Option Kind × Nat))
  | [], _ => return none
  | (shape, tag) :: rest, items => do
    match ← shape.measure items with
    | 0 => firstMatch rest items
    | n + 1 => return some (tag, n + 1)

/-- The words from a position on, and where the last round stands. -/
def words (contents : List Char) : Nat → Nat → Except Crash (List Lexeme × Nat)
  | 0, _ => .error .stalled
  | fuel + 1, start => do
    match ← firstMatch shapes (← after contents start) with
    | none => return ([], start)
    | some (tag, n) =>
      let stop := min contents.length (start + n)
      let text ← range contents start stop
      let found := tag.toList.map fun kind => ⟨kind, String.ofList text, ⟨start, stop⟩⟩
      if start = contents.length then return (found, start)
      else if stop ≤ start then .error .stalled
      else
        let (more, last) ← words contents fuel stop
        return (found ++ more, last)

def lex (s : SourceText) : Except Crash (Except Diagnostic Words) := do
  let (found, stop) ← words s.contents (s.contents.length + 1) 0
  let lexed : Lexed Kind := ⟨[], stop, s.contents.length⟩
  if lexed.remaining == 0 then return .ok found
  else return .error ⟨lexed.unmatched, "unknown text encountered"⟩

end Crash
end Analog
