import Analog.Decimal.Reader
import Analog.Text.Blank
import Analog.Value.Basic

/-!
Literals in source text: a quoted string, an integer, or a real with an optional exponent or scale
letter. Underscores in a number do not count.
-/
namespace Analog

inductive LiteralError where
  | string (text : List Char)
  | number (text : List Char)
  deriving DecidableEq, Repr

def LiteralError.message : LiteralError → String
  | string text => "invalid string " ++ String.ofList text
  | number text => "invalid number " ++ String.ofList text

namespace Value

def scaleLetters : List (Char × Float) :=
  [('T', 1e12), ('G', 1e9), ('M', 1e6), ('K', 1e3), ('k', 1e3), ('m', 1e-3), ('u', 1e-6),
    ('n', 1e-9), ('p', 1e-12), ('f', 1e-15), ('a', 1e-18)]

def isScaleLetter (c : Char) : Bool := (scaleLetters.lookup c).isSome

def splitScale (cs : List Char) : List Char × Option Float :=
  match cs.reverse with
  | last :: more :: rest =>
    match scaleLetters.lookup last with
    | some factor => ((more :: rest).reverse, some factor)
    | none => (cs, none)
  | _ => (cs, none)

def readNumber? (cs : List Char) : Option Value :=
  let (digits, factor) := splitScale (cs.filter (· != '_'))
  match factor with
  | some factor => (Decimal.readReal? digits).map fun x => real (x * factor)
  | none =>
    let whole := if digits.any ['.', 'e', 'E'].contains then none else Decimal.readInt? digits
    match whole with
    | some n => some (int n)
    | none => (Decimal.readReal? digits).map real

def read (text : String) : Except LiteralError Value :=
  let cs := Text.trim text.toList
  match cs with
  | '"' :: _ =>
    match Text.unquote? cs with
    | some bytes => .ok (str bytes)
    | none => .error (.string cs)
  | _ =>
    match readNumber? cs with
    | some v => .ok v
    | none => .error (.number cs)

end Value
end Analog
