import Analog.Decimal.Radix
import Analog.Markup.Timestamp
import Analog.Value.Arithmetic

/-!
What the texts of a settings text mean. A plain text is told by how it looks; a tag asks for a
certain kind, and a tag that is not known leaves the text as it is.
-/
namespace Analog.Markup

inductive Meaning where
  | null
  | bool (b : Bool)
  | int (n : Int)
  | real (x : Float)
  | timestamp
  | text
  deriving DecidableEq

namespace Meaning

def tag : Meaning → String
  | null => "!!null"
  | bool _ => "!!bool"
  | int _ => "!!int"
  | real _ => "!!float"
  | timestamp => "!!timestamp"
  | text => "!!str"

def words : List (String × Meaning) :=
  [("", null), ("~", null), ("null", null), ("Null", null), ("NULL", null),
    ("true", bool true), ("True", bool true), ("TRUE", bool true),
    ("false", bool false), ("False", bool false), ("FALSE", bool false),
    (".nan", real Arithmetic.nan), (".NaN", real Arithmetic.nan), (".NAN", real Arithmetic.nan),
    (".inf", real (Decimal.infinity false)), (".Inf", real (Decimal.infinity false)),
    (".INF", real (Decimal.infinity false)), ("+.inf", real (Decimal.infinity false)),
    ("+.Inf", real (Decimal.infinity false)), ("+.INF", real (Decimal.infinity false)),
    ("-.inf", real (Decimal.infinity true)), ("-.Inf", real (Decimal.infinity true)),
    ("-.INF", real (Decimal.infinity true))]

def isRealChar (c : Char) : Bool :=
  Decimal.isDigit 10 c || c == '.' || c == 'e' || c == 'E' || c == '+' || c == '-'

def real? (cs : List Char) : Option Meaning :=
  if cs.all isRealChar then (Decimal.readReal? cs).map real else none

def intIn? (base : Nat) (cs : List Char) : Option Meaning :=
  let (negative, digits) := Decimal.takeSign cs
  let n := Decimal.digitsValue base digits
  if digits.isEmpty || !digits.all (Decimal.isDigit base) then none
  else if negative then if n ≤ Decimal.twoPow 63 then some (int (-(n : Int))) else none
  else if n < Decimal.twoPow (if digits.length < cs.length then 63 else 64) then some (int n)
  else none

def markedInt? : List Char → Option Meaning
  | '0' :: 'b' :: cs => intIn? 2 cs
  | '0' :: 'o' :: cs => intIn? 8 cs
  | '-' :: '0' :: 'b' :: cs => intIn? 2 ('-' :: cs)
  | '-' :: '0' :: 'o' :: cs => intIn? 8 ('-' :: cs)
  | _ => none

def number? (cs : List Char) : Option Meaning :=
  let plain := cs.filter (· != '_')
  ((Decimal.readSigned? plain).map int).or ((real? plain).or (markedInt? plain))

def underscoresFit (afterDigit : Bool) : List Char → Bool
  | [] => true
  | '_' :: cs => afterDigit && cs.head?.any (Decimal.isDigit 10) && underscoresFit false cs
  | c :: cs => underscoresFit (Decimal.isDigit 10 c) cs

def ofPlain (dates : Bool) (cs : List Char) : Meaning :=
  match words.lookup (String.ofList cs) with
  | some m => m
  | none =>
    match cs with
    | [] => null
    | c :: _ =>
      if c == '+' || c == '-' || Decimal.isDigit 10 c then
        if dates && Timestamp.isTimestamp cs then timestamp else (number? cs).getD text
      else if c == '.' && underscoresFit false cs then (real? (cs.filter (· != '_'))).getD text
      else text

def knownTags : List String := ["!!bool", "!!int", "!!float", "!!null", "!!timestamp"]

def under? (tag : String) (cs : List Char) : Option Meaning :=
  if !knownTags.contains tag then some text
  else
    let m := ofPlain (tag == "!!timestamp") cs
    if m.tag == tag then some m
    else match m with
      | int n =>
        if tag == "!!float" && n < (Decimal.twoPow 63 : Int) then
          some (real (Float.ofInt n)) else none
      | _ => none

end Meaning
end Analog.Markup
