import Analog.Decimal.Reader

/-!
Which plain texts are dates: a year of four digits, a month and a day, and a time of day behind the
letter T with a zone or behind blanks without one.
-/
namespace Analog.Markup.Timestamp

def isLeap (year : Nat) : Bool := year % 4 == 0 && (year % 100 != 0 || year % 400 == 0)

def daysIn (year month : Nat) : Nat :=
  if month == 2 then if isLeap year then 29 else 28
  else if month == 4 || month == 6 || month == 9 || month == 11 then 30
  else 31

def number? : List Char → Option (Nat × List Char)
  | a :: b :: cs =>
    if !Decimal.isDigit 10 a then none
    else if Decimal.isDigit 10 b then some (Decimal.digitsValue 10 [a, b], cs)
    else some (Decimal.digitsValue 10 [a], b :: cs)
  | [a] => if Decimal.isDigit 10 a then some (Decimal.digitsValue 10 [a], []) else none
  | [] => none

def mark? (c : Char) : List Char → Option (List Char)
  | [] => none
  | d :: cs => if c == d then some cs else none

def date? (cs : List Char) : Option (List Char) := do
  let year := cs.takeWhile (Decimal.isDigit 10)
  if year.length != 4 then none
  let cs ← mark? '-' (cs.drop 4)
  let (month, cs) ← number? cs
  let cs ← mark? '-' cs
  let (day, cs) ← number? cs
  if month == 0 || 12 < month || day == 0 || daysIn (Decimal.digitsValue 10 year)
    month < day then none
  else some cs

def skipFraction : List Char → List Char
  | c :: d :: cs =>
    if (c == '.' || c == ',') && Decimal.isDigit 10 d then cs.dropWhile (Decimal.isDigit 10)
      else c :: d :: cs
  | cs => cs

def time? (cs : List Char) : Option (List Char) := do
  let (hour, cs) ← number? cs
  let cs ← mark? ':' cs
  let (minute, cs) ← number? cs
  let cs ← mark? ':' cs
  let (second, cs) ← number? cs
  if 24 ≤ hour || 60 ≤ minute || 60 ≤ second then none else some (skipFraction cs)

def isZone : List Char → Bool
  | ['Z'] => true
  | [sign, a, b, ':', c, d] =>
    (sign == '+' || sign == '-') && [a, b, c, d].all (Decimal.isDigit 10) &&
      Decimal.digitsValue 10 [a, b] ≤ 24 && Decimal.digitsValue 10 [c, d] ≤ 60
  | _ => false

def isTimestamp (cs : List Char) : Bool :=
  match date? cs with
  | none => false
  | some [] => true
  | some (c :: cs) =>
    if c == 'T' || c == 't' then (time? cs).any isZone
    else c == ' ' && (time? (cs.dropWhile (· == ' '))).any List.isEmpty

end Analog.Markup.Timestamp
