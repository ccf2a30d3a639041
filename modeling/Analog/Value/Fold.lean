import Analog.Operator
import Analog.Value.Arithmetic
import Analog.Value.Basic

/-!
Operators on known values. Two integers give an integer by wrap-around arithmetic, except that a
zero divisor and an exponent outside 0 to 63 go to the reals; mixed operands are reals. Comparisons
and logical operators give 0 or 1. A string fits only equality with a string.
-/
namespace Analog

inductive Mismatch where
  | condition (v : Value)
  | unary (op : UnaryOp) (v : Value)
  | binary (op : BinaryOp) (l r : Value)
  deriving DecidableEq

def Mismatch.message : Mismatch → String
  | condition v => v.text ++ " used as condition: type mismatch"
  | unary op v => op.symbol ++ v.text ++ ": type mismatch"
  | binary op l r => l.text ++ " " ++ op.symbol ++ " " ++ r.text ++ ": type mismatch"

namespace Value

/-- Stands in for a real divisor that is exactly zero. -/
def epsilon : Float := 1e-30

def truth (v : Value) : Except Mismatch Bool :=
  match v.truth? with
  | some b => .ok b
  | none => .error (.condition v)

def foldUnary (op : UnaryOp) (v : Value) : Except Mismatch Value :=
  match op, v with
  | .neg, int n => .ok (int (-n))
  | .neg, real x => .ok (real (-x))
  | .neg, str _ => .error (.unary op v)
  | .not, v =>
    match v.truth? with
    | some b => .ok (ofBool !b)
    | none => .error (.unary op v)

def foldInt? (op : BinaryOp) (l r : Int64) : Option Int64 :=
  let bit (b : Bool) : Option Int64 := some (if b then 1 else 0)
  match op with
  | .add => some (l + r)
  | .sub => some (l - r)
  | .mul => some (l * r)
  | .div => if r == 0 then none else some (l / r)
  | .mod => if r == 0 then none else some (l % r)
  | .pow => if r < 0 || 63 < r then none else some (Arithmetic.power l r.toInt.toNat)
  | .eq => bit (l == r)
  | .ne => bit (l != r)
  | .lt => bit (l < r)
  | .le => bit (l ≤ r)
  | .gt => bit (r < l)
  | .ge => bit (r ≤ l)
  | .and => none
  | .or => none

def foldReal (op : BinaryOp) (l r : Float) : Except Mismatch Value :=
  let bit (b : Bool) : Except Mismatch Value := .ok (ofBool b)
  match op with
  | .add => .ok (real (l + r))
  | .sub => .ok (real (l - r))
  | .mul => .ok (real (l * r))
  | .div => .ok (real (l / (if r == 0 then epsilon else r)))
  | .mod =>
    if r == 0 then .error (.binary op (real l) (real r))
    else .ok (real (Arithmetic.remainder l r))
  | .pow => .ok (real (l.pow r))
  | .eq => bit (l == r)
  | .ne => bit (l != r)
  | .lt => bit (l < r)
  | .le => bit (l ≤ r)
  | .gt => bit (r < l)
  | .ge => bit (r ≤ l)
  | .and => .error (.binary op (real l) (real r))
  | .or => .error (.binary op (real l) (real r))

def foldLogical (op : BinaryOp) (join : Bool → Bool → Bool) (l r : Value) :
    Except Mismatch Value :=
  match l.truth?, r.truth? with
  | some a, some b => .ok (ofBool (join a b))
  | _, _ => .error (.binary op l r)

def foldNumeric (op : BinaryOp) (l r : Value) : Except Mismatch Value :=
  match l.toReal?, r.toReal? with
  | some a, some b => foldReal op a b
  | _, _ => .error (.binary op l r)

def fold (op : BinaryOp) (l r : Value) : Except Mismatch Value :=
  match op, l, r with
  | .and, l, r => foldLogical op and l r
  | .or, l, r => foldLogical op or l r
  | .eq, str a, str b => .ok (ofBool (a == b))
  | .ne, str a, str b => .ok (ofBool (a != b))
  | op, int a, int b =>
    match foldInt? op a b with
    | some n => .ok (int n)
    | none => foldNumeric op l r
  | op, l, r => foldNumeric op l r

end Value
end Analog
