/-!
Operators of the expression language: their symbols, how tightly they bind, and the laws that the
simplifier may use.
-/
namespace Analog

inductive UnaryOp where
  | neg
  | not
  deriving DecidableEq, Repr

inductive BinaryOp where
  | add
  | sub
  | mul
  | div
  | mod
  | pow
  | eq
  | ne
  | lt
  | le
  | gt
  | ge
  | and
  | or
  deriving DecidableEq, Repr

def ternaryStrength : Nat := 0

def unaryStrength : Nat := 8

def atomStrength : Nat := 9

namespace UnaryOp

def symbol : UnaryOp → String
  | neg => "-"
  | not => "!"

def all : List UnaryOp := [neg, not]

def isLogical (op : UnaryOp) : Bool := op == not

end UnaryOp

namespace BinaryOp

def symbol : BinaryOp → String
  | add => "+"
  | sub => "-"
  | mul => "*"
  | div => "/"
  | mod => "%"
  | pow => "**"
  | eq => "=="
  | ne => "!="
  | lt => "<"
  | le => "<="
  | gt => ">"
  | ge => ">="
  | and => "&&"
  | or => "||"

def strength : BinaryOp → Nat
  | or => 1
  | and => 2
  | eq => 3
  | ne => 3
  | lt => 4
  | le => 4
  | gt => 4
  | ge => 4
  | add => 5
  | sub => 5
  | mul => 6
  | div => 6
  | mod => 6
  | pow => 7

def all : List BinaryOp := [add, sub, mul, div, mod, pow, eq, ne, lt, le, gt, ge, and, or]

def isCommutative : BinaryOp → Bool
  | add => true
  | mul => true
  | eq => true
  | ne => true
  | and => true
  | or => true
  | _ => false

def isAdditive (op : BinaryOp) : Bool := op == add || op == sub

def isMultiplicative (op : BinaryOp) : Bool := op == mul || op == div

def isLogical (op : BinaryOp) : Bool := op.strength < 5

def isRightAssociative (op : BinaryOp) : Bool := op == pow

def leftBound (op : BinaryOp) : Nat :=
  if op.isRightAssociative then op.strength + 1 else op.strength

def rightBound (op : BinaryOp) : Nat :=
  if op.isRightAssociative then op.strength else op.strength + 1

end BinaryOp
end Analog
