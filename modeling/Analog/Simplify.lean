import Analog.Tree.Basic
import Analog.Value.Fold

/-!
Algebraic simplification of operations on trees: known values are folded, neutral and absorbing
literals vanish, and literals of a chain of sums or of products are gathered at its right end.
-/
namespace Analog

structure Simplified where
  tree : Tree
  dropped : Option Tree

namespace Simplify

def plainUnary (op : UnaryOp) (x : Tree) : Tree := .unary op x (.ofUnary op x.summary)

def plainBinary (op : BinaryOp) (l r : Tree) : Tree :=
  .binary op l r (.ofBinary op l.summary r.summary)

def unary (op : UnaryOp) (x : Tree) : Tree :=
  match op, x with
  | op, .literal v o =>
    match Value.foldUnary op v with
    | .ok w => .ofValue w
    | .error _ => plainUnary op (.literal v o)
  | .neg, .unary .neg y _ => y
  | op, x => plainUnary op x

def identity? (op : BinaryOp) (x : Tree) (c : Value) (o : Option Symbol) : Option Simplified :=
  if op == .mul && c.isZero then some ⟨.literal c o, some x⟩
  else if op == .and && c.isZero then some ⟨.ofValue (.int 0), some x⟩
  else if op.isMultiplicative && c.isOne then some ⟨x, none⟩
  else if op.isAdditive && c.isZero then some ⟨x, none⟩
  else none

/-- The operator that joins the literals of `(y inner c₁) outer c₂`, where the two operators can
change places. A quotient takes part only between reals, since integer division drops a
remainder. -/
def gather? (outer inner : BinaryOp) (c1 c2 : Value) : Option BinaryOp :=
  if outer.isAdditive && inner.isAdditive then
    some (if outer == inner then .add else .sub)
  else if outer.isMultiplicative && inner.isMultiplicative then
    if (outer == .div || inner == .div) && !(c1.isReal && c2.isReal) then none
    else some (if outer == inner then .mul else .div)
  else none

def literals (op : BinaryOp) (v : Value) (p : Option Symbol) (c : Value) (o : Option Symbol) :
    Tree :=
  match Value.fold op v c with
  | .ok w => .ofValue w
  | .error _ =>
    if op.isCommutative && v.isNumber && !c.isNumber then plainBinary op (.literal c o)
      (.literal v p)
    else plainBinary op (.literal v p) (.literal c o)

def rightLiteral (op : BinaryOp) (x : Tree) (c : Value) (o : Option Symbol) : Simplified :=
  match x with
  | .literal v p => ⟨literals op v p c o, none⟩
  | .binary inner y (.literal c1 o1) s =>
    let whole := Tree.binary inner y (.literal c1 o1) s
    match identity? op whole c o with
    | some t => t
    | none =>
      match gather? op inner c1 c with
      | none => ⟨plainBinary op whole (.literal c o), none⟩
      | some joint =>
        match Value.fold joint c1 c with
        | .ok folded => rightLiteral inner y folded none
        | .error _ => ⟨plainBinary op whole (.literal c o), none⟩
  | x => (identity? op x c o).getD ⟨plainBinary op x (.literal c o), none⟩

def binary (op : BinaryOp) (l r : Tree) : Simplified :=
  match l, r with
  | l, .literal c o => rightLiteral op l c o
  | .literal v p, r =>
    if op.isCommutative then rightLiteral op r v p else ⟨plainBinary op (.literal v p) r, none⟩
  | l, r => ⟨plainBinary op l r, none⟩

end Simplify
end Analog
