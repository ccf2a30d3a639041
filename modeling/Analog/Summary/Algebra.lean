import Analog.Operator
import Analog.Summary.Basic

/-!
The summary of an operation from the summaries of its operands. Edges and consumers come in the
order of the operands, and the first edge of a probe counts.
-/
namespace Analog.Summary

def enter (s source : Summary) (edges : EdgeSet) : Summary :=
  { s with deps := s.deps.union edges, consumers := s.consumers.union source.consumers }

def combine (operands : List Summary) : Summary :=
  operands.foldl (fun r s =>
    { r.enter s s.deps with offset := r.offset || s.offset, constant := r.constant && s.constant })
    (plain false true)

/-- Products: what varies raises the orders of the other factor. -/
def multiply (l r : Summary) : Summary :=
  let ldeps := if r.hasDeps then l.deps.map Order.raise else l.deps
  let rdeps := if l.hasDeps then r.deps.map Order.raise else r.deps
  ((plain (l.offset && r.offset) (l.constant && r.constant)).enter l ldeps).enter r rdeps

/-- Quotients: nothing is known of orders when the denominator varies. -/
def divide (num den : Summary) : Summary :=
  let weaken (s : EdgeSet) : EdgeSet := if den.hasDeps then s.map fun _ => .any else s
  ((plain num.offset (num.constant && den.constant)).enter num (weaken num.deps)).enter den
    (weaken den.deps)

def uniform (order : Order) (operands : List Summary) : Summary :=
  operands.foldl (fun r s =>
    { r.enter s (s.deps.map fun _ => order) with constant := r.constant && s.constant })
    (plain true true)

def logical (operands : List Summary) : Summary := uniform .none operands

def arbitrary (operands : List Summary) : Summary := uniform .any operands

/-- A choice: the edges of the branches count before those of the condition, and the constant flag
is that of the condition. -/
def select (cond thn els : Summary) : Summary :=
  (((plain (thn.offset || els.offset) cond.constant).enter thn thn.deps).enter els
    els.deps).enter cond (cond.deps.map fun _ => .none)

def ofUnary (op : UnaryOp) (s : Summary) : Summary :=
  match op with
  | .not => logical [s]
  | .neg => combine [s]

def ofBinary (op : BinaryOp) (l r : Summary) : Summary :=
  if op.isAdditive then combine [l, r]
  else if op == .mul then multiply l r
  else if op == .div then divide l r
  else if op.isLogical then logical [l, r]
  else arbitrary [l, r]

end Analog.Summary
