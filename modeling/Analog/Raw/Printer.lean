import Analog.Raw.Basic

/-!
Raw expressions in source form, with brackets only where operators bind less tightly than their
place requires. An expression that is not well formed is shown token by token.
-/
namespace Analog

structure Operand where
  text : String
  strength : Nat
  isList : Bool

def Operand.within (o : Operand) (bound : Nat) : String :=
  if o.strength < bound then "(" ++ o.text ++ ")" else o.text

def Operand.atom (text : String) : Operand := ⟨text, atomStrength, false⟩

structure Printout where
  operands : List Operand
  marks : List Nat

namespace Printout

def empty : Printout := ⟨[], []⟩

def push (p : Printout) (o : Operand) : Printout := { p with operands := o :: p.operands }

def closeList? (p : Printout) : Option Printout :=
  match p.marks with
  | [] => none
  | mark :: marks =>
    let n := p.operands.length
    if n < mark then none
    else
      let items := (p.operands.take (n - mark)).reverse.map (·.text)
      some ⟨⟨", ".intercalate items, atomStrength, true⟩ :: p.operands.drop (n - mark), marks⟩

def name (p : Printout) (name : String) : Printout :=
  match p.operands with
  | o :: rest =>
    if o.isList then { p with operands := .atom (name ++ "(" ++ o.text ++ ")") :: rest }
    else p.push (.atom name)
  | [] => p.push (.atom name)

def unary? (p : Printout) (op : UnaryOp) : Option Printout :=
  match p.operands with
  | o :: rest =>
    some { p with operands := ⟨op.symbol ++ o.within (unaryStrength + 1), unaryStrength,
      false⟩ :: rest }
  | [] => none

def binary? (p : Printout) (op : BinaryOp) : Option Printout :=
  match p.operands with
  | r :: l :: rest =>
    let text := l.within op.leftBound ++ " " ++ op.symbol ++ " " ++ r.within op.rightBound
    some { p with operands := ⟨text, op.strength, false⟩ :: rest }
  | _ => none

def ternary? (p : Printout) (thn els : String) : Option Printout :=
  match p.operands with
  | o :: rest =>
    let text := o.within (ternaryStrength + 1) ++ " ? " ++ thn ++ " : " ++ els
    some { p with operands := ⟨text, ternaryStrength, false⟩ :: rest }
  | [] => none

def text? (p : Printout) : Option String :=
  match p.operands, p.marks with
  | [o], [] => some o.text
  | _, _ => none

end Printout

mutual

def Token.print? : Token → Printout → Option Printout
  | .literal v, p => some (p.push (.atom v.text))
  | .marker, p => some { p with marks := p.operands.length :: p.marks }
  | .arguments, p => p.closeList?
  | .identifier name, p => some (p.name name)
  | .unary op, p => p.unary? op
  | .binary op, p => p.binary? op
  | .ternary thn els, p =>
    let branch (r : Raw) (printed : Option Printout) := (printed.bind (·.text?)).getD r.linear
    p.ternary? (branch thn (printTokens? thn .empty)) (branch els (printTokens? els .empty))

def printTokens? : List Token → Printout → Option Printout
  | [], p => some p
  | t :: ts, p => (t.print? p).bind (printTokens? ts)

end

def Raw.source (r : Raw) : String :=
  ((printTokens? r .empty).bind (·.text?)).getD r.linear

end Analog
