import Analog.Tree.Basic

/-!
Trees as source text, with parentheses only where binding strengths ask for them.
-/
namespace Analog.Tree

def isSigned (v : Value) : Bool := v.text.toList.head? == some '-'

def strength : Tree → Nat
  | .unary _ _ _ => unaryStrength
  | .binary op _ _ _ => op.strength
  | .ternary _ _ _ _ => ternaryStrength
  | .declaration _ _ => ternaryStrength
  | .literal v _ => if isSigned v then unaryStrength else atomStrength
  | _ => atomStrength

def guarded (t : Tree) (bound : Nat) (text : String) : String :=
  if t.strength < bound then "(" ++ text ++ ")" else text

mutual

def source (c : Circuit) : Tree → String
  | .literal v _ => v.text
  | .parameter p => p.name
  | .variable v _ => v.name
  | .declaration v init => v.name ++ " = " ++ init.source c
  | .access q => q.text c
  | .node i => c.nodeName i
  | .port i => c.nodeName i
  | .unary op x _ => op.symbol ++ guarded x (unaryStrength + 1) (x.source c)
  | .binary op l r _ =>
    guarded l op.leftBound (l.source c) ++ " " ++ op.symbol ++ " " ++
      guarded r op.rightBound (r.source c)
  | .ternary cond thn els _ =>
    guarded cond (ternaryStrength + 1) (cond.source c) ++ " ? " ++ thn.source c ++ " : " ++
      els.source c
  | .call f args _ _ => f ++ "(" ++ ", ".intercalate (sources c args) ++ ")"
  | .arguments items => ", ".intercalate (sources c items)
  | .marker => ""
  | .deferred name => name

def sources (c : Circuit) : List Tree → List String
  | [] => []
  | t :: ts => t.source c :: sources c ts

end

end Analog.Tree
