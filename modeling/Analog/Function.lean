import Analog.Summary.Algebra
import Analog.Tree.Basic
import Analog.Value.Arithmetic

/-!
The functions of the language, with how many arguments they take and what is known of their values.
-/
namespace Analog

inductive Role where
  | environment
  | given
  | filter
  | unary (f : Float → Float)
  | binary (f : Float → Float → Float)

structure Function where
  name : String
  role : Role
  least : Nat
  most : Nat
  integral : Bool

namespace Function

def ofUnary (name : String) (f : Float → Float) (integral : Bool) : Function :=
  ⟨name, .unary f, 1, 1, integral⟩

def ofBinary (name : String) (f : Float → Float → Float) (integral : Bool) : Function :=
  ⟨name, .binary f, 2, 2, integral⟩

def all : List Function :=
  [⟨"$temperature", .environment, 0, 0, false⟩,
    ⟨"$abstime", .environment, 0, 0, false⟩,
    ⟨"$vt", .environment, 0, 1, false⟩,
    ⟨"$param_given", .given, 1, 1, false⟩,
    ⟨"ddt", .filter, 1, 1, false⟩,
    ⟨"idt", .filter, 1, 2, false⟩,
    ofUnary "exp" Float.exp false,
    ofUnary "limexp" Float.exp false,
    ofUnary "ln" Float.log false,
    ofUnary "log" Float.log10 false,
    ofUnary "sqrt" Float.sqrt false,
    ofUnary "sin" Float.sin false,
    ofUnary "cos" Float.cos false,
    ofUnary "tan" Float.tan false,
    ofUnary "asin" Float.asin false,
    ofUnary "acos" Float.acos false,
    ofUnary "atan" Float.atan false,
    ofUnary "sinh" Float.sinh false,
    ofUnary "cosh" Float.cosh false,
    ofUnary "tanh" Float.tanh false,
    ofUnary "abs" Float.abs true,
    ofUnary "floor" Float.floor true,
    ofUnary "ceil" Float.ceil true,
    ofBinary "pow" Float.pow false,
    ofBinary "atan2" Float.atan2 false,
    ofBinary "hypot" Arithmetic.hypotenuse false,
    ofBinary "min" Arithmetic.minimum true,
    ofBinary "max" Arithmetic.maximum true]

def find? (name : String) : Option Function := all.find? (·.name == name)

def summary (f : Function) (args : List Summary) : Summary :=
  match f.role with
  | .environment => .combine (args ++ [.varying])
  | .given => .fixed true
  | _ => .arbitrary args

def value? (f : Function) (args : List Float) : Option Float :=
  match f.role, args with
  | .unary g, [x] => some (g x)
  | .binary g, [x, y] => some (g x y)
  | _, _ => none

def literals? : List Tree → Option (List Value)
  | [] => some []
  | .literal v _ :: ts => (literals? ts).map (v :: ·)
  | _ => none

def fold? (f : Function) (args : List Tree) : Option Value := do
  let values ← literals? args
  let reals ← values.mapM Value.toReal?
  let x ← f.value? reals
  if f.integral && !values.any Value.isReal then some (.int (Arithmetic.truncate x))
  else some (.real x)

end Function
end Analog
