import Analog.Operator
import Analog.Value.Basic

/-!
Expressions as they are read, before any name is looked up: tokens in postfix order. Operators take
their operands from the values before them, and an identifier right after an argument list is a
call.
-/
namespace Analog

inductive Token where
  | literal (v : Value)
  | marker
  | arguments
  | identifier (name : String)
  | unary (op : UnaryOp)
  | binary (op : BinaryOp)
  /-- Selects by the value before it; the branches are expressions of their own, so that one can be
  dropped without being looked at. -/
  | ternary (thn els : List Token)
  deriving Inhabited

abbrev Raw := List Token

mutual

def Token.text : Token → String
  | .literal v => v.text
  | .marker => "["
  | .arguments => "]"
  | .identifier name => name
  | .unary op => "u" ++ op.symbol
  | .binary op => op.symbol
  | .ternary thn els =>
    "?\x7b" ++ " ".intercalate (tokenTexts thn) ++ "\x7d:\x7b" ++
      " ".intercalate (tokenTexts els) ++ "\x7d"

def tokenTexts : List Token → List String
  | [] => []
  | t :: ts => t.text :: tokenTexts ts

end

def Raw.linear (r : Raw) : String := " ".intercalate (tokenTexts r)

end Analog
