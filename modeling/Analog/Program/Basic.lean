import Analog.Design.Basic
import Analog.Lexer.Lexeme

/-!
Programs as they are written: a sequence of items, where each device begins with its name and is
followed by its declarations and analog blocks. Names keep the place where they stand.
-/
namespace Analog

inductive Clause where
  | declare (name : String) (type : DataType) (init : Option Raw)
  | assign (name : String) (value : Raw)
  | contribute (target value : Raw)
  | conditional (cond : Raw) (thn els : List Clause)
  | block (body : List Clause)

def Clause.declares (name : String) : Clause → Bool
  | .declare other _ _ => name == other
  | _ => false

inductive ProgramItem where
  | device (name : Lexeme)
  | port (name : Lexeme)
  | direction (name : Lexeme)
  | node (name : Lexeme)
  | parameter (name : Lexeme) (type : DataType) (default : Raw) (isLocal : Bool)
  | variable (name : Lexeme) (type : DataType)
  | branch (name : Lexeme) (p : String) (n : Option String)
  | analog (keyword : Lexeme) (body : List Clause)

def ProgramItem.span : ProgramItem → Span
  | .device name => name.span
  | .port name => name.span
  | .direction name => name.span
  | .node name => name.span
  | .parameter name _ _ _ => name.span
  | .variable name _ => name.span
  | .branch name _ _ => name.span
  | .analog keyword _ => keyword.span

structure Program where
  items : List ProgramItem
  error : Option Diagnostic

end Analog
