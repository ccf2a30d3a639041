import Analog.Design.Basic

/-!
Statements of analog blocks. Each holds what it was written as, and what became of it so far: it is
resolved again and again, since the variables it reads may be assigned further on.
-/
namespace Analog

structure Declaration where
  symbol : Symbol
  source : Option Source
  value : Option Tree

structure Assignment where
  name : String
  /-- What the name was found to mean. -/
  symbol : Option Symbol
  source : Source
  value : Option Tree

structure Contribution where
  target : Source
  source : Source
  quantity : Option Quantity
  value : Option Tree
  /-- Above the summary of every value so far. -/
  summary : Option Summary
  short : Bool

structure Condition where
  source : Source
  value : Option Tree
  summary : Option Summary

inductive Statement where
  | declare (s : Declaration)
  | assign (s : Assignment)
  | contribute (s : Contribution)
  | conditional (c : Condition) (thnScope : ScopeId) (thn : List Statement) (elsScope : ScopeId)
      (els : List Statement)
  | block (scope : ScopeId) (body : List Statement)

namespace Statement

def ofAssignment (name : String) (source : Source) : Statement :=
  .assign ⟨name, none, source, none⟩

def ofContribution (target source : Source) : Statement :=
  .contribute ⟨target, source, none, none, none, false⟩

/-- The scope that decides whether a statement of a block runs. -/
def ownScope (outer : ScopeId) : Statement → ScopeId
  | .block s _ => s
  | _ => outer

mutual

/-- The number of statements, with all that is nested. Blocks themselves do not count. -/
def count : Statement → Nat
  | .conditional _ _ thn _ els => 1 + countAll thn + countAll els
  | .block _ body => countAll body
  | _ => 1

def countAll : List Statement → Nat
  | [] => 0
  | s :: ss => s.count + countAll ss

end

end Statement
end Analog
