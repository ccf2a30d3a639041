import Analog.Circuit.Use
import Analog.Summary.Algebra
import Analog.Value.Basic

/-!
Expressions whose names have been looked up. A tree counts as a user of the branches it reads, and
each of its parts has a summary: stored where the simplifier chose it, computed elsewhere.
-/
namespace Analog

structure Symbol where
  name : String
  id : Nat
  deriving DecidableEq, Repr

structure Quantity where
  function : String
  ref : BranchRef
  probe : Probe
  deriving DecidableEq, Repr

def Quantity.text (c : Circuit) (q : Quantity) : String :=
  q.function ++ "(" ++ c.refText q.ref ++ ")"

inductive Tree where
  /-- A known value, and the parameter it was taken from. -/
  | literal (v : Value) (origin : Option Symbol)
  | parameter (p : Symbol)
  /-- A variable, with its summary at the time it was read. -/
  | variable (v : Symbol) (summary : Summary)
  | declaration (v : Symbol) (init : Tree)
  | access (q : Quantity)
  | node (i : NodeId)
  | port (i : NodeId)
  | unary (op : UnaryOp) (x : Tree) (summary : Summary)
  | binary (op : BinaryOp) (l r : Tree) (summary : Summary)
  | ternary (cond thn els : Tree) (summary : Summary)
  | call (function : String) (args : List Tree) (filter : Option BranchId) (summary : Summary)
  | arguments (items : List Tree)
  | marker
  /-- A name without a meaning so far, which may yet be declared as a branch. -/
  | deferred (name : String)
  deriving Inhabited

namespace Tree

def ofValue (v : Value) : Tree := .literal v none

mutual

def summary : Tree → Summary
  | .literal v _ => .fixed !v.isZero
  | .parameter _ => .fixed true
  | .variable _ s => s
  | .declaration _ init => init.summary
  | .access q => .ofProbe q.probe
  | .node _ => .fixed false
  | .port _ => .fixed false
  | .unary _ _ s => s
  | .binary _ _ _ s => s
  | .ternary _ _ _ s => s
  | .call _ _ _ s => s
  | .arguments items => .combine (summaries items)
  | .marker => .fixed false
  | .deferred _ => .fixed false

def summaries : List Tree → List Summary
  | [] => []
  | t :: ts => t.summary :: summaries ts

end

def argumentsSummary (args : List Tree) : Summary := .combine (summaries args)

mutual

def parts : Tree → List Tree
  | .declaration v init => init.parts ++ [.declaration v init]
  | .unary op x s => x.parts ++ [.unary op x s]
  | .binary op l r s => l.parts ++ r.parts ++ [.binary op l r s]
  | .ternary c t e s => c.parts ++ t.parts ++ e.parts ++ [.ternary c t e s]
  | .call f args b s => allParts args ++ [.arguments args, .call f args b s]
  | .arguments items => allParts items ++ [.arguments items]
  | t => [t]

def allParts : List Tree → List Tree
  | [] => []
  | t :: ts => t.parts ++ allParts ts

end

end Tree
end Analog
