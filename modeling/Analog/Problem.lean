import Analog.Circuit.Build
import Analog.Circuit.Use
import Analog.Value.Literal

/-!
What can go wrong while a design is put together. A cause says what was found; the contexts in
front of it say where, outermost first.
-/
namespace Analog

inductive Fault where
  | unresolved
  | mismatch
  | argumentCount
  | redeclared
  | unknownBranch
  | malformed
  deriving DecidableEq, Repr

def Fault.text : Fault → String
  | unresolved => "unresolved symbol"
  | mismatch => "type mismatch"
  | argumentCount => "argument count mismatch"
  | redeclared => "already declared"
  | unknownBranch => "unknown branch"
  | malformed => "malformed expression"

inductive Item where
  | port
  | node
  | parameter
  | variable
  | branch
  deriving DecidableEq, Repr

def Item.text : Item → String
  | .port => "port"
  | .node => "node"
  | .parameter => "parameter"
  | .variable => "variable"
  | .branch => "branch"

inductive Cause where
  | undeclared (name : String)
  | undeclaredNode (name : String)
  | undeclaredVariable (name : String)
  | unknownFunction (name : String)
  | awaitedBranch (name : String)
  | missingBranch (name : String)
  | notFunction (name : String)
  | notNode (name : String)
  | notVariable (name : String)
  | nodeAsValue (name : String)
  | portAsValue (name : String)
  | notBranch (function : String)
  | loop (name : String) (error : Circuit.LoopError)
  | notParameter (function found : String)
  | notTarget (found : String)
  | variesInParameter (name : String)
  | accessArguments (function : String) (count : Nat)
  | functionArguments (function : String) (least most count : Nat)
  | redeclared (item : Item) (name : String)
  | insufficient
  | listAsValue
  | valueCount (tokens : String) (count : Nat)
  | literal (error : LiteralError)
  | accessKind (name kind : String)
  | notPort (name : String)
  | unstable (bound : Nat)
  deriving DecidableEq, Repr

namespace Cause

def fault? : Cause → Option Fault
  | undeclared _ => some .unresolved
  | undeclaredNode _ => some .unresolved
  | undeclaredVariable _ => some .unresolved
  | unknownFunction _ => some .unresolved
  | missingBranch _ => some .unresolved
  | awaitedBranch _ => some .unknownBranch
  | notFunction _ => some .mismatch
  | notNode _ => some .mismatch
  | notVariable _ => some .mismatch
  | nodeAsValue _ => some .mismatch
  | portAsValue _ => some .mismatch
  | notBranch _ => some .mismatch
  | loop _ _ => some .mismatch
  | notParameter _ _ => some .mismatch
  | notTarget _ => some .mismatch
  | variesInParameter _ => some .mismatch
  | accessArguments _ _ => some .argumentCount
  | functionArguments _ _ _ _ => some .argumentCount
  | redeclared _ _ => some .redeclared
  | insufficient => some .malformed
  | listAsValue => some .malformed
  | valueCount _ _ => some .malformed
  | literal _ => none
  | accessKind _ _ => none
  | notPort _ => none
  | unstable _ => none

def name : Cause → String
  | undeclared name => name
  | undeclaredNode name => name
  | undeclaredVariable name => name
  | unknownFunction name => name
  | missingBranch name => name
  | awaitedBranch name => name
  | notFunction name => name
  | notNode name => name
  | notVariable name => name
  | nodeAsValue name => name
  | portAsValue name => name
  | notBranch function => function
  | loop name _ => name
  | notParameter function _ => function
  | variesInParameter name => name
  | accessArguments function _ => function
  | functionArguments function _ _ _ => function
  | redeclared _ name => name
  | _ => ""

def detail : Cause → String
  | undeclared _ => "not declared"
  | undeclaredNode _ => "node not declared"
  | undeclaredVariable _ => "variable not declared"
  | unknownFunction _ => "unknown function"
  | missingBranch _ => "branch never declared"
  | awaitedBranch _ => "branch not declared"
  | notFunction _ => "not a function"
  | notNode _ => "not a node"
  | notVariable name => "cannot assign to " ++ name
  | nodeAsValue _ => "node used as a value"
  | portAsValue _ => "port used as a value"
  | notBranch _ => "expected nodes or a branch"
  | loop _ error => error.message
  | notParameter _ found => "expected a parameter, found " ++ found
  | notTarget found => "cannot contribute to " ++ found
  | variesInParameter _ => "parameter depends on circuit quantities"
  | accessArguments _ count => "expected 1 or 2 arguments, found " ++ toString count
  | functionArguments _ least most count =>
    "expected " ++ toString least ++ " to " ++ toString most ++ " arguments, found " ++
      toString count
  | redeclared item _ => item.text ++ " already declared"
  | insufficient => "insufficient operands"
  | listAsValue => "argument list used as a value"
  | valueCount tokens count => tokens ++ " yields " ++ toString count ++ " values"
  | literal error => error.message
  | accessKind name kind => "access function " ++ name ++ " has unknown kind " ++ kind
  | notPort _ => "not a port"
  | unstable bound => "dataflow did not stabilise within " ++ toString bound ++ " iterations"

def message (c : Cause) : String :=
  match c.fault? with
  | none => c.detail
  | some fault =>
    if c.name == "" then fault.text ++ ": " ++ c.detail
    else fault.text ++ " \"" ++ c.name ++ "\": " ++ c.detail

/-- Whether a later declaration may mend it. -/
def isDeferred (c : Cause) : Bool := c.fault? == some .unknownBranch

end Cause

structure Problem where
  context : List String
  cause : Cause
  deriving DecidableEq, Repr

namespace Problem

def ofCause (c : Cause) : Problem := ⟨[], c⟩

def inside (p : Problem) (context : String) : Problem := { p with context := context :: p.context }

def message (p : Problem) : String := ": ".intercalate (p.context ++ [p.cause.message])

def isDeferred (p : Problem) : Bool := p.cause.isDeferred

end Problem

/-- How an operation on a design fails: by a problem of the design, because more uses of a branch
were given back than taken, or because it never comes to an end. -/
inductive Failure where
  | problem (p : Problem)
  | underflow (u : Underflow)
  | endless
  deriving DecidableEq, Repr

namespace Failure

def ofCause (c : Cause) : Failure := .problem (.ofCause c)

def inside (f : Failure) (context : String) : Failure :=
  match f with
  | .problem p => .problem (p.inside context)
  | f => f

def message : Failure → String
  | .problem p => p.message
  | .underflow u => u.message
  | .endless => "following shorts does not end"

end Failure
end Analog
