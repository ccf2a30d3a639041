import Analog.Problem
import Analog.Raw.Basic
import Analog.Tree.Use

/-!
A design under construction: its circuit, and the scopes, parameters and variables that names can
mean. All of them are numbered, and none is ever taken away.
-/
namespace Analog

inductive DataType where
  | real
  | integer
  | string
  deriving DecidableEq, Repr

def DataType.text : DataType → String
  | real => "real"
  | integer => "integer"
  | string => "string"

structure Parameter where
  name : String
  type : DataType
  isLocal : Bool
  default : Option Tree
  /-- The value, if it is known before simulation. -/
  value : Option Value
  /-- Whether the parameter was given from outside, if that is known. -/
  given : Option Bool

def Parameter.ofType (name : String) (type : DataType) (isLocal : Bool) : Parameter :=
  ⟨name, type, isLocal, none, none, if isLocal then some false else none⟩

instance : Inhabited Parameter := ⟨.ofType "" .real false⟩

def Parameter.override (p : Parameter) (v : Value) : Parameter :=
  { p with value := some v, given := some true }

structure Variable where
  name : String
  type : DataType
  /-- A summary above that of every value assigned so far. -/
  summary : Summary
  needed : Markers

def Variable.ofType (name : String) (type : DataType) : Variable :=
  ⟨name, type, .fixed false, .empty⟩

instance : Inhabited Variable := ⟨.ofType "" .real⟩

abbrev ParameterId := Nat

abbrev ScopeId := Nat

inductive Binding where
  | parameter (id : ParameterId)
  | variable (id : VariableId)
  | port (node : NodeId)
  | net (node : NodeId)
  | branch (id : BranchId)
  deriving DecidableEq, Repr

inductive Reach where
  | always
  | unknown
  | never
  deriving DecidableEq, Repr

namespace Reach

def text : Reach → String
  | always => "always"
  | unknown => "unknown"
  | never => "never"

/-- What is nested runs only when both run. -/
def join : Reach → Reach → Reach
  | never, _ => never
  | _, never => never
  | unknown, _ => unknown
  | _, unknown => unknown
  | always, always => always

end Reach

structure Scope where
  /-- The scopes around it, the nearest first. -/
  enclosing : List ScopeId
  bindings : List (String × Binding)
  reach : Reach
  condition : String

def Scope.inside (enclosing : List ScopeId) : Scope := ⟨enclosing, [], .always, ""⟩

instance : Inhabited Scope := ⟨.inside []⟩

/-- A place where a filter is called: a resolver, an expression, and the way to the call in it. -/
structure CallSite where
  resolver : Nat
  expression : Nat
  path : List Nat
  deriving DecidableEq, Repr

structure Design where
  circuit : Circuit
  scopes : Array Scope
  parameters : Array Parameter
  vars : Array Variable
  filters : List (CallSite × BranchId)
  expressions : Nat

/-- An expression to be resolved, maybe more than once, under a number of its own. -/
structure Source where
  raw : Raw
  key : Nat
  deriving Inhabited

/-- Operations on a design that keep what they did before they failed. -/
abbrev DesignM := EStateM Failure Design

namespace Design

def rootScope : ScopeId := 0

def empty : Design := ⟨.empty, #[.inside []], #[], #[], [], 0⟩

instance : Inhabited Design := ⟨empty⟩

def scopeOf (d : Design) (s : ScopeId) : Scope := d.scopes.getD s default

def parameterOf (d : Design) (p : ParameterId) : Parameter := d.parameters.getD p default

def variableOf (d : Design) (v : VariableId) : Variable := d.vars.getD v default

def modifyScope (d : Design) (s : ScopeId) (f : Scope → Scope) : Design :=
  { d with scopes := d.scopes.modify s f }

def modifyParameter (d : Design) (p : ParameterId) (f : Parameter → Parameter) : Design :=
  { d with parameters := d.parameters.modify p f }

def modifyVariable (d : Design) (v : VariableId) (f : Variable → Variable) : Design :=
  { d with vars := d.vars.modify v f }

def addScope (d : Design) (parent : ScopeId) : ScopeId × Design :=
  (d.scopes.size, { d with
    scopes := d.scopes.push (.inside (parent :: (d.scopeOf parent).enclosing)) })

def addParameter (d : Design) (p : Parameter) : ParameterId × Design :=
  (d.parameters.size, { d with parameters := d.parameters.push p })

def addVariable (d : Design) (v : Variable) : VariableId × Design :=
  (d.vars.size, { d with vars := d.vars.push v })

def addSource (d : Design) (raw : Raw) : Source × Design :=
  (⟨raw, d.expressions⟩, { d with expressions := d.expressions + 1 })

/-- The summary of a variable that is read now; the reader depends on the variable, too. -/
def snapshot (d : Design) (v : VariableId) : Summary := (d.variableOf v).summary.addConsumer v

def assign (d : Design) (v : VariableId) (s : Summary) : Bool × Design :=
  ((d.variableOf v).summary.grows s,
    d.modifyVariable v fun var => { var with summary := var.summary.absorb s })

end Design

namespace DesignM

def onCircuit {α : Type} (act : CircuitM α) : DesignM α := fun d =>
  match act d.circuit with
  | .ok a c => .ok a { d with circuit := c }
  | .error u c => .error (.underflow u) { d with circuit := c }

def fail {α : Type} (c : Cause) : DesignM α := throw (.ofCause c)

/-- Runs an operation of which a problem means that `held` is dropped. -/
def orRelease {α : Type} (held : List Tree) (act : DesignM α) : DesignM α := fun d =>
  match act d with
  | .error (.problem p) d =>
    match onCircuit (Tree.releaseAll held) d with
    | .ok _ d => .error (.problem p) d
    | .error f d => .error f d
  | r => r

end DesignM
end Analog
