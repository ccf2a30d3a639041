import Analog.Circuit.Shorts
import Analog.Design.Basic

/-!
Names in scopes. A look-up goes outward from a scope; a name is declared once in each scope and may
hide one further out.
-/
namespace Analog.Design

def chain (d : Design) (s : ScopeId) : List ScopeId := s :: (d.scopeOf s).enclosing

def define? (d : Design) (s : ScopeId) (name : String) (b : Binding) : Option Design :=
  match (d.scopeOf s).bindings.lookup name with
  | some _ => none
  | none =>
    some (d.modifyScope s fun scope => { scope with bindings := scope.bindings ++ [(name, b)] })

def lookup? (d : Design) (s : ScopeId) (name : String) : Option Binding :=
  (d.chain s).findSome? fun t => (d.scopeOf t).bindings.lookup name

def reach (d : Design) (s : ScopeId) : Reach :=
  (d.chain s).foldl (fun r t => r.join (d.scopeOf t).reach) .always

/-- Whether the statements of a scope are sure to run; a scope is a guard in this sense. -/
def always (d : Design) (s : ScopeId) : Bool := d.reach s == .always

def setReach (d : Design) (s : ScopeId) (reach : Reach) (condition : String) : Design :=
  d.modifyScope s fun scope => { scope with reach := reach, condition := condition }

def guardText (d : Design) (s : ScopeId) : String :=
  " && ".intercalate (((d.chain s).map fun t => (d.scopeOf t).condition).filter (· != "")).reverse

def nodeText (d : Design) (i : NodeId) : String := d.circuit.nodeText d.guardText i

def followNode (d : Design) (i : NodeId) : Option NodeId := d.circuit.follow d.always i

end Analog.Design
