import Analog.Design.Scope
import Analog.Statement.Basic

/-!
New statements in a scope, before they are first resolved.
-/
namespace Analog.Design

def newDeclaration (d : Design) (scope : ScopeId) (name : String) (type : DataType)
    (init : Option Raw) : Except Cause (Statement × Design) :=
  let (v, d) := d.addVariable (.ofType name type)
  match d.define? scope name (.variable v) with
  | none => .error (.redeclared .variable name)
  | some d =>
    match init with
    | none => .ok (.declare ⟨⟨name, v⟩, none, none⟩, d)
    | some raw =>
      let (source, d) := d.addSource raw
      .ok (.declare ⟨⟨name, v⟩, some source, none⟩, d)

def newAssignment (d : Design) (name : String) (raw : Raw) : Statement × Design :=
  let (source, d) := d.addSource raw
  (.ofAssignment name source, d)

def newContribution (d : Design) (target raw : Raw) : Statement × Design :=
  let (target, d) := d.addSource target
  let (source, d) := d.addSource raw
  (.ofContribution target source, d)

def newConditional (d : Design) (scope : ScopeId) (cond : Raw) : Statement × Design :=
  let (source, d) := d.addSource cond
  let (thnScope, d) := d.addScope scope
  let (elsScope, d) := d.addScope scope
  (.conditional ⟨source, none, none⟩ thnScope [] elsScope [], d)

def newBlock (d : Design) (scope : ScopeId) : Statement × Design :=
  let (inner, d) := d.addScope scope
  (.block inner [], d)

end Analog.Design
