import Analog.Device.Editor

/-!
The calls that build a device, and the editor after them.
-/
namespace Analog

/-- The calls that build a device. -/
inductive Operation where
  | port (name : String)
  | node (name : String)
  | variable (name : String) (type : DataType)
  | parameter (name : String) (type : DataType) (default : Raw) (isLocal : Bool)
  | branch (name p : String) (n : Option String)
  | analog
  | declare (name : String) (type : DataType) (init : Option Raw)
  | assign (name : String) (value : Raw)
  | contribute (target value : Raw)
  | openBlock
  | openConditional (cond : Raw)
  | openElse
  | close
  /-- Goes on in a block that was made before. -/
  | focus (a : Address)
  | settle (block : Nat)
  | update (r : Resolver)
  | dataflow (r : Resolver)
  | mark
  | finish

namespace Editor

def onDevice {α : Type} (e : Editor) (act : DeviceM α) : Editor × Option Failure :=
  match act e.device with
  | .ok _ m => ({ e with device := m }, none)
  | .error f m => ({ e with device := m }, some f)

def attempt (e : Editor) : Except EditorFault Editor → Editor × Option Failure
  | .ok e => (e, none)
  | .error _ => (e, none)

/-- What a call leaves, and what it failed with. -/
def perform (e : Editor) : Operation → Editor × Option Failure
  | .port name => e.onDevice (DeviceM.declarePort name)
  | .node name => e.onDevice (DeviceM.declareNode name)
  | .variable name type => e.onDevice (DeviceM.declareVariable name type)
  | .parameter name type default isLocal =>
    e.onDevice (DeviceM.declareParameter name type default isLocal)
  | .branch name p n => e.onDevice (DeviceM.declareBranch name p n)
  | .analog => (e.openAnalog, none)
  | .declare name type init =>
    match e.declare name type init with
    | .ok (.ok e) => (e, none)
    | .ok (.error cause) => (e, some (.ofCause cause))
    | .error _ => (e, none)
  | .assign name value => e.attempt (e.append (·.newAssignment name value))
  | .contribute target value => e.attempt (e.append (·.newContribution target value))
  | .openBlock => e.attempt e.openBlock
  | .openConditional cond => e.attempt (e.openConditional cond)
  | .openElse => e.attempt e.openElse
  | .close => e.attempt e.close
  | .focus a => e.attempt (e.focus a)
  | .settle block => e.onDevice (DeviceM.settle block)
  | .update r =>
    match e.update r with
    | .ok u =>
      match u.result with
      | .ok _ => (u.value, none)
      | .error f => (u.value, some f)
    | .error _ => (e, none)
  | .dataflow r => e.onDevice (DeviceM.runDataflow r)
  | .mark => e.onDevice DeviceM.markBody
  | .finish => e.onDevice DeviceM.finish

def performAll (e : Editor) (ops : List Operation) : Editor :=
  ops.foldl (fun e op => (e.perform op).1) e

end Editor
end Analog
