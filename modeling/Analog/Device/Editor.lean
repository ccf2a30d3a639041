import Analog.Device.Finish
import Analog.Statement.Address

/-!
Building a device call by call. The editor keeps the blocks that are open, innermost first; new
statements go to the innermost one. Any block that was made before can be opened again.
-/
namespace Analog

structure Editor where
  device : Device
  opened : List Address

inductive EditorFault where
  | noBlock
  | noElse
  deriving DecidableEq, Repr

def EditorFault.message : EditorFault → String
  | noBlock => "no block"
  | noElse => "no else"

namespace Editor

def ofDevice (m : Device) : Editor := ⟨m, []⟩

def innermost? (e : Editor) : Except EditorFault (Address × ScopeId × List Statement) :=
  match e.opened with
  | [] => .error .noBlock
  | a :: _ =>
    match Statement.blockAt? Device.analogScope e.device.body a with
    | some (scope, body) => .ok (a, scope, body)
    | none => .error .noBlock

/-- The scope that names are looked up in: that of the innermost open block, or of the device. -/
def scope (e : Editor) : ScopeId :=
  match e.innermost? with
  | .ok (_, scope, _) => scope
  | .error _ => Design.rootScope

def setBlock (e : Editor) (a : Address) (body : List Statement) (d : Design) : Editor :=
  { e with device :=
    { e.device with design := d, body := Statement.setBlockAt body e.device.body a } }

def append (e : Editor) (make : Design → Statement × Design) : Except EditorFault Editor := do
  let (a, _, body) ← e.innermost?
  let (s, d) := make e.device.design
  return e.setBlock a (body ++ [s]) d

def declare (e : Editor) (name : String) (type : DataType) (init : Option Raw) :
    Except EditorFault (Except Cause Editor) := do
  let (a, scope, body) ← e.innermost?
  return (e.device.design.newDeclaration scope name type init).map fun (s, d) =>
    e.setBlock a (body ++ [s]) d

def appendOpen (e : Editor) (make : Design → ScopeId → Statement × Design) :
    Except EditorFault Editor := do
  let (a, scope, body) ← e.innermost?
  let e ← e.append (make · scope)
  return { e with opened := (a ++ [(body.length, .main)]) :: e.opened }

def openAnalog (e : Editor) : Editor :=
  match DeviceM.newAnalog e.device with
  | .ok i m => ⟨m, [[(i, .main)]]⟩
  | .error _ m => { e with device := m }

def openBlock (e : Editor) : Except EditorFault Editor := e.appendOpen Design.newBlock

def openConditional (e : Editor) (cond : Raw) : Except EditorFault Editor :=
  e.appendOpen (Design.newConditional · · cond)

def otherArm? (e : Editor) (a : Address) : Option Address :=
  match a.getLast?, Statement.blockAt? Device.analogScope e.device.body a.dropLast with
  | some (i, .main), some (_, body) =>
    match body[i]? with
    | some (.conditional _ _ _ _ _) => some (a.dropLast ++ [(i, .otherwise)])
    | _ => none
  | _, _ => none

def openElse (e : Editor) : Except EditorFault Editor := do
  let (a, _, _) ← e.innermost?
  match e.otherArm? a with
  | some other => return { e with opened := other :: e.opened.tail }
  | none => throw .noElse

def close (e : Editor) : Except EditorFault Editor := do
  let _ ← e.innermost?
  return { e with opened := e.opened.tail }

/-- Opens a block that there is, and no other. -/
def focus (e : Editor) (a : Address) : Except EditorFault Editor :=
  match Statement.blockAt? Device.analogScope e.device.body a with
  | some _ => .ok { e with opened := [a] }
  | none => .error .noBlock

def openedAnalog? (e : Editor) : Except EditorFault Nat :=
  match e.opened.getLast? with
  | some ((i, _) :: _) => .ok i
  | _ => .error .noBlock

def update (r : Resolver) (e : Editor) : Except EditorFault (Outcome Editor Bool) := do
  let (a, scope, body) ← e.innermost?
  let u := Statement.updateAll r scope body e.device.design
  return ⟨e.setBlock a u.value u.design, u.design, u.result⟩

end Editor
end Analog
