import Analog.Statement.Build
import Analog.Statement.Update

/-!
A device under elaboration. Its declarations come in the order of the source; an analog block is
resolved as soon as it is complete, and waits if it needs a branch that is not declared yet.
-/
namespace Analog

structure Waiting where
  block : Nat
  problem : Problem

structure Device where
  name : String
  resolver : Resolver
  design : Design
  body : List Statement
  waiting : List Waiting
  parameters : List ParameterId
  ports : List NodeId
  markers : Markers
  problems : List Problem

/-- Operations on a device that keep what they did before they failed. -/
abbrev DeviceM := EStateM Failure Device

namespace Device

def analogScope : ScopeId := 1

def create (name : String) (config : Config) : Device :=
  let (_, design) := Design.empty.addScope Design.rootScope
  ⟨name, ⟨config, 0⟩, design, [], [], [], [], .empty, config.fault?.toList⟩

def config (m : Device) : Config := m.resolver.config

def lookup? (m : Device) (name : String) : Option Binding := m.design.lookup? Design.rootScope name

end Device

namespace DeviceM

def onDesign {α : Type} (act : DesignM α) : DeviceM α := fun m =>
  match act m.design with
  | .ok a d => .ok a { m with design := d }
  | .error f d => .error f { m with design := d }

def fail {α : Type} (c : Cause) : DeviceM α := throw (.ofCause c)

def define (item : Item) (name : String) (b : Binding) : DeviceM Unit := do
  let m ← get
  match m.design.define? Design.rootScope name b with
  | some d => set { m with design := d }
  | none => fail (.redeclared item name)

/-- Updates an analog block; the result of the update is the result. -/
def updateBlock (i : Nat) : DeviceM (Except Failure Bool) := do
  let m ← get
  match m.body[i]? with
  | none => return .ok false
  | some s => do
    let u := s.update m.resolver Device.analogScope m.design
    set { m with design := u.design, body := m.body.set i u.value }
    return u.result

end DeviceM
end Analog
