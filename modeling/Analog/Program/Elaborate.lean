import Analog.Device.Finish
import Analog.Program.Items

/-!
From programs to devices. The items are worked off in their order and the first problem ends the
work; devices are finished when all items are done, and then all problems are reported.
-/
namespace Analog

namespace Clause

mutual

def build (scope : ScopeId) (c : Clause) (d : Design) : Except Cause (Statement × Design) :=
  match c with
  | .declare name type init => d.newDeclaration scope name type init
  | .assign name value => .ok (d.newAssignment name value)
  | .contribute target value => .ok (d.newContribution target value)
  | .conditional cond thn els =>
    let (source, d) := d.addSource cond
    let (thnScope, d) := d.addScope scope
    let (elsScope, d) := d.addScope scope
    match buildAll thnScope thn d with
    | .error c => .error c
    | .ok (thn, d) =>
      match buildAll elsScope els d with
      | .error c => .error c
      | .ok (els, d) => .ok (.conditional ⟨source, none, none⟩ thnScope thn elsScope els, d)
  | .block body =>
    let (inner, d) := d.addScope scope
    match buildAll inner body d with
    | .error c => .error c
    | .ok (body, d) => .ok (.block inner body, d)

def buildAll (scope : ScopeId) (cs : List Clause) (d : Design) :
    Except Cause (List Statement × Design) :=
  match cs with
  | [] => .ok ([], d)
  | c :: cs =>
    match build scope c d with
    | .error c => .error c
    | .ok (s, d) =>
      match buildAll scope cs d with
      | .error c => .error c
      | .ok (ss, d) => .ok (s :: ss, d)

end

end Clause

namespace DeviceM

def addAnalog (body : List Clause) : DeviceM Unit := do
  let m ← get
  match Clause.build Device.analogScope (.block body) m.design with
  | .error c => fail c
  | .ok (s, d) => do
    set { m with design := d, body := m.body ++ [s] }
    settle m.body.length

def checkPort (name : String) : DeviceM Unit := do
  match (← get).lookup? name with
  | some (.port _) => return ()
  | _ => fail (.notPort name)

end DeviceM

def ProgramItem.apply : ProgramItem → DeviceM Unit
  | .device _ => return ()
  | .port name => DeviceM.declarePort name.text
  | .direction name => DeviceM.checkPort name.text
  | .node name => DeviceM.declareNode name.text
  | .parameter name type default isLocal => DeviceM.declareParameter name.text type default isLocal
  | .variable name type => DeviceM.declareVariable name.text type
  | .branch name p n => DeviceM.declareBranch name.text p n
  | .analog _ body => DeviceM.addAnalog body

structure PlacedDevice where
  span : Span
  device : Device

namespace Program

def elaborateItems (config : Config) : List ProgramItem → List PlacedDevice →
    Except Diagnostic (List PlacedDevice)
  | [], done => .ok done
  | .device name :: items, done =>
    elaborateItems config items (⟨name.span, .create name.text config⟩ :: done)
  | item :: items, m :: done =>
    match item.apply m.device with
    | .ok _ device => elaborateItems config items ({ m with device := device } :: done)
    | .error f _ => .error ⟨item.span, f.message⟩
  | _ :: items, [] => elaborateItems config items []

def finishDevice (m : PlacedDevice) : Device × List Diagnostic :=
  match DeviceM.finish m.device with
  | .ok problems device => (device, problems.map fun p => ⟨m.span, p.message⟩)
  | .error f device => (device, [⟨m.span, f.message⟩])

def finishAll (ms : List PlacedDevice) : Except (List Diagnostic) (List Device) :=
  let results := ms.map finishDevice
  let diagnostics := results.flatMap (·.2)
  if diagnostics.isEmpty then .ok (results.map (·.1)) else .error diagnostics

def elaborate (config : Config) (p : Program) : Except (List Diagnostic) (List Device) :=
  match elaborateItems config p.items [], p.error with
  | .error d, _ => .error [d]
  | .ok _, some d => .error [d]
  | .ok done, none => finishAll done.reverse

end Program

def SourceText.devices (s : SourceText) (config : Config) :
    Except (List Diagnostic) (List Device) :=
  match Lexeme.ofText s with
  | .error d => .error [d]
  | .ok ws => (Program.ofWords ws).elaborate config

end Analog
