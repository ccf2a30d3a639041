import Analog.Device.Basic

/-!
The declarations of a device. A declaration that fails may leave a node or an alias behind that
nothing names.
-/
namespace Analog.DeviceM

def newNode (item : Item) (name : String) : DeviceM NodeId := do
  let m ← get
  let (i, created, c) := m.design.circuit.addNode name
  set { m with design := { m.design with circuit := c } }
  if created then return i else fail (.redeclared item name)

def declarePort (name : String) : DeviceM Unit := do
  let i ← newNode .port name
  define .port name (.port i)
  modify fun m => { m with ports := m.ports ++ [i] }

/-- Declares a node. To say of a port that it is a node is no declaration. -/
def declareNode (name : String) : DeviceM Unit := do
  match (← get).lookup? name with
  | some (.port _) => return ()
  | _ => do
    let i ← newNode .node name
    define .node name (.net i)

def declareVariable (name : String) (type : DataType) : DeviceM Unit := do
  let m ← get
  let (v, d) := m.design.addVariable (.ofType name type)
  set { m with design := d }
  define .variable name (.variable v)

/-- The value that a parameter has before simulation: the one given for it, or, if it is local, its
default. -/
def settleParameter (p : ParameterId) (name : String) (isLocal : Bool) (default : Tree) :
    DeviceM Unit := do
  let set (f : Parameter → Parameter) : DeviceM Unit :=
    modify fun m => { m with design := m.design.modifyParameter p f }
  set ({ · with default := some default })
  match (← get).config.override? name with
  | .error problem => throw (.problem problem)
  | .ok (some v) => set (·.override v)
  | .ok none =>
    match default, isLocal with
    | .literal v _, true => set ({ · with value := some v })
    | _, _ => return ()

/-- Declares a parameter. Its default may use the parameters before it, but no quantity. -/
def declareParameter (name : String) (type : DataType) (default : Raw) (isLocal : Bool) :
    DeviceM Unit := do
  let m ← get
  let (p, d) := m.design.addParameter (.ofType name type isLocal)
  let (source, d) := d.addSource default
  set { m with design := d }
  define .parameter name (.parameter p)
  modify fun m => { m with parameters := m.parameters ++ [p] }
  let resolved ← onDesign fun d =>
    match source.resolve m.resolver Design.rootScope d with
    | .error f d => .error (f.inside ("parameter " ++ name)) d
    | .ok t d => .ok t d
  if resolved.summary.hasDeps then
    onDesign (DesignM.onCircuit resolved.release)
    fail (.variesInParameter name)
  settleParameter p name isLocal resolved

def nodeNamed (name : String) : DeviceM NodeId := do
  match (← get).lookup? name with
  | some (.port i) => return i
  | some (.net i) => return i
  | none => fail (.undeclaredNode name)
  | some _ => fail (.notNode name)

/-- Tries waiting blocks again, and gives those that still wait. -/
def retry : List Waiting → DeviceM (List Waiting)
  | [] => return []
  | w :: ws => do
    match ← updateBlock w.block with
    | .ok _ => retry ws
    | .error (.problem p) => do
      if p.isDeferred then
        return { w with problem := p } :: (← retry ws)
      else
        modify fun m => { m with problems := m.problems ++ [p] }
        retry ws
    | .error f => throw f

def declareBranch (name p : String) (n : Option String) : DeviceM Unit := do
  let pos ← nodeNamed p
  let neg ← match n with
    | some n => nodeNamed n
    | none => pure ground
  let m ← get
  match m.design.circuit.connect pos neg with
  | .error e => fail (.loop name e)
  | .ok (ref, c) => do
    set { m with design := { m.design with circuit := c } }
    match c.addAlias? ref name with
    | none => fail (.redeclared .branch name)
    | some (b, c) => do
      set { m with design := { m.design with circuit := c } }
      define .branch name (.branch b)
      let waiting ← retry m.waiting
      modify fun m => { m with waiting := waiting }

def newAnalog : DeviceM Nat := do
  let m ← get
  let (s, d) := m.design.newBlock Device.analogScope
  set { m with design := d, body := m.body ++ [s] }
  return m.body.length

def settle (block : Nat) : DeviceM Unit := do
  match ← updateBlock block with
  | .ok _ => return ()
  | .error (.problem p) =>
    if p.isDeferred then modify fun m => { m with waiting := m.waiting ++ [⟨block, p⟩] }
    else throw (.problem p)
  | .error f => throw f

end Analog.DeviceM
