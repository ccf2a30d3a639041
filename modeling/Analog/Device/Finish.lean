import Analog.Device.Declare
import Analog.Statement.Fixpoint
import Analog.Statement.Marking

/-!
Finishing a device: what still waits is a problem; otherwise the dataflow runs to its end, and all
that contributions need is marked.
-/
namespace Analog.DeviceM

def runDataflow (r : Resolver) : DeviceM Nat := do
  let m ← get
  let u := Statement.fixpoint r Device.analogScope m.body m.design
  set { m with design := u.design, body := u.value }
  match u.result with
  | .ok n => return n
  | .error f => throw f

def markBody : DeviceM Markers := do
  let m ← get
  let (markers, d) := Statement.markAll Device.analogScope m.body m.design
  set { m with design := d }
  return markers

def missing (device : String) (w : Waiting) : Problem :=
  ⟨[device], .missingBranch w.problem.cause.name⟩

/-- Finishes a device. Problems that stand in the way are given; there are none on success. -/
def finish : DeviceM (List Problem) := do
  modify fun m =>
    { m with problems := m.problems ++ m.waiting.map (missing m.name), waiting := [] }
  let m ← get
  if !m.problems.isEmpty then return m.problems
  match runDataflow m.resolver m with
  | .error (.problem p) m => do
    set { m with problems := m.problems ++ [p] }
    return [p]
  | .error f m => do
    set m
    throw f
  | .ok _ m => do
    set m
    let markers ← markBody
    modify fun m => { m with markers := markers }
    return []

end Analog.DeviceM
