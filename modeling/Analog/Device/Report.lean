import Analog.Device.Basic
import Analog.Statement.Printer

/-!
Reports on a device: its analog blocks with the summaries of all expressions, and its branches with
their uses and what they are needed by.
-/
namespace Analog.Device

def lines (m : Device) : List String :=
  m.body.flatMap fun s => "analog" :: s.lines m.design ""

def header (m : Device) : String := "module " ++ m.name

def resolvedReport (m : Device) : List String := m.header :: m.lines

def usageName : Usage → String
  | .potentialProbe => "vprobe"
  | .flowProbe => "iprobe"
  | .potentialSource => "vsource"
  | .flowSource => "isource"
  | .short => "short"

def countText (c : Counts) (u : Usage) : String :=
  if c.get u == 0 then "" else " " ++ usageName u ++ "=" ++ toString (c.get u)

def branchLine (c : Circuit) (b : BranchId) : String :=
  "  branch " ++ c.branchText b ++ String.join (Usage.all.map (countText (c.branch b).usage)) ++
    " needed-by=[" ++ ", ".intercalate (c.markerTexts (c.needed b)) ++ "]"

def branchReport (m : Device) (all : Bool) : List String :=
  let c := m.design.circuit
  let branches := if all then c.listed else c.usedBranches
  let shorted := (List.range c.nodes.size).filter fun i => (c.node i).short.isSome
  m.header :: branches.map (branchLine c) ++ shorted.map fun i => "  node " ++ m.design.nodeText i

end Analog.Device
