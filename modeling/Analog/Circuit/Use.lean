import Analog.Circuit.Basic

/-!
Counting the uses of branches, and marking what is needed. A use of an alias is also one of its
base. A counter that would fall below zero stops the operation where it stands.
-/
namespace Analog

/-- A use that was given back more often than it was taken. -/
structure Underflow where
  branch : String
  deriving DecidableEq, Repr

def Underflow.message (u : Underflow) : String :=
  "negative usage count for branch " ++ u.branch

/-- Operations on a circuit that keep what they did before an underflow. -/
abbrev CircuitM := EStateM Underflow Circuit

namespace Circuit

def setCount (c : Circuit) (b : BranchId) (u : Usage) (n : Nat) : Circuit :=
  c.modifyBranch b fun branch => { branch with usage := branch.usage.set u n }

def raiseOne (c : Circuit) (b : BranchId) (u : Usage) : Circuit :=
  c.setCount b u (c.count b u + 1)

def take (c : Circuit) (b : BranchId) (u : Usage) : Circuit :=
  let taken := c.raiseOne b u
  match (c.branch b).base with
  | some base => taken.raiseOne base u
  | none => taken

def lowerOne (b : BranchId) (u : Usage) : CircuitM Unit := fun c =>
  match c.count b u with
  | 0 => .error ⟨c.branchText b⟩ c
  | n + 1 => .ok () (c.setCount b u n)

def give (b : BranchId) (u : Usage) : CircuitM Unit := do
  lowerOne b u
  match ((← get).branch b).base with
  | some base => lowerOne base u
  | none => return ()

def takeFilter (c : Circuit) (b : BranchId) : Circuit :=
  (c.take b .potentialProbe).take b .flowSource

def giveFilter (b : BranchId) : CircuitM Unit := do
  give b .potentialProbe
  give b .flowSource

def needed (c : Circuit) (b : BranchId) : Markers := (c.branch (c.base b)).needed

def probeNeeded (c : Circuit) (q : Probe) : Markers := (c.branch q.branch).probeNeeded q.access

def need (c : Circuit) (q : Probe) (m : Markers) : Circuit :=
  c.modifyBranch q.branch fun b =>
    let b := { b with needed := b.needed.union m }
    match q.access with
    | .potential => { b with potentialNeeded := b.potentialNeeded.union m }
    | .flow => { b with flowNeeded := b.flowNeeded.union m }

end Circuit
end Analog
