import Analog.Circuit.Basic

/-!
Building circuits. Between two nodes there is at most one branch besides its aliases, found from
either side; a name belongs to one alias.
-/
namespace Analog.Circuit

def addNode (c : Circuit) (name : String) : NodeId × Bool × Circuit :=
  match c.findNode? name with
  | some i => (i, false, c)
  | none => (c.nodes.size, true, { c with nodes := c.nodes.push ⟨name, none⟩ })

def addBranch (c : Circuit) (b : Branch) : BranchId × Circuit :=
  (c.branches.size, { c with branches := c.branches.push b })

def findPair? (c : Circuit) (p n : NodeId) : Option BranchId :=
  c.listed.find? fun b => !(c.branch b).isAlias && (c.branch b).p == p && (c.branch b).n == n

inductive LoopError where
  | loop (node : String)
  deriving DecidableEq, Repr

def LoopError.message : LoopError → String
  | loop node => "branch from node " ++ node ++ " to itself"

/-- The branch between two nodes, seen from `p` to `n`; made if there is none. -/
def connect (c : Circuit) (p n : NodeId) : Except LoopError (BranchRef × Circuit) :=
  if p == n then .error (.loop (c.nodeName p))
  else match c.findPair? p n with
    | some b => .ok (⟨b, false⟩, c)
    | none => match c.findPair? n p with
      | some b => .ok (⟨b, true⟩, c)
      | none =>
        let (b, c) := c.addBranch (.plain p n)
        .ok (⟨b, false⟩, c)

def lookup? (c : Circuit) (name : String) : Option BranchId :=
  c.listed.find? fun b => (c.branch b).isAlias && (c.branch b).name == name

/-- A name for what a reference sees, in its direction; none if the name is taken. -/
def addAlias? (c : Circuit) (r : BranchRef) (name : String) : Option (BranchId × Circuit) :=
  match c.lookup? name with
  | some _ => none
  | none =>
    some (c.addBranch { Branch.plain (c.refP r) (c.refN r) with
      name := name, base := some (c.base r.branch), reversed := r.reversed })

def filterName (stem : String) (k : Nat) : String := "_" ++ stem ++ toString k

def freeFilterFuel (c : Circuit) (stem : String) : Nat → Nat → Nat
  | 0, k => k
  | fuel + 1, k =>
    match c.findNode? (filterName stem k) with
    | some _ => freeFilterFuel c stem fuel (k + 1)
    | none => k

/-- Of `nodes.size + 1` names one is free. -/
def freeFilter (c : Circuit) (stem : String) : Nat :=
  freeFilterFuel c stem (c.nodes.size + 1) c.filters

def addFilter (c : Circuit) (stem : String) : BranchId × Circuit :=
  let k := c.freeFilter stem
  let (i, _, c) := c.addNode (filterName stem k)
  { c with filters := k + 1 }.addBranch { Branch.plain i ground with filter := true }

def hasAlias (c : Circuit) (b : BranchId) : Bool :=
  c.listed.any fun a => (c.branch a).base == some b

def keeps (c : Circuit) (b : BranchId) : Bool :=
  let branch := c.branch b
  branch.isUsed || branch.isAlias || branch.name != "" || branch.filter || c.hasAlias b

/-- Takes the branches that nothing uses or names off the list; gives their number. -/
def prune (c : Circuit) : Nat × Circuit :=
  let gone := c.listed.filter (!c.keeps ·)
  (gone.length, gone.foldl (fun c b => c.modifyBranch b ({ · with listed := false })) c)

end Analog.Circuit
