import Analog.Circuit.Build
import Analog.Circuit.Use

/-!
Circuits with registers. Nodes and branches are entered in lists, in the order in which they are
made, and in maps by name or by the nodes they join. Calls decide by the registers alone; what they
do to nodes and branches they do to the circuit.
-/
namespace Analog

/-- A map is the list of its entries. -/
structure Registry where
  circuit : Circuit
  /-- The number that each node was given. -/
  numbers : List Nat
  nodes : List NodeId
  nodemap : List (String × NodeId)
  branches : List BranchId
  pairs : List ((NodeId × NodeId) × BranchId)
  names : List (String × BranchId)
  deriving DecidableEq, Repr

namespace Registry

def empty : Registry := ⟨.empty, [0], [ground], [(groundName, ground)], [], [], []⟩

def newNode (g : Registry) (name : String) : NodeId × Bool × Registry :=
  match g.nodemap.lookup name with
  | some i => (i, false, g)
  | none =>
    let i := g.circuit.nodes.size
    (i, true, { g with
      circuit := { g.circuit with nodes := g.circuit.nodes.push ⟨name, none⟩ }
      numbers := g.numbers ++ [g.nodes.length]
      nodes := g.nodes ++ [i]
      nodemap := g.nodemap ++ [(name, i)] })

def enter (g : Registry) (b : Branch) : BranchId × Registry :=
  let (i, c) := g.circuit.addBranch b
  (i, { g with circuit := c, branches := g.branches ++ [i] })

def newBranch (g : Registry) (p n : NodeId) : Except Circuit.LoopError (BranchRef × Registry) :=
  if p == n then .error (.loop (g.circuit.nodeName p))
  else match g.pairs.lookup (p, n) with
    | some b => .ok (⟨b, false⟩, g)
    | none => match g.pairs.lookup (n, p) with
      | some b => .ok (⟨b, true⟩, g)
      | none =>
        let (b, g) := g.enter (.plain p n)
        .ok (⟨b, false⟩, { g with pairs := g.pairs ++ [((p, n), b)] })

def newNamedBranch (g : Registry) (r : BranchRef) (name : String) : Option (BranchId × Registry) :=
  match g.names.lookup name with
  | some _ => none
  | none =>
    let (b, g) := g.enter { Branch.plain (g.circuit.refP r) (g.circuit.refN r) with
      name := name, base := some (g.circuit.base r.branch), reversed := r.reversed }
    some (b, { g with names := g.names ++ [(name, b)] })

def newFilterFuel (stem : String) : Nat → Registry → Option (BranchId × Registry)
  | 0, _ => none
  | fuel + 1, g =>
    let name := Circuit.filterName stem g.circuit.filters
    match { g with circuit.filters := g.circuit.filters + 1 }.newNode name with
    | (_, false, g) => newFilterFuel stem fuel g
    | (i, true, g) =>
      let (b, g) := g.enter { Branch.plain i ground with filter := true }
      some (b, { g with pairs := g.pairs ++ [((i, ground), b)] })

/-- Tries one name after the other, until one is free. -/
def newFilter (g : Registry) (stem : String) : Option (BranchId × Registry) :=
  newFilterFuel stem (g.nodes.length + 1) g

def hasAlias (g : Registry) (b : BranchId) : Bool :=
  g.names.any fun entry => (g.circuit.branch entry.2).base == some b

def keeps (g : Registry) (b : BranchId) : Bool :=
  let branch := g.circuit.branch b
  branch.isUsed || branch.isAlias || branch.name != "" || branch.filter || g.hasAlias b

/-- Takes the branches that nothing uses or names off the list and out of the map. -/
def prune (g : Registry) : Nat × Registry :=
  let gone := g.branches.filter (!g.keeps ·)
  let ends := gone.map fun b => ((g.circuit.branch b).p, (g.circuit.branch b).n)
  (gone.length, { g with
    circuit := gone.foldl (fun c b => c.modifyBranch b ({ · with listed := false })) g.circuit
    branches := g.branches.filter g.keeps
    pairs := g.pairs.filter (!ends.contains ·.1) })

end Registry

inductive RegistryCall where
  | node (name : String)
  | branch (p n : NodeId)
  | named (r : BranchRef) (name : String)
  | filter (stem : String)
  | take (b : BranchId) (u : Usage)
  | give (b : BranchId) (u : Usage)
  | prune
  deriving DecidableEq, Repr

namespace Registry

/-- Makes a call. Nodes and references must come from the lists; a call that fails changes
nothing. -/
def perform (g : Registry) : RegistryCall → Registry
  | .node name => (g.newNode name).2.2
  | .branch p n =>
    if g.nodes.contains p && g.nodes.contains n then
      match g.newBranch p n with
      | .ok (_, g) => g
      | .error _ => g
    else g
  | .named r name =>
    if g.branches.contains r.branch then ((g.newNamedBranch r name).map (·.2)).getD g else g
  | .filter stem => ((g.newFilter stem).map (·.2)).getD g
  | .take b u => { g with circuit := g.circuit.take b u }
  | .give b u =>
    match Circuit.give b u g.circuit with
    | .ok _ c => { g with circuit := c }
    | .error _ _ => g
  | .prune => g.prune.2

def performAll (g : Registry) (calls : List RegistryCall) : Registry := calls.foldl perform g

end Registry
end Analog
