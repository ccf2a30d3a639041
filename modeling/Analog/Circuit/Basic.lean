import Analog.Collection.OrderedSet

/-!
Circuits: nodes joined by branches. Nodes and branches are named by number, and what a number names
never changes. A branch may be an alias, which has a name, a direction and counters of its own and
stands for its base. A branch that was pruned keeps its number and is listed no more.
-/
namespace Analog

abbrev NodeId := Nat

abbrev BranchId := Nat

/-- Guards of shorts, named by number; what one says and whether it holds is up to the client. -/
abbrev GuardId := Nat

inductive Access where
  | potential
  | flow
  deriving DecidableEq, Repr

inductive Usage where
  | potentialProbe
  | flowProbe
  | potentialSource
  | flowSource
  | short
  deriving DecidableEq, Repr

def Access.letter : Access → String
  | potential => "V"
  | flow => "I"

def Access.probe : Access → Usage
  | potential => .potentialProbe
  | flow => .flowProbe

def Access.source : Access → Usage
  | potential => .potentialSource
  | flow => .flowSource

def Usage.all : List Usage :=
  [.potentialProbe, .flowProbe, .potentialSource, .flowSource, .short]

structure Counts where
  potentialProbe : Nat
  flowProbe : Nat
  potentialSource : Nat
  flowSource : Nat
  short : Nat
  deriving DecidableEq, Repr, Inhabited

namespace Counts

def zero : Counts := ⟨0, 0, 0, 0, 0⟩

def get (c : Counts) : Usage → Nat
  | .potentialProbe => c.potentialProbe
  | .flowProbe => c.flowProbe
  | .potentialSource => c.potentialSource
  | .flowSource => c.flowSource
  | .short => c.short

def set (c : Counts) (u : Usage) (n : Nat) : Counts :=
  match u with
  | .potentialProbe => { c with potentialProbe := n }
  | .flowProbe => { c with flowProbe := n }
  | .potentialSource => { c with potentialSource := n }
  | .flowSource => { c with flowSource := n }
  | .short => { c with short := n }

def toList (c : Counts) : List Nat := Usage.all.map c.get

def total (c : Counts) : Nat :=
  c.potentialProbe + c.flowProbe + c.potentialSource + c.flowSource + c.short

theorem get_set (c : Counts) (u v : Usage) (n : Nat) :
    (c.set u n).get v = if v = u then n else c.get v := by
  cases u <;> cases v <;> simp [get, set]

theorem ext_get {a b : Counts} (h : ∀ u, a.get u = b.get u) : a = b := by
  have h1 := h .potentialProbe
  have h2 := h .flowProbe
  have h3 := h .potentialSource
  have h4 := h .flowSource
  have h5 := h .short
  cases a
  cases b
  simp_all [get]

end Counts

/-- A node laid onto another one, always or while a guard holds. -/
structure Short where
  target : NodeId
  guard : Option GuardId
  deriving DecidableEq, Repr

structure Node where
  name : String
  short : Option Short
  deriving DecidableEq, Repr, Inhabited

abbrev Markers := OrderedSet BranchId

structure Branch where
  name : String
  p : NodeId
  n : NodeId
  base : Option BranchId
  /-- An alias that runs against its base. -/
  reversed : Bool
  /-- An internal branch, made for an analog filter. -/
  filter : Bool
  usage : Counts
  needed : Markers
  potentialNeeded : Markers
  flowNeeded : Markers
  listed : Bool
  deriving DecidableEq, Repr

def Branch.plain (p n : NodeId) : Branch :=
  ⟨"", p, n, none, false, false, .zero, .empty, .empty, .empty, true⟩

instance : Inhabited Branch := ⟨.plain 0 0⟩

namespace Branch

def isAlias (b : Branch) : Bool := b.base.isSome

def uses (b : Branch) : Nat := b.usage.total

def isUsed (b : Branch) : Bool := 0 < b.uses

def probeNeeded (b : Branch) : Access → Markers
  | .potential => b.potentialNeeded
  | .flow => b.flowNeeded

end Branch

structure Circuit where
  nodes : Array Node
  branches : Array Branch
  filters : Nat
  deriving DecidableEq, Repr, Inhabited

structure BranchRef where
  branch : BranchId
  reversed : Bool
  deriving DecidableEq, Repr, Inhabited

/-- A quantity that can be read; aliases read what their base has. -/
structure Probe where
  branch : BranchId
  access : Access
  deriving DecidableEq, Repr

def groundName : String := "gnd"

def ground : NodeId := 0

namespace Circuit

def empty : Circuit := ⟨#[⟨groundName, none⟩], #[], 0⟩

def node (c : Circuit) (i : NodeId) : Node := c.nodes.getD i default

def branch (c : Circuit) (b : BranchId) : Branch := c.branches.getD b default

def nodeName (c : Circuit) (i : NodeId) : String := (c.node i).name

def findNode? (c : Circuit) (name : String) : Option NodeId :=
  c.nodes.findIdx? (·.name == name)

def listed (c : Circuit) : List BranchId :=
  (List.range c.branches.size).filter fun b => (c.branch b).listed

def usedBranches (c : Circuit) : List BranchId := c.listed.filter fun b => (c.branch b).isUsed

def base (c : Circuit) (b : BranchId) : BranchId := (c.branch b).base.getD b

def count (c : Circuit) (b : BranchId) (u : Usage) : Nat := (c.branch b).usage.get u

def probe (c : Circuit) (b : BranchId) (a : Access) : Probe := ⟨c.base b, a⟩

def pairText (c : Circuit) (b : BranchId) : String :=
  let base := c.branch (c.base b)
  if base.n == ground then "(" ++ c.nodeName base.p ++ ")"
  else "(" ++ c.nodeName base.p ++ "," ++ c.nodeName base.n ++ ")"

def branchText (c : Circuit) (b : BranchId) : String :=
  let name := (c.branch b).name
  if name == "" then c.pairText b else name

def probeText (c : Circuit) (q : Probe) : String := q.access.letter ++ c.pairText q.branch

def markerTexts (c : Circuit) (m : Markers) : List String := m.items.map c.branchText

def refP (c : Circuit) (r : BranchRef) : NodeId :=
  if r.reversed then (c.branch r.branch).n else (c.branch r.branch).p

def refN (c : Circuit) (r : BranchRef) : NodeId :=
  if r.reversed then (c.branch r.branch).p else (c.branch r.branch).n

def refText (c : Circuit) (r : BranchRef) : String :=
  let name := (c.branch r.branch).name
  if name != "" then name
  else if c.refN r == ground then c.nodeName (c.refP r)
  else c.nodeName (c.refP r) ++ ", " ++ c.nodeName (c.refN r)

def modifyNode (c : Circuit) (i : NodeId) (f : Node → Node) : Circuit :=
  { c with nodes := c.nodes.modify i f }

def modifyBranch (c : Circuit) (b : BranchId) (f : Branch → Branch) : Circuit :=
  { c with branches := c.branches.modify b f }

end Circuit
end Analog
