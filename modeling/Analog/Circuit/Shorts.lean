import Analog.Circuit.Basic

/-!
Shorts lay one node onto another. Following the shorts that hold leads from each node to the one
that stands for it.
-/
namespace Analog.Circuit

def activeTarget? (c : Circuit) (holds : GuardId → Bool) (i : NodeId) : Option NodeId :=
  match (c.node i).short with
  | some s => if s.guard.all holds then some s.target else none
  | none => none

def followFuel (c : Circuit) (holds : GuardId → Bool) : Nat → NodeId → Option NodeId
  | 0, _ => none
  | fuel + 1, i =>
    match c.activeTarget? holds i with
    | some j => followFuel c holds fuel j
    | none => some i

/-- The node that stands for `i`; none if the shorts that hold lead on for ever. A way that ends
passes no node twice. -/
def follow (c : Circuit) (holds : GuardId → Bool) (i : NodeId) : Option NodeId :=
  followFuel c holds (c.nodes.size + 1) i

/-- Lays a node onto another one, unless they are one already. To see that, shorts are followed from
both; where that does not end, neither does this. -/
def addShort (c : Circuit) (holds : GuardId → Bool) (i target : NodeId) (guard : Option GuardId) :
    Option Circuit :=
  match c.follow holds target, c.follow holds i with
  | some a, some b =>
    some (if a == b then c else c.modifyNode i ({ · with short := some ⟨target, guard⟩ }))
  | _, _ => none

/-- The circuit that a call of `addShort` leaves, whether it ends or not. -/
def lay (c : Circuit) (holds : GuardId → Bool) (i target : NodeId) (guard : Option GuardId) :
    Circuit :=
  (c.addShort holds i target guard).getD c

def nodeText (c : Circuit) (guardText : GuardId → String) (i : NodeId) : String :=
  let node := c.node i
  match node.short with
  | some ⟨target, some guard⟩ => node.name ++ "=>" ++ c.nodeName target ++ " if " ++ guardText guard
  | some ⟨target, none⟩ => node.name ++ "=>" ++ c.nodeName target
  | none => node.name

end Analog.Circuit
