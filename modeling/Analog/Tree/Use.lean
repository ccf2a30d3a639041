import Analog.Tree.Basic

/-!
The uses that a tree makes of branches: taken when it is made or copied, given back when it is
dropped. A tree reads the probes of its accesses, and the branches of its filters are read and
driven.
-/
namespace Analog.Tree

mutual

def uses : Tree → List (BranchId × Usage)
  | .access q => [(q.ref.branch, q.probe.access.probe)]
  | .declaration _ init => init.uses
  | .unary _ x _ => x.uses
  | .binary _ l r _ => l.uses ++ r.uses
  | .ternary c t e _ => c.uses ++ t.uses ++ e.uses
  | .call _ args (some b) _ => (b, .potentialProbe) :: (b, .flowSource) :: allUses args
  | .call _ args none _ => allUses args
  | .arguments items => allUses items
  | _ => []

def allUses : List Tree → List (BranchId × Usage)
  | [] => []
  | t :: ts => t.uses ++ allUses ts

end

end Analog.Tree

namespace Analog

def Circuit.takeAll (c : Circuit) (uses : List (BranchId × Usage)) : Circuit :=
  uses.foldl (fun c u => c.take u.1 u.2) c

def Circuit.giveAll : List (BranchId × Usage) → CircuitM Unit
  | [] => return ()
  | u :: us => do
    Circuit.give u.1 u.2
    giveAll us

end Analog

namespace Analog.Tree

def acquire (t : Tree) (c : Circuit) : Circuit := c.takeAll t.uses

def release (t : Tree) : CircuitM Unit := Circuit.giveAll t.uses

def releaseAll (ts : List Tree) : CircuitM Unit := Circuit.giveAll (allUses ts)

end Analog.Tree
