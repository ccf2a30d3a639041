import Analog.Tree.Use

/-!
Copying trees and dropping them, part by part. A copy takes the uses of its parts as it is built. A
tree that is dropped gives back the uses of a part before those of the operands of the part,
whatever kind of part it is.
-/
namespace Analog.Tree

mutual

def copy : Tree → StateM Circuit Tree
  | .literal v origin => return .literal v origin
  | .parameter p => return .parameter p
  | .variable v s => return .variable v s
  | .declaration v init => do return .declaration v (← init.copy)
  | .access q => do
    modify (·.take q.ref.branch q.probe.access.probe)
    return .access q
  | .node i => return .node i
  | .port i => return .port i
  | .unary op x s => do return .unary op (← x.copy) s
  | .binary op l r s => do return .binary op (← l.copy) (← r.copy) s
  | .ternary c t e s => do return .ternary (← c.copy) (← t.copy) (← e.copy) s
  | .call f args none s => do return .call f (← copyAll args) none s
  | .call f args (some b) s => do
    modify (·.takeFilter b)
    return .call f (← copyAll args) (some b) s
  | .arguments items => do return .arguments (← copyAll items)
  | .marker => return .marker
  | .deferred name => return .deferred name

def copyAll : List Tree → StateM Circuit (List Tree)
  | [] => return []
  | t :: ts => do return (← t.copy) :: (← copyAll ts)

end

def children : Tree → List Tree
  | .declaration _ init => [init]
  | .unary _ x _ => [x]
  | .binary _ l r _ => [l, r]
  | .ternary c t e _ => [c, t, e]
  | .call _ args _ _ => [.arguments args]
  | .arguments items => items
  | _ => []

theorem sizeOf_lt_of_mem_children {t u : Tree} (h : u ∈ t.children) : sizeOf u < sizeOf t := by
  cases t with
  | arguments items =>
    have less : sizeOf u < sizeOf items := List.sizeOf_lt_of_mem h
    rw [arguments.sizeOf_spec]
    omega
  | call function args filter s =>
    have only : u = .arguments args := List.mem_singleton.mp h
    have positive : 0 < sizeOf s := by
      cases s
      rw [Summary.mk.sizeOf_spec]
      omega
    rw [only, arguments.sizeOf_spec, call.sizeOf_spec]
    omega
  | declaration | unary | binary | ternary =>
    simp only [children, List.mem_cons, List.not_mem_nil, or_false] at h
    rcases h with rfl | rfl | rfl <;> decreasing_tactic
  | _ => exact absurd h List.not_mem_nil

def giveOwn : Tree → CircuitM Unit
  | .access q => Circuit.give q.ref.branch q.probe.access.probe
  | .call _ _ (some b) _ => Circuit.giveFilter b
  | _ => return ()

def drop (t : Tree) : CircuitM Unit := do
  t.giveOwn
  t.children.attach.forM fun u => u.1.drop
termination_by sizeOf t
decreasing_by exact sizeOf_lt_of_mem_children u.2

end Analog.Tree
