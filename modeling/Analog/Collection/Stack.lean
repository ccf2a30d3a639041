/-!
Stacks, the top item first.
-/
namespace Analog

structure Stack (α : Type) where
  items : List α
  deriving DecidableEq, Repr

inductive Stack.Fault where
  | tooDeep
  | empty
  deriving DecidableEq, Repr

def Stack.Fault.message : Stack.Fault → String
  | tooDeep => "peek out-of-bounds"
  | empty => "cannot pop from empty stack"

namespace Stack

variable {α : Type}

def empty : Stack α := ⟨[]⟩

def size (s : Stack α) : Nat := s.items.length

def isEmpty (s : Stack α) : Bool := s.items.isEmpty

def toList (s : Stack α) : List α := s.items.reverse

def push (s : Stack α) (a : α) : Stack α := ⟨a :: s.items⟩

def peek (s : Stack α) (depth : Nat) : Except Fault α :=
  match s.items[depth]? with
  | some a => .ok a
  | none => .error .tooDeep

def pop (s : Stack α) : Except Fault (α × Stack α) :=
  match s.items with
  | a :: rest => .ok (a, ⟨rest⟩)
  | [] => .error .empty

def popMany? (s : Stack α) (n : Nat) : Option (List α × Stack α) :=
  if n ≤ s.items.length then some ((s.items.take n).reverse, ⟨s.items.drop n⟩) else none

/-- The items above the topmost one that satisfies `p`, from the bottom up; that one goes, too. -/
def popUntil? (s : Stack α) (p : α → Bool) : Option (List α × Stack α) :=
  match s.items.dropWhile (!p ·) with
  | _ :: below => some ((s.items.takeWhile (!p ·)).reverse, ⟨below⟩)
  | [] => none

end Stack
end Analog
