import Analog.Collection.OrderedSet
import Analog.Summary.EdgeSet

/-!
What is known of a value without computing it: the probes it depends on, the variables it was read
from, whether it may be nonzero when all its probes are zero, and whether it never varies.
-/
namespace Analog

abbrev VariableId := Nat

structure Summary where
  deps : EdgeSet
  consumers : OrderedSet VariableId
  offset : Bool
  constant : Bool
  deriving DecidableEq, Repr

namespace Summary

def plain (offset constant : Bool) : Summary := ⟨.empty, .empty, offset, constant⟩

def fixed (offset : Bool) : Summary := plain offset true

def varying : Summary := plain true false

def ofProbe (q : Probe) : Summary := { plain false false with deps := ⟨[⟨q, .linear⟩]⟩ }

def hasDeps (s : Summary) : Bool := !s.deps.isEmpty

def addDep (s : Summary) (e : Edge) : Summary := { s with deps := s.deps.insert e }

def addConsumer (s : Summary) (v : VariableId) : Summary :=
  { s with consumers := s.consumers.insert v }

def within (s : Summary) (bound : Order) : Bool :=
  !s.offset && s.deps.edges.all fun e => e.order.le bound

def isLinear (s : Summary) : Bool := s.within .linear

def isQuadratic (s : Summary) : Bool := s.within .quadratic

def agrees (s t : Summary) : Bool :=
  s.offset == t.offset && s.constant == t.constant && s.deps.sameProbes t.deps

def absorb (s t : Summary) : Summary :=
  ⟨s.deps.widenAll t.deps, s.consumers.union t.consumers, s.offset || t.offset,
    s.constant && t.constant⟩

def grows (s t : Summary) : Bool :=
  t.deps.edges.any s.deps.widens || s.consumers.grows t.consumers ||
    (t.offset && !s.offset) || (!t.constant && s.constant)

def flagText (b : Bool) : String := if b then "true" else "false"

def text (c : Circuit) (s : Summary) : String :=
  "deps=" ++ s.deps.text c ++ " offset=" ++ flagText s.offset ++ " constant=" ++ flagText s.constant

end Summary
end Analog
