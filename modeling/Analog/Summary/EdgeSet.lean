import Analog.Circuit.Basic
import Analog.Summary.Order

/-!
The probes that a value depends on, each with its order, in the order they came. A probe has one
edge at most. Entering a probe again leaves its edge as it is; widening joins the orders.
-/
namespace Analog

structure Edge where
  probe : Probe
  order : Order
  deriving DecidableEq, Repr

def Edge.text (c : Circuit) (e : Edge) : String := c.probeText e.probe ++ ":" ++ e.order.text

structure EdgeSet where
  edges : List Edge
  deriving DecidableEq, Repr

namespace EdgeSet

def empty : EdgeSet := ⟨[]⟩

def size (s : EdgeSet) : Nat := s.edges.length

def isEmpty (s : EdgeSet) : Bool := s.edges.isEmpty

def probes (s : EdgeSet) : List Probe := s.edges.map (·.probe)

def find? (s : EdgeSet) (q : Probe) : Option Edge := s.edges.find? (·.probe == q)

def contains (s : EdgeSet) (q : Probe) : Bool := (s.find? q).isSome

def insert (s : EdgeSet) (e : Edge) : EdgeSet :=
  if s.contains e.probe then s else ⟨s.edges ++ [e]⟩

def ofList (edges : List Edge) : EdgeSet := edges.foldl insert empty

def union (s t : EdgeSet) : EdgeSet := t.edges.foldl insert s

def joinInto (e a : Edge) : Edge :=
  if a.probe = e.probe then { a with order := a.order.join e.order } else a

def widen (s : EdgeSet) (e : Edge) : EdgeSet :=
  if s.contains e.probe then ⟨s.edges.map (joinInto e)⟩ else ⟨s.edges ++ [e]⟩

def widens (s : EdgeSet) (e : Edge) : Bool :=
  match s.find? e.probe with
  | some a => !e.order.le a.order
  | none => true

def widenAll (s t : EdgeSet) : EdgeSet := t.edges.foldl widen s

def map (s : EdgeSet) (f : Order → Order) : EdgeSet :=
  ⟨s.edges.map fun e => { e with order := f e.order }⟩

def sameProbes (s t : EdgeSet) : Bool :=
  s.size == t.size && s.edges.all fun e => t.contains e.probe

def texts (c : Circuit) (s : EdgeSet) : List String := s.edges.map (Edge.text c)

def text (c : Circuit) (s : EdgeSet) : String := "[" ++ ", ".intercalate (s.texts c) ++ "]"

end EdgeSet
end Analog
