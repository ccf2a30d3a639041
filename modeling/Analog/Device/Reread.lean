import Analog.Device.Basic
import Analog.Raw.Parser

/-!
Reading the printed form of resolved expressions again. What is printed can be read and resolved in
the same scope, and gives the same text and a summary that agrees.
-/
namespace Analog

mutual

def Statement.resolved (scope : ScopeId) : Statement → List (ScopeId × Tree)
  | .declare _ => []
  | .assign s => s.value.toList.map (scope, ·)
  | .contribute s => s.value.toList.map (scope, ·)
  | .conditional c thnScope thn elsScope els =>
    c.value.toList.map (scope, ·) ++ Statement.allResolved thnScope thn ++
      Statement.allResolved elsScope els
  | .block inner body => Statement.allResolved inner body

def Statement.allResolved (scope : ScopeId) : List Statement → List (ScopeId × Tree)
  | [] => []
  | s :: ss => s.resolved scope ++ Statement.allResolved scope ss

end

inductive Rereading where
  | unreadable
  | failed (f : Failure)
  | resolved (text : String) (agrees : Bool)

def Tree.reread (r : Resolver) (scope : ScopeId) (t : Tree) (d : Design) : Rereading × Design :=
  match Raw.ofText (SourceText.ofString "expr" (t.source d.circuit)) with
  | .error _ => (.unreadable, d)
  | .ok raw =>
    let (source, d) := d.addSource raw
    match source.resolve r scope d with
    | .ok u d => (.resolved (u.source d.circuit) (u.summary.agrees t.summary), d)
    | .error f d => (.failed f, d)

def Tree.rereadAll (r : Resolver) : List (ScopeId × Tree) → Design → List Rereading
  | [], _ => []
  | (scope, t) :: ts, d =>
    let (result, d) := t.reread r scope d
    result :: rereadAll r ts d

def Device.reread (m : Device) : List Rereading :=
  Tree.rereadAll ⟨m.config, m.resolver.tag + 2⟩
    (Statement.allResolved Device.analogScope m.body) m.design

end Analog
