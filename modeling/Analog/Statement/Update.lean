import Analog.Circuit.Shorts
import Analog.Raw.Printer
import Analog.Resolve
import Analog.Statement.Basic

/-!
Resolving statements against the design as it is now. An update that fails keeps what it did before:
the result holds the statement and the design as they were left, along with the failure.
-/
namespace Analog

/-- What an operation left behind, and its result. -/
structure Outcome (α β : Type) where
  value : α
  design : Design
  result : Except Failure β

def dropTree (old : Option Tree) : DesignM Unit :=
  DesignM.onCircuit (Tree.releaseAll old.toList)

def accumulate (acc : Option Summary) (s : Summary) : Bool × Summary :=
  match acc with
  | none => (true, s)
  | some a => (a.grows s, a.absorb s)

namespace Declaration

def update (r : Resolver) (scope : ScopeId) (s : Declaration) (d : Design) :
    Outcome Declaration Bool :=
  match s.source with
  | none => ⟨s, d, .ok false⟩
  | some source =>
    match source.resolve r scope d with
    | .error f d => ⟨s, d, .error (f.inside ("declaration of " ++ s.symbol.name))⟩
    | .ok t d =>
      match dropTree s.value d with
      | .error f d => ⟨s, d, .error f⟩
      | .ok _ d =>
        let (grown, d) := d.assign s.symbol.id t.summary
        ⟨{ s with value := some (.declaration s.symbol t) }, d, .ok grown⟩

end Declaration

namespace Assignment

def target (s : Assignment) (scope : ScopeId) (d : Design) : Except Cause Symbol :=
  match s.symbol with
  | some v => .ok v
  | none =>
    match d.lookup? scope s.name with
    | some (.variable v) => .ok ⟨s.name, v⟩
    | none => .error (.undeclaredVariable s.name)
    | some _ => .error (.notVariable s.name)

def update (r : Resolver) (scope : ScopeId) (s : Assignment) (d : Design) :
    Outcome Assignment Bool :=
  match s.target scope d with
  | .error cause => ⟨s, d, .error (.ofCause cause)⟩
  | .ok v =>
    let s := { s with symbol := some v }
    match s.source.resolve r scope d with
    | .error f d => ⟨s, d, .error (f.inside ("assignment to " ++ s.name))⟩
    | .ok t d =>
      match dropTree s.value d with
      | .error f d => ⟨s, d, .error f⟩
      | .ok _ d =>
        let (grown, d) := d.assign v.id t.summary
        ⟨{ s with value := some t }, d, .ok grown⟩

end Assignment

namespace Contribution

def vanishes (q : Quantity) : Tree → Bool
  | .literal v _ => q.probe.access == .potential && v.isZero
  | _ => false

def shorten (q : Quantity) (scope : ScopeId) (d : Design) : Design :=
  let guard := if d.always scope then none else some scope
  let c := d.circuit.take q.ref.branch .short
  { d with circuit := c.lay d.always (c.refP q.ref) (c.refN q.ref) guard }

/-- Whether the short is never recorded, since the shorts that hold lead round in a cycle. -/
def circles (q : Quantity) (scope : ScopeId) (d : Design) : Bool :=
  let guard := if d.always scope then none else some scope
  let c := d.circuit.take q.ref.branch .short
  (c.addShort d.always (c.refP q.ref) (c.refN q.ref) guard).isNone

/-- Finds the quantity on the first visit, and counts as a source of it from then on. -/
def locate (r : Resolver) (scope : ScopeId) (s : Contribution) (d : Design) :
    Outcome Contribution Quantity :=
  match s.quantity with
  | some q => ⟨s, d, .ok q⟩
  | none =>
    match s.target.resolveTarget r scope d with
    | .error f d => ⟨s, d, .error (f.inside ("contribution to " ++ Raw.source s.target.raw))⟩
    | .ok q d =>
      ⟨{ s with quantity := some q },
        { d with circuit := d.circuit.take q.ref.branch q.probe.access.source }, .ok q⟩

def accept (scope : ScopeId) (q : Quantity) (t : Tree) (s : Contribution) (d : Design) :
    Outcome Contribution Bool :=
  match dropTree s.value d with
  | .error f d => ⟨s, d, .error f⟩
  | .ok _ d =>
    let shorts := !s.short && vanishes q t
    let (grown, summary) := accumulate s.summary t.summary
    ⟨{ s with value := some t, summary := some summary, short := s.short || shorts },
      if shorts then shorten q scope d else d,
      if shorts && circles q scope d then .error .endless else .ok grown⟩

def update (r : Resolver) (scope : ScopeId) (s : Contribution) (d : Design) :
    Outcome Contribution Bool :=
  let located := s.locate r scope d
  match located.result with
  | .error f => ⟨located.value, located.design, .error f⟩
  | .ok q =>
    match s.source.resolve r scope located.design with
    | .error f d => ⟨located.value, d, .error (f.inside ("contribution to " ++ q.text d.circuit))⟩
    | .ok t d => located.value.accept scope q t d

end Contribution

namespace Condition

def arms : Tree → Reach × Reach
  | .literal v _ =>
    match v.truth? with
    | some true => (.always, .never)
    | some false => (.never, .always)
    | none => (.unknown, .unknown)
  | _ => (.unknown, .unknown)

def update (r : Resolver) (scope thnScope elsScope : ScopeId) (s : Condition) (d : Design) :
    Outcome Condition Bool :=
  match s.source.resolve r scope d with
  | .error f d => ⟨s, d, .error (f.inside "condition")⟩
  | .ok t d =>
    match dropTree s.value d with
    | .error f d => ⟨s, d, .error f⟩
    | .ok _ d =>
      let text := t.source d.circuit
      let (thn, els) := arms t
      let d := (d.setReach thnScope thn text).setReach elsScope els ("!(" ++ text ++ ")")
      let (grown, summary) := accumulate s.summary t.summary
      ⟨{ s with value := some t, summary := some summary }, d, .ok grown⟩

end Condition

namespace Statement

mutual

def update (r : Resolver) (scope : ScopeId) (s : Statement) (d : Design) : Outcome Statement Bool :=
  match s with
  | .declare s =>
    let u := s.update r scope d
    ⟨.declare u.value, u.design, u.result⟩
  | .assign s =>
    let u := s.update r scope d
    ⟨.assign u.value, u.design, u.result⟩
  | .contribute s =>
    let u := s.update r scope d
    ⟨.contribute u.value, u.design, u.result⟩
  | .conditional c thnScope thn elsScope els =>
    let u := c.update r scope thnScope elsScope d
    match u.result with
    | .error f => ⟨.conditional u.value thnScope thn elsScope els, u.design, .error f⟩
    | .ok a =>
      let v := updateAll r thnScope thn u.design
      match v.result with
      | .error f => ⟨.conditional u.value thnScope v.value elsScope els, v.design, .error f⟩
      | .ok b =>
        let w := updateAll r elsScope els v.design
        ⟨.conditional u.value thnScope v.value elsScope w.value, w.design,
          w.result.map (a || b || ·)⟩
  | .block inner body =>
    let u := updateAll r inner body d
    ⟨.block inner u.value, u.design, u.result⟩

/-- Updates the statements of a block in turn; true if one of them changed. What is never reached is
left alone. -/
def updateAll (r : Resolver) (scope : ScopeId) (ss : List Statement) (d : Design) :
    Outcome (List Statement) Bool :=
  match ss with
  | [] => ⟨[], d, .ok false⟩
  | s :: ss =>
    if d.reach (s.ownScope scope) == .never then
      let u := updateAll r scope ss d
      ⟨s :: u.value, u.design, u.result⟩
    else
      let u := update r scope s d
      match u.result with
      | .error f => ⟨u.value :: ss, u.design, .error f⟩
      | .ok a =>
        let v := updateAll r scope ss u.design
        ⟨u.value :: v.value, v.design, v.result.map (a || ·)⟩

end

end Statement
end Analog
