import Analog.Design.Basic

/-!
Marking what is needed: markers go from a value to the variables it was read from and to the probes
it depends on, and from each variable on to what was assigned to it. A variable passes on only
markers that are new to it, so the way ends even where variables depend on themselves.
-/
namespace Analog.Design

def markVariable (d : Design) (v : VariableId) (m : Markers) : Design :=
  d.modifyVariable v fun var => { var with needed := var.needed.union m }

def markProbes (d : Design) (edges : List Edge) (m : Markers) : Bool × Design :=
  edges.foldl (fun (grown, d) e =>
    (grown || (d.circuit.probeNeeded e.probe).grows m,
      { d with circuit := d.circuit.need e.probe m }))
    (false, d)

def markFuel : Nat → Design → Summary → Markers → Bool × Design
  | 0, d, _, _ => (false, d)
  | fuel + 1, d, s, m =>
    let d := s.consumers.items.foldl (fun d v =>
      if (d.variableOf v).needed.grows m then
        (markFuel fuel (d.markVariable v m) (d.variableOf v).summary m).2
      else d) d
    d.markProbes s.deps.edges m

/-- Marks all that a value with summary `s` needs; true if a probe of its own got a new marker.
No way is longer than there are variables. -/
def mark (d : Design) (s : Summary) (m : Markers) : Bool × Design :=
  markFuel (d.vars.size + 1) d s m

end Analog.Design
