import Analog.Design.Marking
import Analog.Design.Scope
import Analog.Statement.Basic

/-!
Marking what contributions need. The marker of a contribution is the branch it goes to; conditions
are needed by every contribution made under them.
-/
namespace Analog

def Contribution.mark (s : Contribution) (d : Design) : Markers × Design :=
  match s.quantity, s.summary with
  | some q, some summary =>
    let m : Markers := ⟨[d.circuit.base q.ref.branch]⟩
    (m, (d.mark summary m).2)
  | _, _ => (.empty, d)

def Condition.mark (c : Condition) (m : Markers) (d : Design) : Design :=
  match c.summary with
  | some summary => if m.isEmpty then d else (d.mark summary m).2
  | none => d

namespace Statement

mutual

def mark : Statement → Design → Markers × Design
  | .contribute s, d => s.mark d
  | .conditional c thnScope thn elsScope els, d =>
    let (m, d) := markAll thnScope thn d
    let (n, d) := markAll elsScope els d
    let m := m.union n
    (m, c.mark m d)
  | .block scope body, d => markAll scope body d
  | .declare _, d => (.empty, d)
  | .assign _, d => (.empty, d)

def markAll (scope : ScopeId) : List Statement → Design → Markers × Design
  | [], d => (.empty, d)
  | s :: ss, d =>
    if d.reach (s.ownScope scope) == .never then markAll scope ss d
    else
      let (m, d) := mark s d
      let (n, d) := markAll scope ss d
      (m.union n, d)

end

end Statement
end Analog
