import Analog.Statement.Update

/-!
Running the dataflow: a block is updated until nothing changes any more. Summaries only grow, and
the orders of dependence have four levels, so the number of statements bounds the number of rounds
that are allowed, unless the configuration sets a bound.
-/
namespace Analog.Statement

def orderLevels : Nat := 4

def roundBound (r : Resolver) (body : List Statement) : Nat :=
  if r.config.maxIterations == 0 then countAll body * orderLevels + 1 else r.config.maxIterations

/-- Updates a block until a round changes nothing, and gives the number of that round. -/
def rounds (r : Resolver) (scope : ScopeId) (bound : Nat) :
    Nat → Nat → List Statement → Design → Outcome (List Statement) Nat
  | 0, _, body, d => ⟨body, d, .error (.ofCause (.unstable bound))⟩
  | left + 1, i, body, d =>
    let u := updateAll r scope body d
    match u.result with
    | .error f => ⟨u.value, u.design, .error f⟩
    | .ok false => ⟨u.value, u.design, .ok i⟩
    | .ok true => rounds r scope bound left (i + 1) u.value u.design

def fixpoint (r : Resolver) (scope : ScopeId) (body : List Statement) (d : Design) :
    Outcome (List Statement) Nat :=
  let bound := roundBound r body
  rounds r scope bound bound 1 body d

end Analog.Statement
