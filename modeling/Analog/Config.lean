import Analog.Circuit.Basic
import Analog.Problem

/-!
How devices are elaborated: whether expressions are simplified, which parameters have given values,
which functions access a quantity, and how long the dataflow may run.
-/
namespace Analog

structure Config where
  simplify : Bool
  parameters : List (String × String)
  access : List (String × String)
  /-- Zero leaves the bound to the number of statements. -/
  maxIterations : Nat
  deriving DecidableEq, Repr

namespace Config

def put (entries : List (String × String)) (key text : String) : List (String × String) :=
  entries.filter (·.1 != key) ++ [(key, text)]

def erase (entries : List (String × String)) (key : String) : List (String × String) :=
  entries.filter (·.1 != key)

def default : Config := ⟨true, [], [("V", "potential"), ("I", "flow")], 0⟩

def kindAccess? (kind : String) : Option Access :=
  if kind == "potential" then some .potential
  else if kind == "flow" then some .flow
  else none

def access? (c : Config) (function : String) : Option Access :=
  (c.access.lookup function).bind kindAccess?

def overrides (c : Config) : List String :=
  (c.parameters.map (·.1)).mergeSort fun a b => !decide (b < a)

def override? (c : Config) (parameter : String) : Except Problem (Option Value) :=
  match c.parameters.lookup parameter with
  | none => .ok none
  | some text =>
    match Value.read text with
    | .ok v => .ok (some v)
    | .error e => .error ((Problem.ofCause (.literal e)).inside ("parameter " ++ parameter))

def fault? (c : Config) : Option Problem :=
  (c.access.find? fun (_, kind) => (kindAccess? kind).isNone).map fun (name, kind) =>
    .ofCause (.accessKind name kind)

end Config
end Analog
