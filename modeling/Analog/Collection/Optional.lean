/-!
Lists with some items taken out, and values that may be missing.
-/
namespace Analog

def dropMatching {α : Type} (p : α → Bool) (items : List α) : List α := items.filter (!p ·)

namespace Optional

def text {α : Type} (text : α → String) : Option α → String
  | some a => "Some(" ++ text a ++ ")"
  | none => "None"

inductive Fault where
  | missing
  deriving DecidableEq, Repr

def Fault.message : Fault → String
  | missing => "cannot unwrap an empty option"

def get {α : Type} : Option α → Except Fault α
  | some a => .ok a
  | none => .error .missing

end Optional
end Analog
