import Analog.Statement.Basic

/-!
Blocks inside blocks, by address: at each level the number of a statement, and which of its blocks
is meant.
-/
namespace Analog

inductive Arm where
  | main
  | otherwise
  deriving DecidableEq, Repr

abbrev Address := List (Nat × Arm)

namespace Statement

def arm? : Arm → Statement → Option (ScopeId × List Statement)
  | .main, .block scope body => some (scope, body)
  | .main, .conditional _ scope body _ _ => some (scope, body)
  | .otherwise, .conditional _ _ _ scope body => some (scope, body)
  | _, _ => none

def setArm (arm : Arm) (new : List Statement) : Statement → Statement
  | .block scope body =>
    match arm with
    | .main => .block scope new
    | .otherwise => .block scope body
  | .conditional c thnScope thn elsScope els =>
    match arm with
    | .main => .conditional c thnScope new elsScope els
    | .otherwise => .conditional c thnScope thn elsScope new
  | s => s

def blockAt? (scope : ScopeId) (body : List Statement) : Address → Option (ScopeId × List Statement)
  | [] => some (scope, body)
  | (i, arm) :: rest =>
    match (body[i]?).bind (arm? arm) with
    | some (inner, body) => blockAt? inner body rest
    | none => none

def setBlockAt (new : List Statement) (body : List Statement) : Address → List Statement
  | [] => new
  | (i, arm) :: rest =>
    match (body[i]?).bind (arm? arm) with
    | some (_, inner) => body.modify i (setArm arm (setBlockAt new inner rest))
    | none => body

end Statement
end Analog
