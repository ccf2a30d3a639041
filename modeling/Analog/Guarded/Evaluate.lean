import Mathlib.Data.PFun
import Analog.Guarded.Scan

/-!
Patterns evaluated by loops over positions, which take the items of the input from a position on. To
take them from behind its end is a crash, and a loop that goes on for ever has no result.
-/
namespace Analog.Pattern

/-- A result or a crash, if evaluation comes to an end. -/
abbrev Run := ExceptT Crash Part

namespace Run

def tail (items : List Char) (i : Nat) : Run (List Char) :=
  if i ≤ items.length then pure (items.drop i) else throw .outOfRange

/-- Goes from position to position for as long as a round tells to go on. -/
def loop (round : Nat → Run (Nat × Bool)) : Nat → Run Nat :=
  PFun.fix fun i => (round i).run.map fun
    | .error crash => .inl (.error crash)
    | .ok (j, false) => .inl (.ok j)
    | .ok (j, true) => .inr j

def many (one : List Char → Run Nat) (items : List Char) : Nat → Run Nat := loop fun i => do
  if i < items.length then
    let n ← one (← tail items i)
    return (i + n, n ≠ 0)
  else return (i, false)

def upTo (c : Char) (items : List Char) : Nat → Run Nat := loop fun i => do
  if i < items.length then
    if (← tail items i).head? = some c then return (i, false) else return (i + 1, true)
  else return (i, false)

/-- Looks for a closing from a position on. -/
def close (closing items : List Char) : Nat → Run Nat := loop fun i => do
  if i < items.length then
    let n := scanUnit closing (← tail items i)
    if n ≠ 0 then return (i + n, false) else return (i + 1, true)
  else return (i, false)

end Run

mutual

def eval : Pattern → List Char → Run Nat
  | many p, items => Run.many p.eval items 0
  | upTo c, items => Run.upTo c items 0
  | oneOf ps, items => evalFirst ps items
  | sequence ps, items => evalAll ps items 0
  | leading first rest, items => do
    let n ← first.eval items
    if n = 0 then return 0 else return n + (← Run.many rest.eval (← Run.tail items n) 0)
  | between opening closing, items =>
    if scanUnit opening items = 0 then return 0 else Run.close closing items opening.length
  | unit chars, items => return scanUnit chars items
  | bytes text, items => return scanBytes text items
  | within low high, items => return (within low high).scan items
  | finish, items => return finish.scan items

def evalFirst : List Pattern → List Char → Run Nat
  | [], _ => return 0
  | p :: ps, items => do
    let n ← p.eval items
    if n > 0 then return n else evalFirst ps items

/-- Patterns one after the other from a position on, to the first that finds nothing; a sequence
that ends before its last pattern is none. -/
def evalAll : List Pattern → List Char → Nat → Run Nat
  | [], _, n => return n
  | p :: ps, items, n => do
    let ended : Run Nat := return if ps.isEmpty then n else 0
    if n = items.length then ended
    else
      let m ← p.eval (← Run.tail items n)
      if m = 0 then ended else evalAll ps items (n + m)

end

end Analog.Pattern
