import Analog.Lexer.Basic

/-!
The lexer round by round, at positions of the input. Each access is checked: a round that takes
items from behind the end, or makes a span that ends before it starts, is a fault.
-/
namespace Analog.Lexer

variable {α τ : Type}

inductive Fault where
  /-- Items from behind the end of the input. -/
  | outOfRange
  /-- A span that ends before it starts. -/
  | backwards

/-- One round at a position: a match and the position behind it, or none when the work is done. A
match at the end of the input goes behind the end. -/
def round (rules : List (Rule α τ)) (items : List α) (i : Nat) :
    Except Fault (Option (Match τ × Nat)) :=
  if items.length < i then .ok none
  else if i ≤ items.length then
    match firstMatch? rules (items.drop i) with
    | none => .ok none
    | some (rule, n) =>
      match Span.ofBounds? i (min items.length (i + n)) with
      | none => .error .backwards
      | some span => .ok (some (⟨rule.tag, span⟩, if i = items.length then i + 1 else span.stop))
  else .error .outOfRange

/-- Rounds from a position on until one finds nothing: the matches, and the position of the last
round. -/
inductive Runs (rules : List (Rule α τ)) (items : List α) : Nat → List (Match τ) → Nat → Prop
  | stop {i : Nat} (idle : round rules items i = .ok none) : Runs rules items i [] i
  | next {i j last : Nat} {m : Match τ} {ms : List (Match τ)}
    (taken : round rules items i = .ok (some (m, j)))
    (more : Runs rules items j ms last) : Runs rules items i (m :: ms) last

end Analog.Lexer
