import Analog.Source.Span

/-!
Lexing by an ordered list of rules: at each position the first rule that matches is used. The
matches tile the input from its start; a match at the end of the input is the last.
-/
namespace Analog

/-- A scanner gives the length of its match at the start of the input, zero for none. -/
abbrev Scanner (α : Type) := List α → Nat

structure Rule (α τ : Type) where
  scan : Scanner α
  tag : Option τ

structure Match (τ : Type) where
  tag : Option τ
  span : Span

structure Lexed (τ : Type) where
  found : List (Match τ)
  stop : Nat
  size : Nat

namespace Lexer

variable {α τ : Type}

def firstMatch? : List (Rule α τ) → List α → Option (Rule α τ × Nat)
  | [], _ => none
  | r :: rs, items =>
    match r.scan items with
    | 0 => firstMatch? rs items
    | n + 1 => some (r, n + 1)

def collectFuel (rules : List (Rule α τ)) : Nat → Nat → List α → List (Match τ) × Nat
  | 0, start, _ => ([], start)
  | fuel + 1, start, items =>
    match firstMatch? rules items with
    | none => ([], start)
    | some (rule, n) =>
      let stop := start + (items.take n).length
      let found : Match τ := ⟨rule.tag, ⟨start, stop⟩⟩
      if items.isEmpty then ([found], start)
      else
        let (more, last) := collectFuel rules fuel stop (items.drop n)
        (found :: more, last)

def collect (rules : List (Rule α τ)) (items : List α) : Lexed τ :=
  let (found, stop) := collectFuel rules (items.length + 1) 0 items
  ⟨found, stop, items.length⟩

end Lexer

namespace Lexed

variable {τ : Type}

def tokens (l : Lexed τ) : List (τ × Span) :=
  l.found.filterMap fun m => m.tag.map fun tag => (tag, m.span)

def remaining (l : Lexed τ) : Nat := l.size - l.stop

def unmatched (l : Lexed τ) : Span := ⟨l.stop, l.stop + l.remaining⟩

end Lexed
end Analog
