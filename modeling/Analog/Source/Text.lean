import Analog.Source.Span
import Analog.Terminal

/-!
Named source texts, their lines, and problems reported at a stretch of one. The lines of a text are
the stretches between its line feeds; the line of an offset is the last that starts at or before it.
-/
namespace Analog

structure SourceText where
  name : String
  contents : List Char
  deriving DecidableEq, Repr

structure Line where
  text : List Char
  start : Nat
  number : Nat
  deriving DecidableEq, Repr

structure Diagnostic where
  span : Span
  message : String
  deriving DecidableEq, Repr

structure Excerpt where
  line : Line
  offset : Nat
  length : Nat
  deriving DecidableEq, Repr

def splitLines : List Char → List (List Char)
  | [] => [[]]
  | c :: cs =>
    if c == '\n' then [] :: splitLines cs
    else match splitLines cs with
      | [] => [[c]]
      | l :: ls => (c :: l) :: ls

def numberLines (start number : Nat) : List (List Char) → List Line
  | [] => []
  | l :: ls => ⟨l, start, number⟩ :: numberLines (start + l.length + 1) (number + 1) ls

namespace SourceText

def ofString (name text : String) : SourceText := ⟨name, text.toList⟩

def lines (s : SourceText) : List Line := numberLines 0 1 (splitLines s.contents)

def line (s : SourceText) (offset : Nat) : Line :=
  ((s.lines.takeWhile (·.start ≤ offset)).getLast?).getD ⟨[], 0, 1⟩

def excerpt (s : SourceText) (d : Diagnostic) : Excerpt :=
  let line := s.line d.span.start
  let offset := d.span.start - line.start
  let room := line.text.length - offset
  let marks := if d.span.length < room then d.span.length else room
  ⟨line, offset, if marks == 0 then 1 else marks⟩

def describe (s : SourceText) (d : Diagnostic) : String :=
  s.name ++ ":" ++ toString (s.line d.span.start).number ++ ": " ++ d.message

def report (s : SourceText) (d : Diagnostic) (colour : Bool) : String :=
  let e := s.excerpt d
  let first := e.offset + 1
  let marks := String.ofList (List.replicate e.length '^')
  s.name ++ ":" ++ toString e.line.number ++ ":" ++ toString first ++ "-" ++
    toString (first + e.length) ++ " " ++ d.message ++ "\n\n" ++
    String.ofList e.line.text ++ "\n" ++
    String.ofList (List.replicate e.offset ' ') ++
    Terminal.highlight marks Terminal.red colour ++ "\n"

end SourceText
end Analog
