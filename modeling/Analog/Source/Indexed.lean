import Analog.Source.Text

/-!
Texts that keep a table of their line starts. It is made when a line is first asked for.
-/
namespace Analog

/-- Where the lines of a text start. -/
def SourceText.starts (s : SourceText) : List Nat := s.lines.map (·.start)

/-- The place of the last entry of a table that is not above `key`, by the place where `key` stands
or would have to. -/
def place (table : List Nat) (key : Nat) : Nat :=
  let i := table.findIdx (key ≤ ·)
  if table[i]? = some key then i else i - 1

/-- A text with the table of its line starts, once that is made. -/
structure Indexed where
  source : SourceText
  table : Option (List Nat)

namespace Indexed

def line (x : Indexed) (offset : Nat) : Line × Indexed :=
  let table := x.table.getD x.source.starts
  let i := place table offset
  let start := table.getD i 0
  let stop := table[i + 1]?.getD (x.source.contents.length + 1) - 1
  (⟨(x.source.contents.drop start).take (stop - start), start, i + 1⟩, ⟨x.source, some table⟩)

/-- A text of which lines were asked for, the latest offset first. -/
def asked (s : SourceText) : List Nat → Indexed
  | [] => ⟨s, none⟩
  | offset :: earlier => ((asked s earlier).line offset).2

end Indexed
end Analog
