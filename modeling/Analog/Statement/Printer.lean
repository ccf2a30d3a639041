import Analog.Raw.Printer
import Analog.Statement.Basic
import Analog.Tree.Printer

/-!
Statements as source text, each with the summary of what it was resolved to. An expression that was
never resolved stands in braces.
-/
namespace Analog

def comment (c : Circuit) : Option Tree → String
  | some t => "// " ++ t.summary.text c
  | none => "// unreachable"

def treeOrSource (c : Circuit) (value : Option Tree) (source : Source) : String :=
  match value with
  | some t => t.source c
  | none => "\x7b" ++ Raw.source source.raw ++ "\x7d"

namespace Declaration

def line (d : Design) (s : Declaration) : String :=
  let type := (d.variableOf s.symbol.id).type.text
  match s.source, s.value with
  | none, _ => type ++ " " ++ s.symbol.name ++ ";"
  | some source, none =>
    type ++ " " ++ s.symbol.name ++ " = " ++ Raw.linear source.raw ++ "; " ++
      comment d.circuit none
  | some _, some t => type ++ " " ++ t.source d.circuit ++ "; " ++ comment d.circuit (some t)

end Declaration

def Assignment.line (d : Design) (s : Assignment) : String :=
  s.name ++ " = " ++ treeOrSource d.circuit s.value s.source ++ "; " ++ comment d.circuit s.value

def Contribution.line (d : Design) (s : Contribution) : String :=
  let target := match s.quantity with
    | some q => q.text d.circuit
    | none => Raw.linear s.target.raw
  target ++ " <+ " ++ treeOrSource d.circuit s.value s.source ++ "; " ++ comment d.circuit s.value

def Condition.line (d : Design) (c : Condition) : String :=
  "if (" ++ treeOrSource d.circuit c.value c.source ++ ") " ++ comment d.circuit c.value

namespace Statement

mutual

def lines (d : Design) (indent : String) : Statement → List String
  | .declare s => [indent ++ s.line d]
  | .assign s => [indent ++ s.line d]
  | .contribute s => [indent ++ s.line d]
  | .conditional c _ thn _ els =>
    let thnLines := [indent ++ "begin"] ++ allLines d (indent ++ "  ") thn ++ [indent ++ "end"]
    let elsLines := [indent ++ "else", indent ++ "begin"] ++ allLines d (indent ++ "  ") els ++
      [indent ++ "end"]
    (indent ++ c.line d) :: thnLines ++ (if els.isEmpty then [] else elsLines)
  | .block _ body => [indent ++ "begin"] ++ allLines d (indent ++ "  ") body ++ [indent ++ "end"]

def allLines (d : Design) (indent : String) : List Statement → List String
  | [] => []
  | s :: ss => s.lines d indent ++ allLines d indent ss

end

end Statement
end Analog
