import Analog.Program.Basic
import Analog.Raw.Parser

/-!
Reading the statements of analog blocks. A name is declared once in each block, which is seen to
here, so that the first thing wrong in a text is the one that is reported.
-/
namespace Analog

namespace Words

def followsKeyword (ws : Words) (keyword : String) : Bool :=
  (Words.next ws).kind == .identifier && (Words.next ws).text == keyword

def type? (ws : Words) : Option (DataType × Words) :=
  if Words.followsKeyword ws "real" then some (.real, ws.tail)
  else if Words.followsKeyword ws "integer" then some (.integer, ws.tail)
  else if Words.followsKeyword ws "string" then some (.string, ws.tail)
  else none

def typeOrReal (ws : Words) : DataType × Words := (Words.type? ws).getD (.real, ws)

def isAssignment : Words → Bool
  | ⟨.identifier, _, _⟩ :: ⟨.assign, _, _⟩ :: _ => true
  | _ => false

end Words

namespace Clause

abbrev Reading := Except Diagnostic (List Clause × Words)

def readSemicolon (clauses : List Clause) (ws : Words) : Reading := do
  let (_, ws) ← Words.require ws .semicolon "expected ';'"
  return (clauses, ws)

def readInit (ws : Words) : Except Diagnostic (Option Raw × Words) :=
  if Words.follows ws .assign then do
    let (value, ws) ← Raw.read ws.tail
    return (some value, ws)
  else .ok (none, ws)

def readVariables (type : DataType) : Nat → List Clause → Words → Reading
  | 0, _, ws => Words.fail ws "expected variable name"
  | fuel + 1, before, ws => do
    let (name, ws) ← Words.require ws .identifier "expected variable name"
    let (init, ws) ← readInit ws
    if before.any (declares name.text) then
      .error ⟨name.span, (Cause.redeclared .variable name.text).message⟩
    else
      let clauses := before ++ [.declare name.text type init]
      if Words.follows ws .comma then readVariables type fuel clauses ws.tail
      else readSemicolon clauses ws

def readAssignment (before : List Clause) (ws : Words) : Reading := do
  let (name, ws) ← Words.require ws .identifier "expected variable name"
  let (_, ws) ← Words.require ws .assign "expected '='"
  let (value, ws) ← Raw.read ws
  readSemicolon (before ++ [.assign name.text value]) ws

def readContribution (before : List Clause) (ws : Words) : Reading := do
  let (target, ws) ← Raw.read ws
  let (_, ws) ← Words.require ws .contribute "expected '<+'"
  let (value, ws) ← Raw.read ws
  readSemicolon (before ++ [.contribute target value]) ws

def readCondition (ws : Words) : Except Diagnostic (Raw × Words) := do
  let (_, ws) ← Words.require ws .leftParen "expected '('"
  let (cond, ws) ← Raw.read ws
  let (_, ws) ← Words.require ws .rightParen "expected ')'"
  return (cond, ws)

def skipBlockName (ws : Words) : Except Diagnostic Words :=
  if Words.follows ws .colon then do
    let (_, ws) ← Words.require ws.tail .identifier "expected block name"
    return ws
  else .ok ws

mutual

def readBodyFuel : Nat → Words → Reading
  | 0, ws => Words.fail ws "expected end"
  | fuel + 1, ws =>
    if Words.followsKeyword ws "begin" then do
      let ws ← skipBlockName ws.tail
      readSequence fuel [] ws
    else readStatement fuel [] ws

def readSequence : Nat → List Clause → Words → Reading
  | 0, _, ws => Words.fail ws "expected end"
  | fuel + 1, before, ws =>
    if Words.followsKeyword ws "end" then .ok (before, ws.tail)
    else if Words.follows ws .finish then Words.fail ws "expected end"
    else do
      let (clauses, ws) ← readStatement fuel before ws
      readSequence fuel clauses ws

def readStatement : Nat → List Clause → Words → Reading
  | 0, _, ws => Words.fail ws "expected end"
  | fuel + 1, before, ws =>
    if Words.follows ws .semicolon then .ok (before, ws.tail)
    else if Words.followsKeyword ws "begin" then do
      let (body, ws) ← readBodyFuel fuel ws
      return (before ++ [.block body], ws)
    else if Words.followsKeyword ws "if" then do
      let (cond, ws) ← readCondition ws.tail
      let (thn, ws) ← readBodyFuel fuel ws
      if Words.followsKeyword ws "else" then
        let (els, ws) ← readBodyFuel fuel ws.tail
        return (before ++ [.conditional cond thn els], ws)
      else return (before ++ [.conditional cond thn []], ws)
    else if Words.followsKeyword ws "real" then readVariables .real ws.length before ws.tail
    else if Words.followsKeyword ws "integer" then readVariables .integer ws.length before ws.tail
    else if Words.isAssignment ws then readAssignment before ws
    else readContribution before ws

end

def readBody (ws : Words) : Reading := readBodyFuel (3 * ws.length + 3) ws

end Clause
end Analog
