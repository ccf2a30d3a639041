import Analog.Guarded.Read

/-!
Reading programs with a guard on every step. Items are given as they are read.
-/
namespace Analog.Guarded

def semicolon {α : Type} (a : α) (ws : Words) : Guarded (α × Words) := do
  let (_, ws) ← require ws .semicolon "expected ';'"
  return (a, ws)

def init (ws : Words) : Guarded (Option Raw × Words) := do
  if ← follows ws .assign then
    let (value, ws) ← read (← pass ws)
    return (some value, ws)
  else return (none, ws)

def declarations (type : DataType) : Nat → List Clause → Words → Guarded (List Clause × Words)
  | 0, _, _ => crash .stalled
  | fuel + 1, before, ws => do
    let (name, rest) ← require ws .identifier "expected variable name"
    let (value, rest) ← init rest
    if before.any (Clause.declares name.text) then
      throw ⟨name.span, (Cause.redeclared .variable name.text).message⟩
    else
      let clauses := before ++ [.declare name.text type value]
      if ← follows rest .comma then
        let next ← pass rest
        advance ws next
        declarations type fuel clauses next
      else semicolon clauses rest

def startsAssignment (ws : Words) : Guarded Bool := do
  let w ← look ws
  return w.kind == .identifier && (ws.tail.headD w).kind == .assign

def assignment (before : List Clause) (ws : Words) : Guarded (List Clause × Words) := do
  let name ← look ws
  let ws ← expect ws .identifier
  let (value, ws) ← read (← expect ws .assign)
  semicolon (before ++ [.assign name.text value]) ws

def contribution (before : List Clause) (ws : Words) : Guarded (List Clause × Words) := do
  let (target, ws) ← read ws
  let (_, ws) ← require ws .contribute "expected '<+'"
  let (value, ws) ← read ws
  semicolon (before ++ [.contribute target value]) ws

def condition (ws : Words) : Guarded (Raw × Words) := do
  let (_, ws) ← require ws .leftParen "expected '('"
  let (cond, ws) ← read ws
  let (_, ws) ← require ws .rightParen "expected ')'"
  return (cond, ws)

def blockName (ws : Words) : Guarded (Unit × Words) := do
  if ← follows ws .colon then
    let (_, ws) ← require (← pass ws) .identifier "expected block name"
    return ((), ws)
  else return ((), ws)

mutual

def body : Nat → Words → Guarded (List Clause × Words)
  | 0, _ => crash .stalled
  | fuel + 1, ws => do
    if ← followsKeyword ws "begin" then
      let (_, ws) ← blockName (← pass ws)
      sequence fuel [] ws
    else statement fuel [] ws

def sequence : Nat → List Clause → Words → Guarded (List Clause × Words)
  | 0, _, _ => crash .stalled
  | fuel + 1, before, ws => do
    if ← followsKeyword ws "end" then return (before, ← pass ws)
    else if ← follows ws .finish then refuse ws "expected end"
    else
      let (clauses, rest) ← statement fuel before ws
      advance ws rest
      sequence fuel clauses rest

def statement : Nat → List Clause → Words → Guarded (List Clause × Words)
  | 0, _, _ => crash .stalled
  | fuel + 1, before, ws => do
    if ← follows ws .semicolon then return (before, ← pass ws)
    else if ← followsKeyword ws "begin" then
      let (inner, ws) ← body fuel ws
      return (before ++ [.block inner], ws)
    else if ← followsKeyword ws "if" then
      let (cond, ws) ← condition (← pass ws)
      let (thn, ws) ← body fuel ws
      if ← followsKeyword ws "else" then
        let (els, ws) ← body fuel (← pass ws)
        return (before ++ [.conditional cond thn els], ws)
      else return (before ++ [.conditional cond thn []], ws)
    else if ← followsKeyword ws "real" then declarations .real ws.length before (← pass ws)
    else if ← followsKeyword ws "integer" then declarations .integer ws.length before (← pass ws)
    else if ← startsAssignment ws then assignment before ws
    else contribution before ws

end

/-- A reading that gives items as it goes, and keeps them when it ends with a problem. -/
abbrev Emitting := ExceptT Diagnostic (StateT (List ProgramItem) (Except Crash))

instance : MonadLift Guarded Emitting :=
    ⟨fun g => ExceptT.mk fun items => do return (← g.run, items)⟩

def emit (item : ProgramItem) : Emitting Unit := modify (· ++ [item])

def halt {α : Type} (c : Crash) : Emitting α := (crash c : Guarded α)

def endItem (ws : Words) : Emitting Words := do
  let (_, ws) ← semicolon () ws
  return ws

def names (make : Lexeme → ProgramItem) : Nat → Words → Emitting Words
  | 0, _ => halt .stalled
  | fuel + 1, ws => do
    let (name, rest) ← require ws .identifier "expected identifier"
    emit (make name)
    if ← follows rest .comma then
      let next ← pass rest
      advance ws next
      names make fuel next
    else if ← follows rest .rightParen then return rest
    else endItem rest

def skipRange : Nat → Int → Words → Guarded Words
  | 0, _, _ => crash .stalled
  | fuel + 1, depth, ws => do
    let w ← look ws
    if w.kind == .finish then return ws
    else if depth ≤ 0 && (w.kind == .comma || w.kind == .semicolon) then return ws
    else skipRange fuel (depth + ProgramItem.depthChange w.kind) (← pass ws)

def skipRanges : Nat → Words → Guarded Words
  | 0, _ => crash .stalled
  | fuel + 1, ws => do
    if (← followsKeyword ws "from") || (← followsKeyword ws "exclude") then
      let rest ← skipRange ws.length 0 (← pass ws)
      advance ws rest
      skipRanges fuel rest
    else return ws

def default (ws : Words) : Guarded ((Lexeme × Raw) × Words) := do
  let (name, ws) ← require ws .identifier "expected parameter name"
  let (_, ws) ← require ws .assign "expected '='"
  let (value, ws) ← read ws
  return ((name, value), ← skipRanges ws.length ws)

def parameters (type : DataType) (isLocal : Bool) : Nat → Words → Emitting Words
  | 0, _ => halt .stalled
  | fuel + 1, ws => do
    let ((name, value), rest) ← default ws
    emit (.parameter name type value isLocal)
    if ← follows rest .comma then
      let next ← pass rest
      advance ws next
      parameters type isLocal fuel next
    else endItem rest

def type (ws : Words) : Guarded (DataType × Words) := do
  if ← followsKeyword ws "real" then return (.real, ← pass ws)
  else if ← followsKeyword ws "integer" then return (.integer, ← pass ws)
  else if ← followsKeyword ws "string" then return (.string, ← pass ws)
  else return (.real, ws)

def nodes (ws : Words) : Guarded ((String × Option String) × Words) := do
  let (_, ws) ← require ws .leftParen "expected '('"
  let (p, ws) ← require ws .identifier "expected node"
  if ← follows ws .comma then
    let (n, ws) ← require (← pass ws) .identifier "expected node"
    let (_, ws) ← require ws .rightParen "expected ')'"
    return ((p.text, some n.text), ws)
  else
    let (_, ws) ← require ws .rightParen "expected ')'"
    return ((p.text, none), ws)

def item (ws : Words) : Emitting Words := do
  let word ← look ws
  if word.kind != .identifier then refuse ws "unknown declaration"
  else match word.text with
    | "input" => names .direction ws.length (← expect ws .identifier)
    | "output" => names .direction ws.length (← expect ws .identifier)
    | "inout" => names .direction ws.length (← expect ws .identifier)
    | "electrical" => names .node ws.length (← expect ws .identifier)
    | "parameter" =>
      let (type, ws) ← type (← expect ws .identifier)
      parameters type false ws.length ws
    | "localparam" =>
      let (type, ws) ← type (← expect ws .identifier)
      parameters type true ws.length ws
    | "real" => names (.variable · .real) ws.length (← expect ws .identifier)
    | "integer" => names (.variable · .integer) ws.length (← expect ws .identifier)
    | "branch" =>
      let ((p, n), ws) ← nodes (← expect ws .identifier)
      names (.branch · p n) ws.length ws
    | "analog" =>
      let ws ← expect ws .identifier
      let (clauses, ws) ← body (3 * ws.length + 3) ws
      emit (.analog word clauses)
      return ws
    | _ => refuse ws "unknown declaration"

def items : Nat → Words → Emitting Words
  | 0, _ => halt .stalled
  | fuel + 1, ws => do
    if ← followsKeyword ws "endmodule" then pass ws
    else if ← follows ws .finish then refuse ws "expected endmodule"
    else
      let rest ← item ws
      advance ws rest
      items fuel rest

def ports (ws : Words) : Emitting Words := do
  if ← follows ws .leftParen then
    let inner ← pass ws
    let rest ← if ← follows inner .rightParen then pure inner else names .port inner.length inner
    return (← require rest .rightParen "expected ')'").2
  else return ws

def device (ws : Words) : Emitting Words := do
  if ← followsKeyword ws "module" then
    let (name, ws) ← require (← pass ws) .identifier "expected module name"
    emit (.device name)
    let ws ← endItem (← ports ws)
    items ws.length ws
  else refuse ws "expected module"

def devices : Nat → Words → Emitting Words
  | 0, _ => halt .stalled
  | fuel + 1, ws => do
    if ← follows ws .finish then return ws
    else
      let rest ← device ws
      advance ws rest
      devices fuel rest

def program (ws : Words) : Except Crash Program := do
  match ← (devices ws.length ws).run [] with
  | (.ok _, items) => return ⟨items, none⟩
  | (.error d, items) => return ⟨items, some d⟩

end Analog.Guarded
