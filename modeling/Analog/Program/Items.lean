import Analog.Program.Clauses

/-!
Reading programs item by item. What was read before an error is kept, since a problem with one of
those items comes before the error.
-/
namespace Analog

structure Emitted where
  items : List ProgramItem
  next : Except Diagnostic Words

namespace Emitted

def ofWords (r : Except Diagnostic Words) : Emitted := ⟨[], r⟩

def andThen (e : Emitted) (f : Words → Emitted) : Emitted :=
  match e.next with
  | .error d => ⟨e.items, .error d⟩
  | .ok ws =>
    let g := f ws
    ⟨e.items ++ g.items, g.next⟩

end Emitted

namespace ProgramItem

def semicolon (ws : Words) : Except Diagnostic Words := do
  let (_, ws) ← Words.require ws .semicolon "expected ';'"
  return ws

def readNames (make : Lexeme → ProgramItem) : Words → Emitted
  | [] => .ofWords (Words.fail [] "expected identifier")
  | name :: ws =>
    if name.kind != .identifier then .ofWords (Words.fail (name :: ws) "expected identifier")
    else
      match ws with
      | ⟨.comma, _, _⟩ :: ws =>
        let more := readNames make ws
        ⟨make name :: more.items, more.next⟩
      | ws => ⟨[make name], if Words.follows ws .rightParen then .ok ws else semicolon ws⟩

def depthChange : Kind → Int
  | .leftParen => 1
  | .leftSquare => 1
  | .rightParen => -1
  | .rightSquare => -1
  | _ => 0

def skipRange (depth : Int) : Words → Words
  | [] => []
  | w :: ws =>
    if w.kind == .finish then w :: ws
    else if depth ≤ 0 && (w.kind == .comma || w.kind == .semicolon) then w :: ws
    else skipRange (depth + depthChange w.kind) ws

def skipRanges (ws : Words) : Words :=
  if Words.followsKeyword ws "from" || Words.followsKeyword ws "exclude" then skipRange 0 ws.tail
  else ws

def readDefault (ws : Words) : Except Diagnostic (Lexeme × Raw × Words) := do
  let (name, ws) ← Words.require ws .identifier "expected parameter name"
  let (_, ws) ← Words.require ws .assign "expected '='"
  let (value, ws) ← Raw.read ws
  return (name, value, skipRanges ws)

def readParametersFuel (type : DataType) (isLocal : Bool) : Nat → Words → Emitted
  | 0, ws => .ofWords (Words.fail ws "expected parameter name")
  | fuel + 1, ws =>
    match readDefault ws with
    | .error d => .ofWords (.error d)
    | .ok (name, value, ws) =>
      let first := ProgramItem.parameter name type value isLocal
      if Words.follows ws .comma then
        let more := readParametersFuel type isLocal fuel ws.tail
        ⟨first :: more.items, more.next⟩
      else ⟨[first], semicolon ws⟩

def readParameters (isLocal : Bool) (ws : Words) : Emitted :=
  let (type, ws) := Words.typeOrReal ws
  readParametersFuel type isLocal ws.length ws

def readNodes (ws : Words) : Except Diagnostic (String × Option String × Words) := do
  let (_, ws) ← Words.require ws .leftParen "expected '('"
  let (p, ws) ← Words.require ws .identifier "expected node"
  if Words.follows ws .comma then
    let (n, ws) ← Words.require ws.tail .identifier "expected node"
    let (_, ws) ← Words.require ws .rightParen "expected ')'"
    return (p.text, some n.text, ws)
  else
    let (_, ws) ← Words.require ws .rightParen "expected ')'"
    return (p.text, none, ws)

def readBranches (ws : Words) : Emitted :=
  match readNodes ws with
  | .error d => .ofWords (.error d)
  | .ok (p, n, ws) => readNames (ProgramItem.branch · p n) ws

def readAnalog (keyword : Lexeme) (ws : Words) : Emitted :=
  match Clause.readBody ws with
  | .error d => .ofWords (.error d)
  | .ok (body, ws) => ⟨[.analog keyword body], .ok ws⟩

def read (ws : Words) : Emitted :=
  let word := Words.next ws
  if word.kind != .identifier then .ofWords (Words.fail ws "unknown declaration")
  else match word.text with
    | "input" => readNames .direction ws.tail
    | "output" => readNames .direction ws.tail
    | "inout" => readNames .direction ws.tail
    | "electrical" => readNames .node ws.tail
    | "parameter" => readParameters false ws.tail
    | "localparam" => readParameters true ws.tail
    | "real" => readNames (ProgramItem.variable · .real) ws.tail
    | "integer" => readNames (ProgramItem.variable · .integer) ws.tail
    | "branch" => readBranches ws.tail
    | "analog" => readAnalog word ws.tail
    | _ => .ofWords (Words.fail ws "unknown declaration")

def readAll : Nat → Words → Emitted
  | 0, ws => .ofWords (Words.fail ws "expected endmodule")
  | fuel + 1, ws =>
    if Words.followsKeyword ws "endmodule" then .ofWords (.ok ws.tail)
    else if Words.follows ws .finish then .ofWords (Words.fail ws "expected endmodule")
    else (read ws).andThen (readAll fuel)

def readPorts (ws : Words) : Emitted :=
  if Words.follows ws .leftParen then
    let inner := ws.tail
    let ports := if Words.follows inner .rightParen then .ofWords (.ok inner)
      else readNames .port inner
    ports.andThen fun ws =>
      .ofWords ((Words.require ws .rightParen "expected ')'").map (·.2))
  else .ofWords (.ok ws)

def readDevice (ws : Words) : Emitted :=
  if Words.followsKeyword ws "module" then
    match Words.require ws.tail .identifier "expected module name" with
    | .error d => .ofWords (.error d)
    | .ok (name, ws) =>
      let ports := readPorts ws
      let head : Emitted := ⟨.device name :: ports.items, ports.next⟩
      (head.andThen fun ws => .ofWords (semicolon ws)).andThen fun ws => readAll ws.length ws
  else .ofWords (Words.fail ws "expected module")

def readDevices : Nat → Words → Emitted
  | 0, ws => .ofWords (.ok ws)
  | fuel + 1, ws =>
    if Words.follows ws .finish then .ofWords (.ok ws)
    else (readDevice ws).andThen (readDevices fuel)

end ProgramItem

def Program.ofWords (ws : Words) : Program :=
  let e := ProgramItem.readDevices ws.length ws
  match e.next with
  | .ok _ => ⟨e.items, none⟩
  | .error d => ⟨e.items, some d⟩

end Analog
