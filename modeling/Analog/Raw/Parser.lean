import Analog.Lexer.Lexeme
import Analog.Raw.Basic

/-!
Reading expressions. A conditional binds least and groups to the right; binary operators are read by
their strength, unary operators bind more tightly than any of them. Reading gives the tokens in
postfix order and the words after the expression.
-/
namespace Analog

abbrev Words := List Lexeme

namespace Words

def next (ws : Words) : Lexeme := ws.headD ⟨.finish, "", ⟨0, 0⟩⟩

def fail {α : Type} (ws : Words) (message : String) : Except Diagnostic α :=
  .error ⟨(Words.next ws).span, message⟩

def follows (ws : Words) (kind : Kind) : Bool := (Words.next ws).kind == kind

def require (ws : Words) (kind : Kind) (message : String) : Except Diagnostic (Lexeme × Words) :=
  match ws with
  | w :: rest => if w.kind == kind then .ok (w, rest) else Words.fail ws message
  | [] => Words.fail ws message

end Words

def Kind.binary? : Kind → Option BinaryOp
  | plus => some .add
  | minus => some .sub
  | times => some .mul
  | divide => some .div
  | modulo => some .mod
  | power => some .pow
  | equal => some .eq
  | notEqual => some .ne
  | less => some .lt
  | lessEqual => some .le
  | greater => some .gt
  | greaterEqual => some .ge
  | both => some .and
  | either => some .or
  | _ => none

namespace Raw

abbrev Reading := Except Diagnostic (Raw × Words)

def readLiteral (w : Lexeme) (rest : Words) : Reading :=
  match Value.read w.text with
  | .ok v => .ok ([.literal v], rest)
  | .error e => .error ⟨w.span, e.message⟩

mutual

def readFuel : Nat → Words → Reading
  | 0, ws => Words.fail ws "unknown expression"
  | fuel + 1, ws => do
    let (cond, ws) ← readBinary fuel 1 ws
    match ws with
    | ⟨.question, _, _⟩ :: ws =>
      let (thn, ws) ← readFuel fuel ws
      let (_, ws) ← Words.require ws .colon "expected ':'"
      let (els, ws) ← readFuel fuel ws
      return (cond ++ [.ternary thn els], ws)
    | ws => return (cond, ws)

def readBinary : Nat → Nat → Words → Reading
  | 0, _, ws => Words.fail ws "unknown expression"
  | fuel + 1, bound, ws => do
    let (first, ws) ← readUnary fuel ws
    readOperators fuel bound first ws

def readOperators : Nat → Nat → Raw → Words → Reading
  | 0, _, _, ws => Words.fail ws "unknown expression"
  | fuel + 1, bound, left, ws =>
    match (Words.next ws).kind.binary? with
    | none => .ok (left, ws)
    | some op =>
      if op.strength < bound then .ok (left, ws)
      else do
        let (right, ws) ← readBinary fuel op.rightBound ws.tail
        readOperators fuel bound (left ++ right ++ [.binary op]) ws

def readUnary : Nat → Words → Reading
  | 0, ws => Words.fail ws "unknown expression"
  | fuel + 1, ws =>
    match ws with
    | ⟨.plus, _, _⟩ :: ws => readUnary fuel ws
    | ⟨.minus, _, _⟩ :: ws => do
      let (x, ws) ← readUnary fuel ws
      return (x ++ [.unary .neg], ws)
    | ⟨.bang, _, _⟩ :: ws => do
      let (x, ws) ← readUnary fuel ws
      return (x ++ [.unary .not], ws)
    | ws => readPrimary fuel ws

def readPrimary : Nat → Words → Reading
  | 0, ws => Words.fail ws "unknown expression"
  | fuel + 1, ws =>
    match ws with
    | ⟨.leftParen, _, _⟩ :: ws => do
      let (x, ws) ← readFuel fuel ws
      let (_, ws) ← Words.require ws .rightParen "expected ')'"
      return (x, ws)
    | ⟨.number, text, span⟩ :: ws => readLiteral ⟨.number, text, span⟩ ws
    | ⟨.string, text, span⟩ :: ws => readLiteral ⟨.string, text, span⟩ ws
    | ⟨.identifier, name, _⟩ :: ⟨.leftParen, _, _⟩ :: ws => do
      let (args, ws) ← if Words.follows ws .rightParen then .ok ([], ws) else readArguments fuel ws
      let (_, ws) ← Words.require ws .rightParen "expected ')'"
      return (Token.marker :: args ++ [.arguments, .identifier name], ws)
    | ⟨.identifier, name, _⟩ :: ws => .ok ([.identifier name], ws)
    | ws => Words.fail ws "unknown expression"

def readArguments : Nat → Words → Reading
  | 0, ws => Words.fail ws "unknown expression"
  | fuel + 1, ws => do
    let (first, ws) ← readFuel fuel ws
    match ws with
    | ⟨.comma, _, _⟩ :: ws =>
      let (more, ws) ← readArguments fuel ws
      return (first ++ more, ws)
    | ws => return (first, ws)

end

/-- Each word is passed by at most four nested readings. -/
def read (ws : Words) : Reading := readFuel (4 * ws.length + 4) ws

def ofWords (ws : Words) : Except Diagnostic Raw := do
  let (r, rest) ← read ws
  if Words.follows rest .finish then return r else Words.fail rest "unknown token"

def ofText (s : SourceText) : Except Diagnostic Raw := do
  ofWords (← Lexeme.ofText s)

end Raw
end Analog
