import Analog.Guarded.Scan
import Analog.Program.Items

/-!
Reading expressions with a guard on every step that could go wrong: a word after the last one, a
word of another kind than the one that was seen, a round of a loop that takes no word, readings
nested too deep.
-/
namespace Analog

/-- A reading that can crash, besides a problem of the text. -/
abbrev Guarded := ExceptT Diagnostic (Except Crash)

namespace Guarded

variable {α β : Type}

def crash (c : Crash) : Guarded α := ExceptT.mk (.error c)

def sure (x : Except Diagnostic α) : Guarded α := ExceptT.mk (.ok x)

def look : Words → Guarded Lexeme
  | [] => crash .pastEnd
  | w :: _ => return w

def pass : Words → Guarded Words
  | _ :: w :: ws => return w :: ws
  | _ => crash .pastEnd

def refuse (ws : Words) (message : String) : Guarded α := do
  throw ⟨(← look ws).span, message⟩

def follows (ws : Words) (kind : Kind) : Guarded Bool := return (← look ws).kind == kind

def followsKeyword (ws : Words) (keyword : String) : Guarded Bool := do
  let w ← look ws
  return w.kind == .identifier && w.text == keyword

def require (ws : Words) (kind : Kind) (message : String) : Guarded (Lexeme × Words) := do
  let w ← look ws
  if w.kind == kind then return (w, ← pass ws) else refuse ws message

def expect (ws : Words) (kind : Kind) : Guarded Words := do
  if ← follows ws kind then pass ws else crash .otherKind

def advance (before after : Words) : Guarded Unit :=
  if after.length < before.length then return () else crash .stalled

mutual

def expression : Nat → Words → Guarded (Raw × Words)
  | 0, _ => crash .stalled
  | fuel + 1, ws => do
    let (cond, ws) ← binary fuel 1 ws
    if ← follows ws .question then
      let (thn, ws) ← expression fuel (← pass ws)
      let (_, ws) ← require ws .colon "expected ':'"
      let (els, ws) ← expression fuel ws
      return (cond ++ [.ternary thn els], ws)
    else return (cond, ws)

def binary : Nat → Nat → Words → Guarded (Raw × Words)
  | 0, _, _ => crash .stalled
  | fuel + 1, bound, ws => do
    let (first, ws) ← unary fuel ws
    operators fuel bound first ws

def operators : Nat → Nat → Raw → Words → Guarded (Raw × Words)
  | 0, _, _, _ => crash .stalled
  | fuel + 1, bound, left, ws => do
    match (← look ws).kind.binary? with
    | none => return (left, ws)
    | some op =>
      if op.strength < bound then return (left, ws)
      else
        let (right, rest) ← binary fuel op.rightBound (← pass ws)
        advance ws rest
        operators fuel bound (left ++ right ++ [.binary op]) rest

def unary : Nat → Words → Guarded (Raw × Words)
  | 0, _ => crash .stalled
  | fuel + 1, ws => do
    match (← look ws).kind with
    | .plus => unary fuel (← pass ws)
    | .minus =>
      let (x, ws) ← unary fuel (← pass ws)
      return (x ++ [.unary .neg], ws)
    | .bang =>
      let (x, ws) ← unary fuel (← pass ws)
      return (x ++ [.unary .not], ws)
    | _ => primary fuel ws

def primary : Nat → Words → Guarded (Raw × Words)
  | 0, _ => crash .stalled
  | fuel + 1, ws => do
    let w ← look ws
    match w.kind with
    | .leftParen =>
      let (x, ws) ← expression fuel (← expect ws .leftParen)
      let (_, ws) ← require ws .rightParen "expected ')'"
      return (x, ws)
    | .number => sure (Raw.readLiteral w (← expect ws .number))
    | .string => sure (Raw.readLiteral w (← expect ws .string))
    | .identifier =>
      let ws ← expect ws .identifier
      if ← follows ws .leftParen then
        let ws ← expect ws .leftParen
        let (args, ws) ← if ← follows ws .rightParen then pure ([], ws) else arguments fuel ws
        let (_, ws) ← require ws .rightParen "expected ')'"
        return (.marker :: args ++ [.arguments, .identifier w.text], ws)
      else return ([.identifier w.text], ws)
    | _ => refuse ws "unknown expression"

def arguments : Nat → Words → Guarded (Raw × Words)
  | 0, _ => crash .stalled
  | fuel + 1, ws => do
    let (first, rest) ← expression fuel ws
    if ← follows rest .comma then
      let next ← pass rest
      advance ws next
      let (more, ws) ← arguments fuel next
      return (first ++ more, ws)
    else return (first, rest)

end

def read (ws : Words) : Guarded (Raw × Words) := expression (4 * ws.length + 4) ws

end Guarded
end Analog
