import Analog.Guarded.Program
import Analog.Program.Elaborate

/-!
Elaboration with a guard on what could break it off: a device that is placed twice, a use of a
branch that is given back but was never taken, and, at the end, a block that waits for no name.
-/
namespace Analog.Guarded

/-- Works off items. The latest device comes first, and the place of each is kept under its
number. -/
def elaborate (config : Config) : List ProgramItem → SpanTable Nat → List Device →
    Guarded (SpanTable Nat × List Device)
  | [], places, done => return (places, done)
  | .device name :: items, places, done =>
    match places.put done.length name.span with
    | .ok places => elaborate config items places (.create name.text config :: done)
    | .error _ => crash .entered
  | item :: items, places, m :: done =>
    match item.apply m with
    | .ok _ m => elaborate config items places (m :: done)
    | .error (.underflow u) _ => crash (.underflow u)
    | .error f _ => throw ⟨item.span, f.message⟩
  | _ :: items, places, [] => elaborate config items places []

/-- Finishes a device. What waits in it must have a name to report. -/
def finish (span : Span) (m : Device) : Except Crash (Device × List Diagnostic) :=
  if m.waiting.all (·.problem.cause.fault?.isSome) then
    match DeviceM.finish m with
    | .ok problems m => .ok (m, problems.map fun p => ⟨span, p.message⟩)
    | .error (.underflow u) _ => .error (.underflow u)
    | .error f m => .ok (m, [⟨span, f.message⟩])
  else .error .nameless

def finishAll (places : SpanTable Nat) :
    Nat → List Device → Except Crash (List (Device × List Diagnostic))
  | _, [] => return []
  | i, m :: ms => do
    let first ← finish (places.place i) m
    return first :: (← finishAll places (i + 1) ms)

/-- The devices that a text describes. -/
def devicesOf (s : SourceText) (config : Config) :
    Except Crash (Except (List Diagnostic) (List Device)) := do
  match ← Crash.lex s with
  | .error d => return .error [d]
  | .ok ws =>
    let p ← program ws
    match ← (elaborate config p.items .empty []).run, p.error with
    | .error d, _ => return .error [d]
    | .ok _, some d => return .error [d]
    | .ok (places, done), none =>
      let results ← finishAll places 0 done.reverse
      let diagnostics := results.flatMap (·.2)
      return if diagnostics.isEmpty then .ok (results.map (·.1)) else .error diagnostics

def wholeOf (ws : Words) : Guarded Raw := do
  let (raw, rest) ← read ws
  if ← follows rest .finish then return raw else refuse rest "unknown token"

/-- The expression that a text is. -/
def expressionOf (s : SourceText) : Guarded Raw := ExceptT.mk (Crash.lex s) >>= wholeOf

end Analog.Guarded
