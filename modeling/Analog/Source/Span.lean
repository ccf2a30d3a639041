/-!
Stretches of a text by character positions, and tables that keep the stretch of a key.
-/
namespace Analog

structure Span where
  start : Nat
  stop : Nat
  deriving DecidableEq, Repr

namespace Span

def ofBounds? (start stop : Nat) : Option Span :=
  if start ≤ stop then some ⟨start, stop⟩ else none

def length (s : Span) : Nat := s.stop - s.start

end Span

structure SpanTable (κ : Type) where
  entries : List (κ × Span)

inductive SpanTable.Fault (κ : Type) where
  | entered (key : κ)
  | missing (key : κ)

namespace SpanTable

variable {κ : Type} [DecidableEq κ]

def Fault.message (text : κ → String) : Fault κ → String
  | entered key => "source map key already exists: " ++ text key
  | missing key => "invalid source map key: " ++ text key

def empty : SpanTable κ := ⟨[]⟩

def get? (t : SpanTable κ) (key : κ) : Option Span :=
  (t.entries.find? (decide <| ·.1 = key)).map (·.2)

def get (t : SpanTable κ) (key : κ) : Except (Fault κ) Span :=
  match t.get? key with
  | some span => .ok span
  | none => .error (.missing key)

def put (t : SpanTable κ) (key : κ) (span : Span) : Except (Fault κ) (SpanTable κ) :=
  match t.get? key with
  | some _ => .error (.entered key)
  | none => .ok ⟨t.entries ++ [(key, span)]⟩

def place (t : SpanTable κ) (key : κ) : Span := (t.get? key).getD ⟨0, 0⟩

end SpanTable
end Analog
