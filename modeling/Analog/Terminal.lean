/-!
Colours on a terminal, as escape sequences.
-/
namespace Analog.Terminal

structure Escape where
  text : String
  count : Nat
  deriving DecidableEq, Repr

def Escape.reset : Escape := ⟨"\x1b[0", 1⟩

def Escape.bold : Escape := ⟨"\x1b[1", 1⟩

def Escape.foreground (e : Escape) (colour : Nat) : Escape :=
  let separator := if e.count == 0 then "[" else ";"
  ⟨e.text ++ separator ++ toString (colour + 30), e.count + 1⟩

def Escape.build (e : Escape) : String := e.text ++ "m"

def red : Nat := 1

def highlight (text : String) (colour : Nat) (enabled : Bool) : String :=
  if enabled then (Escape.bold.foreground colour).build ++ text ++ Escape.reset.build else text

end Analog.Terminal
