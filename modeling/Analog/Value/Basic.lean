import Analog.Decimal.Format
import Analog.Text.Quoted

/-!
Values that are known before simulation: machine integers, doubles and byte strings.
-/
namespace Analog

inductive Value where
  | int (n : Int64)
  | real (x : Float)
  | str (bytes : Text.Bytes)
  deriving DecidableEq

namespace Value

def text : Value → String
  | int n => toString n.toInt
  | real x => Decimal.realText x
  | str bytes => Text.quote bytes

def isZero : Value → Bool
  | int n => n == 0
  | real x => x == 0
  | str _ => false

def isOne : Value → Bool
  | int n => n == 1
  | real x => x == 1
  | str _ => false

def isReal : Value → Bool
  | real _ => true
  | _ => false

def isNumber : Value → Bool
  | str _ => false
  | _ => true

/-- A number is true when it is not zero; a string is neither. -/
def truth? : Value → Option Bool
  | int n => some (n != 0)
  | real x => some (x != 0)
  | str _ => none

def toReal? : Value → Option Float
  | int n => some n.toFloat
  | real x => some x
  | str _ => none

def ofBool (b : Bool) : Value := int (if b then 1 else 0)

end Value
end Analog
