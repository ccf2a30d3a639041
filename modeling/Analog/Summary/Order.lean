/-!
How strongly a value depends on a probe. The orders form a chain from `none`, where the probe only
decides between pieces, up to `any`.
-/
namespace Analog

inductive Order where
  | none
  | linear
  | quadratic
  | any
  deriving DecidableEq, Repr

namespace Order

def all : List Order := [none, linear, quadratic, any]

def text : Order → String
  | none => "none"
  | linear => "linear"
  | quadratic => "quadratic"
  | any => "any"

def rank : Order → Nat
  | none => 0
  | linear => 1
  | quadratic => 2
  | any => 3

def le (a b : Order) : Bool := a.rank ≤ b.rank

/-- The order after a product with something that varies; a piecewise constant stays one. -/
def raise : Order → Order
  | none => none
  | linear => quadratic
  | quadratic => any
  | any => any

def join (a b : Order) : Order := if a.le b then b else a

theorem rank_le (a : Order) : a.rank ≤ 3 := by cases a <;> decide

theorem rank_injective {a b : Order} (h : a.rank = b.rank) : a = b := by
  cases a <;> cases b <;> simp_all [rank]

theorem join_comm (a b : Order) : a.join b = b.join a := by cases a <;> cases b <;> rfl

theorem join_self (a : Order) : a.join a = a := by cases a <;> rfl

theorem le_join (a b : Order) : a.le (a.join b) = true := by cases a <;> cases b <;> rfl

theorem join_eq_right {a b : Order} : a.join b = b ↔ a.le b = true := by
  cases a <;> cases b <;> decide

end Order
end Analog
