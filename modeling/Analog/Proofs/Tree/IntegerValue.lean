import Analog.Proofs.Tree.BuiltSummaries

/-!
The value of a tree over machine integers, given the values of what it reads. An operator takes its
result from the integers and wraps it around. A simplified operation has the value of the operation
as it was written, wherever that has one.
-/
namespace Analog

/-- What a tree reads. A branch is known by its number if it has a name, and by the nodes that it is
seen to join if it has none. -/
inductive Leaf where
  | parameter (p : Symbol)
  | variable (v : Symbol)
  | named (function : String) (b : BranchId)
  | between (function : String) (p n : NodeId)
  deriving DecidableEq

def Circuit.leaf (c : Circuit) (q : Quantity) : Leaf :=
  if (c.branch q.ref.branch).isAlias then .named q.function q.ref.branch
  else .between q.function (c.refP q.ref) (c.refN q.ref)

namespace Integer

variable {op : BinaryOp}

def bit (b : Bool) : Int64 := if b then 1 else 0

def unary (op : UnaryOp) (n : Int64) : Int64 :=
  match op with
  | .neg => .ofInt (-n.toInt)
  | .not => bit (n.toInt == 0)

def binary? (op : BinaryOp) (l r : Int64) : Option Int64 :=
  match op with
  | .add => some (.ofInt (l.toInt + r.toInt))
  | .sub => some (.ofInt (l.toInt - r.toInt))
  | .mul => some (.ofInt (l.toInt * r.toInt))
  | .div => if r.toInt = 0 then none else some (.ofInt (l.toInt.tdiv r.toInt))
  | .mod => if r.toInt = 0 then none else some (.ofInt (l.toInt.tmod r.toInt))
  | .pow => if 0 ≤ r.toInt ∧ r.toInt ≤ 63 then some (.ofInt (l.toInt ^ r.toInt.toNat)) else none
  | .eq => some (bit (l.toInt == r.toInt))
  | .ne => some (bit (l.toInt != r.toInt))
  | .lt => some (bit (l.toInt < r.toInt))
  | .le => some (bit (l.toInt ≤ r.toInt))
  | .gt => some (bit (r.toInt < l.toInt))
  | .ge => some (bit (r.toInt ≤ l.toInt))
  | .and => some (bit (l.toInt != 0 && r.toInt != 0))
  | .or => some (bit (l.toInt != 0 || r.toInt != 0))

theorem toInt_eq_zero {n : Int64} : n.toInt = 0 ↔ n = 0 := Int64.toInt_inj (y := 0)

theorem toInt_beq (l r : Int64) : (l.toInt == r.toInt) = (l == r) := by
  rw [Bool.eq_iff_iff, beq_iff_eq, beq_iff_eq, Int64.toInt_inj]

theorem ofInt_tdiv (l r : Int64) : Int64.ofInt (l.toInt.tdiv r.toInt) = l / r := by
  rw [Int64.ofInt_tdiv l.minValue_le_toInt l.toInt_le r.minValue_le_toInt r.toInt_le,
    Int64.ofInt_toInt, Int64.ofInt_toInt]

theorem ofInt_tmod (l r : Int64) : Int64.ofInt (l.toInt.tmod r.toInt) = l % r := by
  rw [Int64.ofInt_tmod l.minValue_le_toInt l.toInt_le r.minValue_le_toInt r.toInt_le,
    Int64.ofInt_toInt, Int64.ofInt_toInt]

theorem ofInt_power (l : Int64) (n : Nat) : Int64.ofInt (l.toInt ^ n) = Arithmetic.power l n := by
  induction n with
  | zero => rw [Int.pow_zero]; rfl
  | succ n ih => rw [Int.pow_succ, Int64.ofInt_mul, ih, Int64.ofInt_toInt, Arithmetic.power]

theorem foldInt?_eq (l r : Int64) (arithmetic : op ≠ .and ∧ op ≠ .or) :
    Value.foldInt? op l r = binary? op l r := by
  cases op with
  | add => simp only [Value.foldInt?, binary?, Int64.ofInt_add, Int64.ofInt_toInt]
  | sub => simp only [Value.foldInt?, binary?, Int64.ofInt_sub, Int64.ofInt_toInt]
  | mul => simp only [Value.foldInt?, binary?, Int64.ofInt_mul, Int64.ofInt_toInt]
  | div => simp only [Value.foldInt?, binary?, toInt_eq_zero, ofInt_tdiv, beq_iff_eq]
  | mod => simp only [Value.foldInt?, binary?, toInt_eq_zero, ofInt_tmod, beq_iff_eq]
  | pow =>
    have zero : (0 : Int64).toInt = 0 := rfl
    have top : (63 : Int64).toInt = 63 := rfl
    simp only [Value.foldInt?, binary?, ofInt_power, Bool.or_eq_true, decide_eq_true_eq,
      Int64.lt_iff_toInt_lt, zero, top]
    split
    · rw [if_neg (by omega)]
    · rw [if_pos (by omega)]
  | eq => simp only [Value.foldInt?, binary?, toInt_beq, bit]
  | ne => simp only [Value.foldInt?, binary?, bne, toInt_beq, bit]
  | lt => simp only [Value.foldInt?, binary?, Int64.lt_iff_toInt_lt, bit]
  | le => simp only [Value.foldInt?, binary?, Int64.le_iff_toInt_le, bit]
  | gt => simp only [Value.foldInt?, binary?, Int64.lt_iff_toInt_lt, bit]
  | ge => simp only [Value.foldInt?, binary?, Int64.le_iff_toInt_le, bit]
  | and => exact absurd rfl arithmetic.1
  | or => exact absurd rfl arithmetic.2

theorem truth?_int (n : Int64) : (Value.int n).truth? = some (n.toInt != 0) := by
  rw [Value.truth?, bne, bne, ← toInt_beq]
  rfl

theorem fold_int {l r n : Int64} (h : binary? op l r = some n) :
    Value.fold op (.int l) (.int r) = .ok (.int n) := by
  cases op with
  | and | or =>
    cases h
    simp only [Value.fold, Value.foldLogical, truth?_int]
    rfl
  | _ =>
    rw [← foldInt?_eq l r (by decide)] at h
    simp only [Value.fold, h]

theorem foldUnary_int (op : UnaryOp) (n : Int64) :
    Value.foldUnary op (.int n) = .ok (.int (unary op n)) := by
  cases op with
  | neg => rw [Value.foldUnary, unary, Int64.ofInt_neg, Int64.ofInt_toInt]
  | not =>
    simp only [Value.foldUnary, truth?_int, bne, Bool.not_not]
    rfl

theorem binary?_comm (free : op.isCommutative = true) (l r : Int64) :
    binary? op l r = binary? op r l := by
  cases op with
  | add => rw [binary?, binary?, Int.add_comm]
  | mul => rw [binary?, binary?, Int.mul_comm]
  | eq => rw [binary?, binary?, BEq.comm]
  | ne => rw [binary?, binary?, bne_comm]
  | and => rw [binary?, binary?, Bool.and_comm]
  | or => rw [binary?, binary?, Bool.or_comm]
  | _ => cases free

end Integer

def Value.integer? : Value → Option Int64
  | .int n => some n
  | _ => none

/-- The value of a tree, where it has one. Both operands of an operator are needed, but only one arm
of a choice. -/
def Tree.value? (c : Circuit) (read : Leaf → Int64) : Tree → Option Int64
  | .literal v _ => v.integer?
  | .parameter p => some (read (.parameter p))
  | .variable v _ => some (read (.variable v))
  | .access q => some (read (c.leaf q))
  | .unary op x _ => (x.value? c read).map (Integer.unary op)
  | .binary op l r _ => do Integer.binary? op (← l.value? c read) (← r.value? c read)
  | .ternary cond thn els _ => do
    if (← cond.value? c read).toInt ≠ 0 then thn.value? c read else els.value? c read
  | _ => none

namespace Simplify

variable {circuit : Circuit} {read : Leaf → Int64} {n : Int64} {op : BinaryOp} {o : Option Symbol}

theorem value?_binary {l r : Tree} {s : Summary} :
      (Tree.binary op l r s).value? circuit read = some n ↔
      ∃ a b, l.value? circuit read = some a ∧ r.value? circuit read = some b ∧
      Integer.binary? op a b = some n := by
  simp only [Tree.value?, Option.bind_eq_bind, Option.bind_eq_some_iff]
  constructor
  · rintro ⟨a, left, b, right, value⟩
    exact ⟨a, b, left, right, value⟩
  · rintro ⟨a, b, left, right, value⟩
    exact ⟨a, left, b, right, value⟩

theorem integer?_eq_some {v : Value} : v.integer? = some n ↔ v = .int n := by
  cases v with
  | int m => simp only [Value.integer?, Option.some.injEq, Value.int.injEq]
  | real x | str bytes => simp only [Value.integer?, reduceCtorEq]

theorem value?_onLiteral {x : Tree} {c : Value} {s : Summary}
    (h : (Tree.binary op x (.literal c o) s).value? circuit read = some n) :
    ∃ a k, x.value? circuit read = some a ∧ c = .int k ∧ Integer.binary? op a k = some n := by
  obtain ⟨a, k, left, right, value⟩ := value?_binary.mp h
  exact ⟨a, k, left, integer?_eq_some.mp right, value⟩

theorem value?_unary (op : UnaryOp) (x : Tree)
    (h : (plainUnary op x).value? circuit read = some n) :
    (unary op x).value? circuit read = some n := by
  unfold unary
  split
  · rename_i v o
    obtain ⟨k, known, rfl⟩ := Option.map_eq_some_iff.mp h
    cases integer?_eq_some.mp known
    rw [Integer.foldUnary_int]
    rfl
  · rename_i y s
    obtain ⟨k, known, rfl⟩ := Option.map_eq_some_iff.mp h
    obtain ⟨m, value, rfl⟩ := Option.map_eq_some_iff.mp known
    rw [value, Integer.unary, Integer.unary]
    simp only [Int64.ofInt_neg, Int64.ofInt_toInt, Int64.neg_neg]
  · exact h

theorem value?_identity? {x : Tree} {c : Value} {s : Simplified}
    (found : identity? op x c o = some s)
    (h : (plainBinary op x (.literal c o)).value? circuit read = some n) :
    s.tree.value? circuit read = some n := by
  obtain ⟨a, k, left, rfl, value⟩ := value?_onLiteral h
  unfold identity? at found
  simp only [Value.isZero, Value.isOne, Bool.and_eq_true, beq_iff_eq] at found
  split at found
  · rename_i product
    obtain ⟨rfl, rfl⟩ := product
    cases found
    rw [← value]
    simp only [Integer.binary?, Int64.ofInt_mul, Int64.ofInt_toInt, Int64.mul_zero]
    rfl
  split at found
  · rename_i both
    obtain ⟨rfl, rfl⟩ := both
    cases found
    rw [← value, Integer.binary?, show (0 : Int64).toInt = 0 from rfl, bne_self_eq_false,
      Bool.and_false]
    rfl
  split at found
  · rename_i factor
    obtain ⟨multiplicative, rfl⟩ := factor
    cases found
    rw [left, ← value]
    simp only [BinaryOp.isMultiplicative, Bool.or_eq_true, beq_iff_eq] at multiplicative
    rcases multiplicative with rfl | rfl
    · simp only [Integer.binary?, Int64.ofInt_mul, Int64.ofInt_toInt, Int64.mul_one]
    · rw [Integer.binary?, Integer.ofInt_tdiv, Int64.div_one]
      rfl
  split at found
  · rename_i term
    obtain ⟨additive, rfl⟩ := term
    cases found
    rw [left, ← value]
    simp only [BinaryOp.isAdditive, Bool.or_eq_true, beq_iff_eq] at additive
    rcases additive with rfl | rfl
    · simp only [Integer.binary?, Int64.ofInt_add, Int64.ofInt_toInt, Int64.add_zero]
    · simp only [Integer.binary?, Int64.ofInt_sub, Int64.ofInt_toInt, Int64.sub_zero]
  · cases found

theorem binary?_gather? {outer inner joint : BinaryOp} {k₁ k₂ a b : Int64}
    (found : gather? outer inner (.int k₁) (.int k₂) = some joint)
    (first : Integer.binary? inner a k₁ = some b) (second : Integer.binary? outer b k₂ = some n) :
    ∃ k, Integer.binary? joint k₁ k₂ = some k ∧ Integer.binary? inner a k = some n := by
  unfold gather? at found
  split at found
  · rename_i additive
    simp only [BinaryOp.isAdditive, Bool.and_eq_true, Bool.or_eq_true, beq_iff_eq] at additive
    obtain ⟨rfl | rfl, rfl | rfl⟩ := additive
    all_goals
      cases found
      cases first
      cases second
      refine ⟨_, rfl, ?_⟩
      simp only [Integer.binary?, Int64.ofInt_add, Int64.ofInt_sub, Int64.ofInt_toInt,
        Option.some.injEq]
      grind
  split at found
  · rename_i multiplicative
    simp only [BinaryOp.isMultiplicative, Bool.and_eq_true, Bool.or_eq_true, beq_iff_eq]
      at multiplicative
    obtain ⟨rfl | rfl, rfl | rfl⟩ := multiplicative
    · cases found
      cases first
      cases second
      refine ⟨_, rfl, ?_⟩
      simp only [Integer.binary?, Int64.ofInt_mul, Int64.ofInt_toInt, Int64.mul_assoc]
    -- A quotient is never gathered between integers.
    · cases found
    · cases found
    · cases found
  · cases found

theorem value?_literals (op : BinaryOp) (v : Value) (p : Option Symbol) (c : Value)
    (o : Option Symbol)
    (h : (plainBinary op (.literal v p) (.literal c o)).value? circuit read = some n) :
    (literals op v p c o).value? circuit read = some n := by
  obtain ⟨a, k, left, rfl, value⟩ := value?_onLiteral h
  cases integer?_eq_some.mp left
  rw [literals, Integer.fold_int value]
  rfl

theorem value?_rightLiteral (op : BinaryOp) (x : Tree) (c : Value) (o : Option Symbol)
    (h : (plainBinary op x (.literal c o)).value? circuit read = some n) :
    (rightLiteral op x c o).tree.value? circuit read = some n := by
  fun_induction rightLiteral op x c o with
  | case1 op c o v p => exact value?_literals op v p c o h
  | case2 op c o inner y c₁ o₁ s whole t found => exact value?_identity? found h
  | case3 => exact h
  | case4 op c o inner y c₁ o₁ s whole _ joint gathered folded fold ih =>
    obtain ⟨b, k₂, left, rfl, second⟩ := value?_onLiteral h
    obtain ⟨a, k₁, value, rfl, first⟩ := value?_onLiteral left
    obtain ⟨k, together, last⟩ := binary?_gather? gathered first second
    rw [Integer.fold_int together] at fold
    cases fold
    exact ih (value?_binary.mpr ⟨a, k, value, rfl, last⟩)
  | case5 => exact h
  | case6 op c o x =>
    cases found : identity? op x c o with
    | none => exact h
    | some t => exact value?_identity? found h

theorem value?_simplified (op : BinaryOp) (l r : Tree)
    (h : (plainBinary op l r).value? circuit read = some n) :
    (binary op l r).tree.value? circuit read = some n := by
  unfold binary
  split
  · exact value?_rightLiteral op l _ _ h
  · split
    · rename_i free
      obtain ⟨a, b, left, right, value⟩ := value?_binary.mp h
      rw [Integer.binary?_comm free] at value
      exact value?_rightLiteral op _ _ _ (value?_binary.mpr ⟨b, a, right, left, value⟩)
    · exact h
  · exact h

end Simplify

def Tree.Scalar : Tree → Prop
  | .unary _ x _ => x.Scalar
  | .binary _ l r _ => l.Scalar ∧ r.Scalar
  | .ternary c t e _ => c.Scalar ∧ t.Scalar ∧ e.Scalar
  | .node _ | .port _ | .arguments _ | .marker | .deferred _ => False
  | _ => True

namespace Simplify

theorem scalar_unary (op : UnaryOp) {x : Tree} (h : x.Scalar) : (unary op x).Scalar := by
  unfold unary
  split
  · split
    · trivial
    · exact h
  · exact h
  · exact h

theorem preserved_scalar : Preserved Tree.Scalar where
  folded _ := trivial
  plain _ _ _ left right _ := ⟨left, right⟩
  left _ _ _ _ h := h.1

theorem scalar_binary (op : BinaryOp) {l r : Tree} (left : l.Scalar) (right : r.Scalar) :
    (binary op l r).tree.Scalar := preserved_scalar.binary op left right

end Simplify
end Analog
