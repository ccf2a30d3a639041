import Mathlib
import Analog.Proofs.Tree.IntegerValue

/-!
The value of sums and products over the rationals, where nothing wraps around. Gathering the
literals of a chain joins them as machine integers; that keeps the value as long as what they come
to is a machine integer, and only then.
-/
namespace Analog

/-- The integers that a machine integer holds. -/
def InRange (n : ℤ) : Prop := -2 ^ 63 ≤ n ∧ n < 2 ^ 63

theorem toInt_ofInt_of_inRange {n : ℤ} (h : InRange n) : (Int64.ofInt n).toInt = n :=
  Int64.toInt_ofInt_of_le h.1 h.2

theorem inRange_toInt (n : Int64) : InRange n.toInt := ⟨n.le_toInt, n.toInt_lt⟩

namespace BinaryOp

def isPolynomial (op : BinaryOp) : Bool := op.isAdditive || op == .mul

/-- A sum, a difference or a product. -/
def eval {R : Type} [Ring R] (op : BinaryOp) (a b : R) : R :=
  match op with
  | .mul => a * b
  | .sub => a - b
  | _ => a + b

/-- Two operators that make a chain of sums, or of products. -/
def isKin (outer inner : BinaryOp) : Bool :=
  outer.isAdditive && inner.isAdditive || outer == .mul && inner == .mul

/-- The operator that joins the literals of `(y inner k) outer e`. -/
def joint (outer inner : BinaryOp) : BinaryOp :=
  if outer == .mul then .mul else if outer == inner then .add else .sub

variable {outer inner op : BinaryOp}

theorem eval_joint {R : Type} [CommRing R] (kin : outer.isKin inner = true) (y k e : R) :
    inner.eval y ((outer.joint inner).eval k e) = outer.eval (inner.eval y k) e := by
  cases outer <;> cases inner <;> cases kin <;> simp [joint, eval] <;> ring

theorem cast_eval (a b : ℤ) : ((op.eval a b : ℤ) : ℚ) = op.eval (a : ℚ) (b : ℚ) := by
  unfold eval
  split <;> push_cast <;> rfl

theorem gather?_of_kin (kin : outer.isKin inner = true) (a b : Int64) :
    Simplify.gather? outer inner (.int a) (.int b) = some (outer.joint inner) := by
  cases outer <;> cases inner <;> cases kin <;> rfl

theorem gather?_of_not_kin (polynomial : outer.isPolynomial = true)
    (other : outer.isKin inner = false) (v : Value)
    (n : Int64) : Simplify.gather? outer inner v (.int n) = none := by
  cases outer <;> cases polynomial <;> cases inner <;> cases other <;>
    simp [Simplify.gather?, isAdditive, isMultiplicative, Value.isReal]

theorem isPolynomial_of_kin (kin : outer.isKin inner = true) :
    outer.isPolynomial = true ∧ inner.isPolynomial = true ∧
    (outer.joint inner).isPolynomial = true := by
  cases outer <;> cases inner <;> cases kin <;> exact ⟨rfl, rfl, rfl⟩

theorem fold_ofInt (polynomial : op.isPolynomial = true) (k : Int64) (e : ℤ) :
    Value.fold op (.int k) (.int (.ofInt e)) = .ok (.int (.ofInt (op.eval k.toInt e))) := by
  cases op <;> cases polynomial <;>
    simp [Value.fold, Value.foldInt?, eval, Int64.ofInt_add, Int64.ofInt_sub, Int64.ofInt_mul]

end BinaryOp

/-- The value of a tree over the rationals. What is neither an integer literal nor a sum, difference
or product is read as a whole. -/
def Tree.exact (read : Tree → ℚ) : Tree → ℚ
  | .literal (.int n) _ => n.toInt
  | .binary op l r s =>
    if op.isPolynomial then op.eval (l.exact read) (r.exact read) else read (.binary op l r s)
  | t => read t

/-- Neither a literal nor an operation on two operands. -/
def Tree.isAtom : Tree → Bool
  | .literal .. | .binary .. => false
  | _ => true

namespace Simplify

/-- A literal on the right that vanishes, or that all else vanishes beside. -/
def settles (op : BinaryOp) (n : Int64) : Bool := n == 0 || op == .mul && n == 1

/-- What the literals come to that are gathered from `x op e`, in exact arithmetic, is a machine
integer; they are integers all. -/
def Fits (op : BinaryOp) : Tree → ℤ → Prop
  | .literal (.int v) _, e => InRange (op.eval v.toInt e)
  | .literal _ _, _ => False
  | .binary inner y (.literal v _) _, e =>
    if settles op (.ofInt e) || !op.isKin inner then InRange e
    else match v with
      | .int k => Fits inner y ((op.joint inner).eval k.toInt e)
      | _ => False
  | _, e => InRange e

variable {read : Tree → ℚ} {op : BinaryOp} {e : ℤ} {x : Tree} {o : Option Symbol}

theorem exact_plain (polynomial : op.isPolynomial = true) (n : Int64) :
    (plainBinary op x (.literal (.int n) o)).exact read = op.eval (x.exact read) (n.toInt : ℚ) := by
  simp [plainBinary, Tree.exact, polynomial]

theorem exact_identity? (polynomial : op.isPolynomial = true) (range : InRange e) {s : Simplified}
    (found : identity? op x (.int (.ofInt e)) o = some s) :
    s.tree.exact read = op.eval (x.exact read) (e : ℚ) := by
  have known {n : Int64} (same : Int64.ofInt e = n) : e = n.toInt := by
    rw [← same, toInt_ofInt_of_inRange range]
  unfold identity? at found
  simp only [Value.isZero, Value.isOne, Bool.and_eq_true, beq_iff_eq] at found
  split at found
  · rename_i product
    cases found
    rw [product.1, known product.2]
    simp [Tree.exact, BinaryOp.eval]
  split at found
  · rename_i both
    rw [both.1] at polynomial
    cases polynomial
  split at found
  · rename_i factor
    cases found
    rw [known factor.2]
    cases op <;> cases factor.1 <;> cases polynomial
    simp [BinaryOp.eval]
  split at found
  · rename_i term
    cases found
    rw [known term.2]
    cases op <;> cases term.1 <;> simp [BinaryOp.eval]
  · cases found

theorem isSome_identity? (polynomial : op.isPolynomial = true) (x : Tree) (n : Int64)
    (o : Option Symbol) : (identity? op x (.int n) o).isSome = settles op n := by
  unfold identity? settles
  cases op <;> cases polynomial <;> by_cases zero : n = 0 <;> by_cases one : n = 1 <;>
    simp [zero, one, Value.isZero, Value.isOne, BinaryOp.isMultiplicative, BinaryOp.isAdditive]

theorem rightLiteral_join {inner : BinaryOp} {y : Tree} {k : Int64} {p : Option Symbol}
    {s : Summary}
    (idle : settles op (.ofInt e) = false) (kin : op.isKin inner = true) (o : Option Symbol) :
    rightLiteral op (.binary inner y (.literal (.int k) p) s) (.int (.ofInt e)) o =
      rightLiteral inner y (.int (.ofInt ((op.joint inner).eval k.toInt e))) none := by
  obtain ⟨outer, _, joint⟩ := BinaryOp.isPolynomial_of_kin kin
  have none (x : Tree) : identity? op x (.int (.ofInt e)) o = none := by
    rw [← Option.not_isSome_iff_eq_none, isSome_identity? outer, idle]
    decide
  have fold := BinaryOp.fold_ofInt joint k e
  rw [rightLiteral]
  simp only [none, BinaryOp.gather?_of_kin kin, fold]

theorem exact_rightLiteral (x : Tree) (polynomial : op.isPolynomial = true) (fits : Fits op x e)
    (o : Option Symbol) :
    (rightLiteral op x (.int (.ofInt e)) o).tree.exact read = op.eval (x.exact read) (e : ℚ) := by
  fun_induction Fits op x e generalizing o with
  | case1 op v p e =>
    have fold := BinaryOp.fold_ofInt polynomial v e
    simp only [rightLiteral, literals, fold, Tree.ofValue, Tree.exact, toInt_ofInt_of_inRange fits,
      BinaryOp.cast_eval]
  | case2 => cases fits
  | case3 op inner y v p s e stop =>
    rw [rightLiteral]
    split
    · rename_i found
      exact exact_identity? polynomial fits found
    · rename_i none
      rw [← Option.not_isSome_iff_eq_none, isSome_identity? polynomial] at none
      have other : op.isKin inner = false := by simp_all
      rw [BinaryOp.gather?_of_not_kin polynomial other, exact_plain polynomial,
        toInt_ofInt_of_inRange fits]
  | case4 op inner y p s e join k ih =>
    simp only [Bool.or_eq_true, Bool.not_eq_true', not_or, Bool.not_eq_true,
      Bool.not_eq_false] at join
    obtain ⟨-, inner', -⟩ := BinaryOp.isPolynomial_of_kin join.2
    rw [rightLiteral_join join.1 join.2, ih inner' fits none, BinaryOp.cast_eval,
      BinaryOp.eval_joint join.2]
    simp [Tree.exact, inner']
  | case5 => cases fits
  | case6 x op e _ literal chain =>
    rw [rightLiteral_other op _ o literal chain]
    cases found : identity? op x (.int (.ofInt e)) o with
    | none => rw [Option.getD_none, exact_plain polynomial, toInt_ofInt_of_inRange fits]
    | some s => exact exact_identity? polynomial fits found

theorem fits_atom {y : Tree} (atom : y.isAtom = true) : Fits op y e ↔ InRange e := by
  cases y <;> cases atom <;> rfl

theorem exact_atom {y : Tree} (atom : y.isAtom = true) : y.exact read = read y := by
  cases y <;> cases atom <;> rfl

theorem exact_binary {x : Tree} {n : Int64} {o : Option Symbol}
    (polynomial : op.isPolynomial = true) (fits : Fits op x n.toInt) :
    (binary op x (.literal (.int n) o)).tree.exact read = op.eval (x.exact read) (n.toInt : ℚ) := by
  rw [← exact_rightLiteral x polynomial fits o, Int64.ofInt_toInt]
  rfl

section Chain

variable {op₁ op₂ : BinaryOp} {y : Tree} {c₁ c₂ : Int64} {o₁ o₂ : Option Symbol}

theorem inRange_of_settles (kin : op₂.isKin op₁ = true) (settled : settles op₂ c₂ = true) :
    InRange ((op₂.joint op₁).eval c₁.toInt c₂.toInt) := by
  have range := inRange_toInt c₁
  simp only [settles, Bool.or_eq_true, beq_iff_eq, Bool.and_eq_true] at settled
  rcases settled with rfl | ⟨rfl, rfl⟩
  · cases op₂ <;> cases op₁ <;> cases kin <;> simp_all [BinaryOp.joint, BinaryOp.eval, InRange]
  · simp_all [BinaryOp.joint, BinaryOp.eval]

theorem fits_of_inRange (atom : y.isAtom = true)
    (range : InRange ((op₂.joint op₁).eval c₁.toInt c₂.toInt)) :
    Fits op₂ (plainBinary op₁ y (.literal (.int c₁) o₁)) c₂.toInt := by
  rw [plainBinary, Fits]
  split
  · exact inRange_toInt c₂
  · exact (fits_atom atom).mpr range

theorem inRange_of_exact (kin : op₂.isKin op₁ = true) (atom : y.isAtom = true)
    (same : (binary op₂ (plainBinary op₁ y (.literal (.int c₁) o₁))
      (.literal (.int c₂) o₂)).tree.exact (fun _ => 1) =
      op₂.eval (op₁.eval 1 (c₁.toInt : ℚ)) (c₂.toInt : ℚ)) : InRange
      ((op₂.joint op₁).eval c₁.toInt c₂.toInt) := by
  by_cases settled : settles op₂ c₂ = true
  · exact inRange_of_settles kin settled
  · obtain ⟨-, inner, -⟩ := BinaryOp.isPolynomial_of_kin kin
    have joined : (binary op₂ (plainBinary op₁ y (.literal (.int c₁) o₁))
        (.literal (.int c₂) o₂)).tree =
        (binary op₁ y (.literal (.int (.ofInt ((op₂.joint op₁).eval c₁.toInt c₂.toInt)))
          none)).tree := by
      have idle : settles op₂ (.ofInt c₂.toInt) = false := by simpa using settled
      have join := rightLiteral_join (y := y) (k := c₁) (p := o₁)
        (s := .ofBinary op₁ y.summary (Tree.literal (.int c₁) o₁).summary) idle kin o₂
      rw [Int64.ofInt_toInt] at join
      exact congrArg Simplified.tree join
    rw [joined, exact_binary inner ((fits_atom atom).mpr (inRange_toInt _)), exact_atom atom,
      ← BinaryOp.eval_joint kin, ← BinaryOp.cast_eval] at same
    have equal : (Int64.ofInt ((op₂.joint op₁).eval c₁.toInt c₂.toInt)).toInt =
        (op₂.joint op₁).eval c₁.toInt c₂.toInt := by
      cases op₁ <;> cases inner <;> simpa [BinaryOp.eval] using same
    exact equal ▸ inRange_toInt _

/-- Gathering the literals of a chain keeps its value over the rationals, whatever the rest of the
chain reads, if they come to a machine integer in exact arithmetic; beside an atom, only then. -/
theorem gathering_exact_iff_inRange (kin : op₂.isKin op₁ = true) (y : Tree) (c₁ c₂ : Int64)
    (o₁ o₂ : Option Symbol) :
    (Fits op₂ (plainBinary op₁ y (.literal (.int c₁) o₁)) c₂.toInt → ∀ read,
      (binary op₂ (plainBinary op₁ y (.literal (.int c₁) o₁)) (.literal (.int c₂) o₂)).tree.exact
        read = op₂.eval (op₁.eval (y.exact read) (c₁.toInt : ℚ)) (c₂.toInt : ℚ)) ∧
    (Fits op₁ y c₁.toInt → Fits op₂ (binary op₁ y (.literal (.int c₁) o₁)).tree c₂.toInt → ∀ read,
      (binary op₂ (binary op₁ y (.literal (.int c₁) o₁)).tree (.literal (.int c₂) o₂)).tree.exact
        read = op₂.eval (op₁.eval (y.exact read) (c₁.toInt : ℚ)) (c₂.toInt : ℚ)) ∧
    (y.isAtom = true → ((∀ read,
      (binary op₂ (plainBinary op₁ y (.literal (.int c₁) o₁)) (.literal (.int c₂) o₂)).tree.exact
        read = op₂.eval (op₁.eval (y.exact read) (c₁.toInt : ℚ)) (c₂.toInt : ℚ)) ↔
      InRange ((op₂.joint op₁).eval c₁.toInt c₂.toInt))) := by
  obtain ⟨outer, inner, -⟩ := BinaryOp.isPolynomial_of_kin kin
  refine ⟨fun fits read => ?_, fun first second read => ?_,
    fun atom => ⟨fun same => ?_, fun range read => ?_⟩⟩
  · rw [exact_binary outer fits, exact_plain inner]
  · rw [exact_binary outer second, exact_binary inner first]
  · exact inRange_of_exact kin atom ((same _).trans (by rw [exact_atom atom]))
  · rw [exact_binary outer (fits_of_inRange atom range), exact_plain inner]

end Chain

def gain : Tree := .parameter ⟨"gain", 0⟩

/-- The least integer, added and taken away. -/
theorem gathering_exact_iff_inRange_least : BinaryOp.isKin .sub .add = true ∧ gain.isAtom = true ∧
    InRange (Int64.minValue.toInt - Int64.minValue.toInt) ∧ ∀ read,
      (binary .sub (plainBinary .add gain (.ofValue (.int Int64.minValue)))
        (.ofValue (.int Int64.minValue))).tree.exact
        read = gain.exact read + Int64.minValue.toInt - Int64.minValue.toInt :=
  have range : InRange (Int64.minValue.toInt - Int64.minValue.toInt) := ⟨by decide, by decide⟩
  ⟨rfl, rfl, range, ((gathering_exact_iff_inRange rfl gain Int64.minValue Int64.minValue none
    none).2.2 rfl).mpr range⟩

/-- One more than the greatest machine integer is added as the least. -/
theorem sum_joined_around : (binary .add (plainBinary .add gain (.ofValue (.int Int64.maxValue)))
      (.ofValue (.int 1))).tree.exact (fun _ => 1) ≠ 1 + Int64.maxValue.toInt +
    (1 : Int64).toInt := by
  intro same
  have range := inRange_of_exact rfl rfl same
  exact absurd range.2 (by decide)

end Simplify
end Analog
