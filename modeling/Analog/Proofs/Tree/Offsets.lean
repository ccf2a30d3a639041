import Analog.Proofs.Tree.Operands

/-!
What a summary says of offsets holds. Trees take values over the rationals: a zero divisor gives way
to any other, and parameters, functions, strings and truth values may be anything. A tree without an
offset takes zero and nothing else where all that it reads is zero.
-/
namespace Analog

/-- The quantities of a circuit and the variables at one moment. -/
structure Point where
  circuit : Circuit
  probe : Probe → ℚ
  memory : VariableId → ℚ

def Point.quantity (x : Point) (q : Quantity) : ℚ :=
  if q.ref.reversed == (x.circuit.branch q.ref.branch).reversed then x.probe q.probe
    else -x.probe q.probe

namespace Tree

/-- The values that a tree can take at a point. -/
inductive Takes (x : Point) : Tree → ℚ → Prop
  | integer (n : Int64) (o : Option Symbol) : Takes x (.literal (.int n) o) n.toInt
  | string (bytes : Text.Bytes) (o : Option Symbol) (a : ℚ) (nonzero : a ≠ 0) :
    Takes x (.literal (.str bytes) o) a
  | parameter (p : Symbol) (a : ℚ) : Takes x (.parameter p) a
  | variable (v : Symbol) (s : Summary) : Takes x (.variable v s) (x.memory v.id)
  | access (q : Quantity) : Takes x (.access q) (x.quantity q)
  | neg {t : Tree} {s : Summary} {a : ℚ} (operand : Takes x t a) : Takes x (.unary .neg t s) (-a)
  | not (t : Tree) (s : Summary) (a : ℚ) : Takes x (.unary .not t s) a
  | add {l r : Tree} {s : Summary} {a b : ℚ} (left : Takes x l a) (right : Takes x r b) :
    Takes x (.binary .add l r s) (a + b)
  | sub {l r : Tree} {s : Summary} {a b : ℚ} (left : Takes x l a) (right : Takes x r b) :
    Takes x (.binary .sub l r s) (a - b)
  | mul {l r : Tree} {s : Summary} {a b : ℚ} (left : Takes x l a) (right : Takes x r b) :
    Takes x (.binary .mul l r s) (a * b)
  | div {l r : Tree} {s : Summary} {a b c : ℚ} (left : Takes x l a) (right : Takes x r b)
    (nonzero : c ≠ 0) (same : b ≠ 0 → c = b) : Takes x (.binary .div l r s) (a / c)
  | other {op : BinaryOp} (l r : Tree) (s : Summary) (a : ℚ) (sum : op.isAdditive = false)
    (product : op.isMultiplicative = false) : Takes x (.binary op l r s) a
  | thn {c t e : Tree} {s : Summary} {a b : ℚ} (cond : Takes x c b) (holds : b ≠ 0)
    (arm : Takes x t a) :
    Takes x (.ternary c t e s) a
  | els {c t e : Tree} {s : Summary} {a : ℚ} (cond : Takes x c 0) (arm : Takes x e a) :
    Takes x (.ternary c t e s) a
  | filter (f : String) (args : List Tree) (b : BranchId) (s : Summary) :
    Takes x (.call f args (some b) s) (x.probe ⟨b, .potential⟩)
  | function (f : String) (args : List Tree) (s : Summary) (a : ℚ) : Takes x (.call f args none s) a

/-- A literal is an integer or a string. -/
def isWhole : Tree → Bool
  | .literal v _ => !v.isReal
  | _ => true

/-- A variable that is read without an offset is zero. -/
def isCleared (x : Point) : Tree → Bool
  | .variable v s => s.offset || x.memory v.id == 0
  | _ => true

variable {x : Point} {read : VariableId → Summary} {nodes : Nat}

theorem exists_takes (t : Tree) (value : t.IsValue) (applied : t.All Applied)
    (whole : t.All (isWhole ·)) (built : t.Built read nodes) : ∃ a, t.Takes x a := by
  cases t with
  | literal v o =>
    cases v with
    | int n => exact ⟨_, .integer n o⟩
    | str bytes => exact ⟨1, .string bytes o 1 one_ne_zero⟩
    | real y => cases all_literal.mp whole
  | parameter p => exact ⟨0, .parameter p 0⟩
  | «variable» v s => exact ⟨_, .variable v s⟩
  | access q => exact ⟨_, .access q⟩
  | unary op y s =>
    cases op with
    | not => exact ⟨0, .not y s 0⟩
    | neg =>
      obtain ⟨inner, here⟩ := all_unary.mp applied
      obtain ⟨a, takes⟩ := exists_takes y here inner (all_unary.mp whole).1 built.1
      exact ⟨-a, .neg takes⟩
  | binary op l r s =>
    obtain ⟨left, right, here⟩ := all_binary.mp applied
    obtain ⟨leftWhole, rightWhole, _⟩ := all_binary.mp whole
    obtain ⟨a, leftTakes⟩ := exists_takes l here.1 left leftWhole built.1
    obtain ⟨b, rightTakes⟩ := exists_takes r here.2 right rightWhole built.2.1
    cases op with
    | add => exact ⟨_, .add leftTakes rightTakes⟩
    | sub => exact ⟨_, .sub leftTakes rightTakes⟩
    | mul => exact ⟨_, .mul leftTakes rightTakes⟩
    | div =>
      by_cases zero : b = 0
      · exact ⟨_, .div leftTakes rightTakes one_ne_zero fun nonzero => absurd zero nonzero⟩
      · exact ⟨_, .div leftTakes rightTakes zero fun _ => rfl⟩
    | _ => exact ⟨0, .other l r s 0 rfl rfl⟩
  | ternary c t e s =>
    obtain ⟨cond, thn, els, here⟩ := all_ternary.mp applied
    obtain ⟨condWhole, thnWhole, elsWhole, _⟩ := all_ternary.mp whole
    obtain ⟨b, condTakes⟩ := exists_takes c here.1 cond condWhole built.1
    obtain ⟨a, thnTakes⟩ := exists_takes t here.2.1 thn thnWhole built.2.1
    obtain ⟨a', elsTakes⟩ := exists_takes e here.2.2 els elsWhole built.2.2.1
    by_cases zero : b = 0
    · subst zero
      exact ⟨a', .els condTakes elsTakes⟩
    · exact ⟨a, .thn condTakes zero thnTakes⟩
  | call f args filter s =>
    cases filter with
    | none => exact ⟨0, .function f args s 0⟩
    | some b => exact ⟨_, .filter f args b s⟩
  | declaration => exact built.elim
  | node | port | arguments | marker | deferred => cases value Circuit.empty

theorem offset_function (f : Function) (args : List Summary) : (f.summary args).offset = true := by
  unfold Function.summary
  split
  · simp [Summary.offset_combine, Summary.varying, Summary.plain]
  · rfl
  · exact Summary.offset_uniform _ _

theorem offset_ofBinary {op : BinaryOp} (sum : op.isAdditive = false)
    (product : op.isMultiplicative = false)
    (l r : Summary) : (Summary.ofBinary op l r).offset = true := by
  cases op with
  | add | sub => cases sum
  | mul | div => cases product
  | _ => exact Summary.offset_uniform _ _

theorem offset_sum {op : BinaryOp} (sum : op.isAdditive = true) {l r : Summary}
    (free : (Summary.ofBinary op l r).offset = false) : l.offset = false ∧ r.offset = false := by
  rw [Summary.ofBinary, if_pos sum, Summary.offset_combine] at free
  simpa using free

theorem eq_zero_of_takes {t : Tree} {a : ℚ} (takes : t.Takes x a) (built : t.Built read nodes)
    (free : t.summary.offset = false) (probes : ∀ q, x.probe q = 0)
    (cleared : t.All (isCleared x ·)) : a = 0 := by
  induction takes with
  | integer n o =>
    have zero : n = 0 := by simpa [summary, Summary.fixed, Summary.plain, Value.isZero] using free
    subst zero
    rfl
  | string bytes o a nonzero => cases free
  | parameter p a => cases free
  | «variable» v s =>
    have zero : (s.offset || x.memory v.id == 0) = true := cleared.self
    rw [show s.offset = false from free, Bool.false_or, beq_iff_eq] at zero
    exact zero
  | access q => simp [Point.quantity, probes]
  | neg operand ih =>
    obtain ⟨inner, rfl⟩ := built
    rw [summary, Summary.ofUnary, Summary.offset_combine] at free
    rw [ih inner (by simpa using free) (all_unary.mp cleared).1, neg_zero]
  | not t s a =>
    obtain ⟨_, rfl⟩ := built
    cases (Summary.offset_uniform .none [t.summary]).symm.trans free
  | add left right ihl ihr =>
    obtain ⟨leftBuilt, rightBuilt, rfl⟩ := built
    obtain ⟨leftCleared, rightCleared, _⟩ := all_binary.mp cleared
    obtain ⟨leftFree, rightFree⟩ := offset_sum rfl free
    rw [ihl leftBuilt leftFree leftCleared, ihr rightBuilt rightFree rightCleared, add_zero]
  | sub left right ihl ihr =>
    obtain ⟨leftBuilt, rightBuilt, rfl⟩ := built
    obtain ⟨leftCleared, rightCleared, _⟩ := all_binary.mp cleared
    obtain ⟨leftFree, rightFree⟩ := offset_sum rfl free
    rw [ihl leftBuilt leftFree leftCleared, ihr rightBuilt rightFree rightCleared, sub_zero]
  | mul left right ihl ihr =>
    -- One factor without an offset is enough.
    obtain ⟨leftBuilt, rightBuilt, rfl⟩ := built
    obtain ⟨leftCleared, rightCleared, _⟩ := all_binary.mp cleared
    rcases Bool.and_eq_false_iff.mp free with leftFree | rightFree
    · rw [ihl leftBuilt leftFree leftCleared, zero_mul]
    · rw [ihr rightBuilt rightFree rightCleared, mul_zero]
  | div left right nonzero same ihl _ =>
    obtain ⟨leftBuilt, _, rfl⟩ := built
    rw [ihl leftBuilt free (all_binary.mp cleared).1, zero_div]
  | other l r s a sum product =>
    obtain ⟨_, _, rfl⟩ := built
    cases (offset_ofBinary sum product _ _).symm.trans free
  | thn cond holds arm _ ih =>
    obtain ⟨_, thn, _, rfl⟩ := built
    exact ih thn (Bool.or_eq_false_iff.mp free).1 (all_ternary.mp cleared).2.1
  | els cond arm _ ih =>
    obtain ⟨_, _, els, rfl⟩ := built
    exact ih els (Bool.or_eq_false_iff.mp free).2 (all_ternary.mp cleared).2.2.1
  | filter f args b s => exact probes _
  | function name args s a =>
    obtain ⟨_, f, _, rfl, _⟩ := built
    cases (offset_function f _).symm.trans free

end Tree

namespace Source

variable {r : Resolver} {s : Source} {scope : ScopeId} {t : Tree} {d d₁ : Design}

/-- The offset flag is sound: a resolved tree without an offset takes zero, and no other value,
where all quantities are zero and all variables that it reads without an offset. -/
theorem takes_zero_without_offset (wf : d.WellFormed) (run : s.resolve r scope d = .ok t d₁)
    (whole : t.All (Tree.isWhole ·)) (free : t.summary.offset = false) {x : Point}
    (probes : ∀ q, x.probe q = 0) (cleared : t.All (Tree.isCleared x ·)) (a : ℚ) :
    t.Takes x a ↔ a = 0 := by
  obtain ⟨value, applied, built⟩ := resolved_tree wf run
  have only : ∀ b, t.Takes x b → b = 0 :=
    fun b takes => Tree.eq_zero_of_takes takes built free probes cleared
  obtain ⟨b, takes⟩ := Tree.exists_takes (x := x) t value applied whole built
  constructor
  · exact only a
  · rintro rfl
    rwa [only b takes] at takes

def sampled : Design where
  circuit := ⟨#[⟨groundName, none⟩, ⟨"p", none⟩, ⟨"n", none⟩, ⟨"ddt$0", none⟩],
    #[.plain 1 2, { Branch.plain 2 1 with name := "back", base := some 0, reversed := true },
      .plain 3 0], 1⟩
  scopes := #[⟨[], [("p", .port 1), ("n", .port 2), ("back", .branch 1), ("x", .variable 0),
    ("y", .variable 1)], .always, ""⟩]
  parameters := #[]
  vars := #[⟨"x", .real, .varying, .empty⟩, .ofType "y" .real]
  filters := [(⟨0, 0, [12]⟩, 2)]
  expressions := 1

theorem wellFormed_sampled : sampled.WellFormed where
  circuit := by
    refine ⟨by decide, ?_⟩
    intro b base known
    match b with
    | 0 => cases known
    | 1 =>
      cases known
      decide
    | 2 => cases known
    | b + 3 => cases known
  filters := by decide
  bindings
    | 0 => by decide
    | s + 1 => by simp [sampled, Design.scopeOf, default, Scope.inside]
  summaries
    | 0 => by decide
    | 1 => by decide
    | v + 2 => by
      simp [sampled, Design.variableOf, default, Variable.ofType, Summary.fixed, Summary.plain,
        EdgeSet.empty, EdgeSet.probes]

def sampledReading : Source where
  raw := [.identifier "x", .marker, .identifier "back", .arguments, .identifier "V", .binary .mul,
    .marker, .marker, .identifier "back", .arguments, .identifier "V", .arguments,
      .identifier "ddt",
    .identifier "y", .binary .div, .binary .sub, .identifier "y", .binary .add]
  key := 0

def sampledPoint : Point := ⟨sampled.circuit, fun _ => 0, fun v => if v = 0 then 7 else 0⟩

theorem takes_zero_without_offset_sampled : sampled.WellFormed ∧
    ∃ t d₁, sampledReading.resolve ⟨.default, 0⟩ 0 sampled = .ok t d₁ ∧ t.All (Tree.isWhole ·) ∧
      t.summary.offset = false ∧ t.All (Tree.isCleared sampledPoint ·) ∧
      ∀ a, t.Takes sampledPoint a ↔ a = 0 := by
  have made : ∃ t d₁, sampledReading.resolve ⟨.default, 0⟩ 0 sampled = .ok t d₁ ∧
      (∀ u ∈ t.parts, u.isWhole) ∧ t.summary.offset = false ∧
      ∀ u ∈ t.parts, u.isCleared sampledPoint :=
    ⟨_, _, rfl, by decide +kernel, rfl, by decide +kernel⟩
  obtain ⟨t, d₁, run, whole, free, cleared⟩ := made
  exact ⟨wellFormed_sampled, t, d₁, run, whole, free, cleared,
    takes_zero_without_offset wellFormed_sampled run whole free (fun _ => rfl) cleared⟩

end Source
end Analog
