import Analog.Proofs.Statement.Positions
import Analog.Proofs.Tree.IntegerValue
import Analog.Proofs.Tree.Mentions

/-!
Running analog blocks over machine integers. Statements are run in order, by the trees that they
hold; a conditional runs the block that its condition selects. A run tells of each statement whether
it was run, and with which value. The value of a tree depends on what the tree reads.
-/
namespace Analog

/-- What does not change while the blocks run. -/
structure Setting where
  circuit : Circuit
  parameter : ParameterId → Int64
  given : ParameterId → Bool
  /-- The values of functions, where they have one. -/
  function : String → List Int64 → Option Int64
  probe : Probe → Int64

def Setting.quantity (x : Setting) (q : Quantity) : Int64 :=
  if q.ref.reversed == (x.circuit.branch q.ref.branch).reversed then x.probe q.probe
  else Integer.unary .neg (x.probe q.probe)

abbrev Memory := VariableId → Option Int64

def Memory.initial : Memory := fun _ => some 0

namespace Tree

mutual

/-- The value of a tree, where it has one. A filter is read by the potential of its branch. -/
def evaluate (x : Setting) (σ : Memory) : Tree → Option Int64
  | .literal v _ => v.integer?
  | .parameter p => some (x.parameter p.id)
  | .variable v _ => σ v.id
  | .declaration _ init => init.evaluate x σ
  | .access q => some (x.quantity q)
  | .unary op t _ => (t.evaluate x σ).map (Integer.unary op)
  | .binary op l r _ => do Integer.binary? op (← l.evaluate x σ) (← r.evaluate x σ)
  | .ternary c t e _ => do
    if (← c.evaluate x σ).toInt ≠ 0 then t.evaluate x σ else e.evaluate x σ
  | .call function args none _ =>
    match Function.find? function with
    | some f =>
      match f.role with
      | .given => (Resolve.asked args).map fun p => Integer.bit (x.given p.id)
      | _ => do x.function f.name (← evaluateAll x σ args)
    | none => none
  | .call _ _ (some b) _ => some (x.probe ⟨b, .potential⟩)
  | .node _ => none
  | .port _ => none
  | .arguments _ => none
  | .marker => none
  | .deferred _ => none

def evaluateAll (x : Setting) (σ : Memory) : List Tree → Option (List Int64)
  | [] => some []
  | t :: ts => do return (← t.evaluate x σ) :: (← evaluateAll x σ ts)

end

end Tree

/-- What is read has the same value before and after a change of the probes and the memory. -/
def Mention.Same (x : Setting) (other : Probe → Int64) (σ τ : Memory) : Mention → Prop
  | .probe q => x.probe q = other q
  | .variable v => σ v = τ v

namespace Tree

variable {x : Setting} {other : Probe → Int64} {σ τ : Memory}

mutual

theorem evaluate_congr (t : Tree) (same : ∀ y ∈ t.reads, y.Same x other σ τ) :
    t.evaluate x σ = t.evaluate { x with probe := other } τ := by
  cases t with
  | literal | parameter | node | port | marker | deferred | arguments => rfl
  | «variable» v s => exact same (.variable v.id) (List.mem_singleton_self _)
  | declaration v init => exact evaluate_congr init same
  | access q =>
    have known : x.probe q.probe = other q.probe :=
      same (.probe q.probe) (List.mem_singleton_self _)
    simp only [evaluate, Setting.quantity, known]
  | unary op t s => simp only [evaluate, evaluate_congr t same]
  | binary op l r s =>
    obtain ⟨left, right⟩ := List.forall_mem_append.mp same
    simp only [evaluate, evaluate_congr l left, evaluate_congr r right]
  | ternary c t e s =>
    obtain ⟨cond, arms⟩ := List.forall_mem_append.mp same
    obtain ⟨thn, els⟩ := List.forall_mem_append.mp arms
    simp only [evaluate, evaluate_congr c cond, evaluate_congr t thn, evaluate_congr e els]
  | call function args filter s =>
    cases filter with
    | some b =>
      have known : x.probe ⟨b, .potential⟩ = other ⟨b, .potential⟩ :=
        same (.probe ⟨b, .potential⟩) List.mem_cons_self
      simp only [evaluate, known]
    | none =>
      simp only [evaluate]
      cases found : Function.find? function with
      | none => rfl
      | some f =>
        by_cases role : f.role = .given
        · simp only [role]
        · rw [reads_call found role] at same
          simp only [evaluateAll_congr args same]

theorem evaluateAll_congr (ts : List Tree) (same : ∀ y ∈ readsAll ts, y.Same x other σ τ) :
    evaluateAll x σ ts = evaluateAll { x with probe := other } τ ts := by
  cases ts with
  | nil => rfl
  | cons t ts =>
    obtain ⟨first, rest⟩ := List.forall_mem_append.mp same
    simp only [evaluateAll, evaluate_congr t first, evaluateAll_congr ts rest]

end

end Tree

/-- What became of a statement in a run: nothing, or it was run with a value, if that exists. -/
abbrev Event := Option (Option Int64)

/-- The block that a condition selects. What is known beforehand need not be an integer. -/
def Condition.selects? (x : Setting) (σ : Memory) (c : Condition) : Option Bool :=
  match c.value with
  | some (.literal v _) => v.truth?
  | some t => (t.evaluate x σ).map (·.toInt != 0)
  | none => none

namespace Statement

mutual

def skipped : Statement → List Event
  | .conditional _ _ thn _ els => skippedAll thn ++ skippedAll els
  | .block _ body => skippedAll body
  | .declare _ => [none]
  | .assign _ => [none]
  | .contribute _ => [none]

def skippedAll : List Statement → List Event
  | [] => []
  | s :: ss => s.skipped ++ skippedAll ss

end

mutual

def execute (x : Setting) (σ : Memory) : Statement → Memory × List Event
  | .declare s =>
    match s.source, s.value with
    | some _, some t => (Function.update σ s.symbol.id (t.evaluate x σ), [some (t.evaluate x σ)])
    | _, _ => (σ, [none])
  | .assign s =>
    match s.symbol, s.value with
    | some v, some t => (Function.update σ v.id (t.evaluate x σ), [some (t.evaluate x σ)])
    | _, _ => (σ, [none])
  | .contribute s => (σ, [s.value.map fun t => t.evaluate x σ])
  | .conditional c _ thn _ els =>
    match c.selects? x σ with
    | some true =>
      let (τ, events) := executeAll x σ thn
      (τ, events ++ skippedAll els)
    | some false =>
      let (τ, events) := executeAll x σ els
      (τ, skippedAll thn ++ events)
    | none => (σ, skippedAll thn ++ skippedAll els)
  | .block _ body => executeAll x σ body

def executeAll (x : Setting) (σ : Memory) : List Statement → Memory × List Event
  | [] => (σ, [])
  | s :: ss =>
    let (τ, first) := s.execute x σ
    let (υ, rest) := executeAll x τ ss
    (υ, first ++ rest)

end

end Statement

/-- Runs all analog blocks once, and tells of each statement what became of it. -/
def Device.run (m : Device) (x : Setting) : List Event := (Statement.executeAll x .initial m.body).2

namespace Statement

mutual

theorem length_skipped (outer : ScopeId) (around : List Condition) (s : Statement) :
    s.skipped.length = (s.leaves outer around).length := by
  cases s with
  | declare s | assign s | contribute s => rfl
  | conditional c thnScope thn elsScope els =>
    simp only [skipped, leaves, List.length_append, length_skippedAll thnScope (c :: around) thn,
      length_skippedAll elsScope (c :: around) els]
  | block inner body => exact length_skippedAll inner around body

theorem length_skippedAll (outer : ScopeId) (around : List Condition) (ss : List Statement) :
    (skippedAll ss).length = (leavesAll outer around ss).length := by
  cases ss with
  | nil => rfl
  | cons s ss =>
    simp only [skippedAll, leavesAll, List.length_append, length_skipped outer around s,
      length_skippedAll outer around ss]

end

mutual

theorem length_execute (x : Setting) (outer : ScopeId) (around : List Condition) (s : Statement)
    (σ : Memory) : (s.execute x σ).2.length = (s.leaves outer around).length := by
  cases s with
  | declare s | assign s =>
    simp only [execute]
    split <;> rfl
  | contribute s => rfl
  | conditional c thnScope thn elsScope els =>
    have thnSkipped := length_skippedAll thnScope (c :: around) thn
    have elsSkipped := length_skippedAll elsScope (c :: around) els
    have thnRun := length_executeAll x thnScope (c :: around) thn σ
    have elsRun := length_executeAll x elsScope (c :: around) els σ
    simp only [execute, leaves, List.length_append]
    split
    · simp only [List.length_append, thnRun, elsSkipped]
    · simp only [List.length_append, thnSkipped, elsRun]
    · simp only [List.length_append, thnSkipped, elsSkipped]
  | block inner body => exact length_executeAll x inner around body σ

theorem length_executeAll (x : Setting) (outer : ScopeId) (around : List Condition)
    (ss : List Statement)
    (σ : Memory) : (executeAll x σ ss).2.length = (leavesAll outer around ss).length := by
  cases ss with
  | nil => rfl
  | cons s ss =>
    simp only [executeAll, leavesAll, List.length_append, length_execute x outer around s,
      length_executeAll x outer around ss]

end

end Statement
end Analog
