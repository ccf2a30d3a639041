import Analog.Proofs.Tree.IntegerValue
import Analog.Proofs.Tree.Mentions
import Analog.Proofs.Tree.Operands

/-!
What a summary says of constancy holds up to choices. The constant flag of a choice is that of its
condition, so a choice between varying arms counts as constant. A tree that counts as constant has
the same value at all quantities, as long as what varies in the arms that its choices take stays the
same.
-/
namespace Analog

/-- Values for all but the quantities of a circuit: of literals, parameters, operators and
functions. -/
structure Interpretation (α : Type) where
  literal : Value → α
  parameter : ParameterId → α
  unary : UnaryOp → α → α
  binary : BinaryOp → α → α → α
  function : String → List α → α
  truth : α → Bool

variable {α : Type}

def Interpretation.quantity (m : Interpretation α) (c : Circuit) (v : Probe → α) (q : Quantity) :
    α :=
  if q.ref.reversed == (c.branch q.ref.branch).reversed then v q.probe else m.unary .neg (v q.probe)

def Function.isMathematical (f : Function) : Bool :=
  match f.role with
  | .unary _ => true
  | .binary _ => true
  | _ => false

namespace Tree

/-- A part that reads neither variables nor the surroundings, and keeps nothing from earlier
moments. -/
def isInstant : Tree → Bool
  | .literal _ _ => true
  | .parameter _ => true
  | .access _ => true
  | .unary _ _ _ => true
  | .binary _ _ _ _ => true
  | .ternary _ _ _ _ => true
  | .call function _ none _ => (Function.find? function).any Function.isMathematical
  | .arguments _ => true
  | _ => false

mutual

/-- The value of an instant tree, given the quantities. -/
def outcome (m : Interpretation α) (c : Circuit) (v : Probe → α) : Tree → Option α
  | .literal x _ => some (m.literal x)
  | .parameter p => some (m.parameter p.id)
  | .access q => some (m.quantity c v q)
  | .unary op x _ => (x.outcome m c v).map (m.unary op)
  | .binary op l r _ => do return m.binary op (← l.outcome m c v) (← r.outcome m c v)
  | .ternary k t e _ => do
    if m.truth (← k.outcome m c v) then t.outcome m c v else e.outcome m c v
  | .call function args none _ => (outcomeAll m c v args).map (m.function function)
  | _ => none

def outcomeAll (m : Interpretation α) (c : Circuit) (v : Probe → α) : List Tree → Option (List α)
  | [] => some []
  | t :: ts => do return (← t.outcome m c v) :: (← outcomeAll m c v ts)

end

mutual

/-- What is read where choices take an arm that does not count as constant. -/
def exposed (m : Interpretation α) (c : Circuit) (v : Probe → α) : Tree → List Mention
  | .unary _ x _ => x.exposed m c v
  | .binary _ l r _ => l.exposed m c v ++ r.exposed m c v
  | .ternary k t e _ => k.exposed m c v ++
    if (k.outcome m c v).any m.truth then if t.summary.constant then t.exposed m c v else t.reads
    else if e.summary.constant then e.exposed m c v else e.reads
  | .call _ args none _ => exposedAll m c v args
  | _ => []

def exposedAll (m : Interpretation α) (c : Circuit) (v : Probe → α) : List Tree → List Mention
  | [] => []
  | t :: ts => t.exposed m c v ++ exposedAll m c v ts

end

/-- Two ways to set the quantities give the same to all that is mentioned. -/
def Agree (v w : Probe → α) (mentions : List Mention) : Prop := ∀ q, .probe q ∈ mentions → v q = w q

theorem agree_append {v w : Probe → α} {xs ys : List Mention} :
    Agree v w (xs ++ ys) ↔ Agree v w xs ∧ Agree v w ys := by
  simp [Agree, or_imp, forall_and]

variable {m : Interpretation α} {c : Circuit} {v w : Probe → α}

theorem role_of_isMathematical {function : String}
    (mathematical : (Function.find? function).any Function.isMathematical = true) :
    ∃ f, Function.find? function = some f ∧ f.role ≠ .given ∧
    ∀ args, f.summary args = .arbitrary args := by
  cases found : Function.find? function with
  | none =>
    rw [found] at mathematical
    cases mathematical
  | some f =>
    rw [found, Option.any_some, Function.isMathematical] at mathematical
    refine ⟨f, rfl, ?_⟩
    cases role : f.role with
    | unary g => simp [Function.summary, role]
    | binary g => simp [Function.summary, role]
    | environment | given | filter =>
      rw [role] at mathematical
      cases mathematical

mutual

theorem outcome_congr (t : Tree) (instant : t.All (isInstant ·)) (same : Agree v w t.reads) :
    t.outcome m c v = t.outcome m c w := by
  cases t with
  | access q =>
    have known : v q.probe = w q.probe := same q.probe (List.mem_singleton_self _)
    simp only [outcome, Interpretation.quantity, known]
  | unary op x s => simp only [outcome, outcome_congr x (all_unary.mp instant).1 same]
  | binary op l r s =>
    obtain ⟨left, right, _⟩ := all_binary.mp instant
    obtain ⟨leftSame, rightSame⟩ := agree_append.mp same
    simp only [outcome, outcome_congr l left leftSame, outcome_congr r right rightSame]
  | ternary k t e s =>
    obtain ⟨cond, thn, els, _⟩ := all_ternary.mp instant
    obtain ⟨condSame, arms⟩ := agree_append.mp same
    obtain ⟨thnSame, elsSame⟩ := agree_append.mp arms
    simp only [outcome, outcome_congr k cond condSame, outcome_congr t thn thnSame,
      outcome_congr e els elsSame]
  | call function args filter s =>
    obtain ⟨inner, _, here⟩ := all_call.mp instant
    cases filter with
    | some b => cases here
    | none =>
      obtain ⟨f, found, role, _⟩ := role_of_isMathematical here
      rw [reads_call found role] at same
      simp only [outcome, outcomeAll_congr args inner same]
  | _ => rfl

theorem outcomeAll_congr (ts : List Tree) (instant : ∀ t ∈ ts, t.All (isInstant ·))
    (same : Agree v w (readsAll ts)) : outcomeAll m c v ts = outcomeAll m c w ts := by
  cases ts with
  | nil => rfl
  | cons t ts =>
    obtain ⟨first, rest⟩ := List.forall_mem_cons.mp instant
    obtain ⟨firstSame, restSame⟩ := agree_append.mp same
    simp only [outcomeAll, outcome_congr t first firstSame, outcomeAll_congr ts rest restSame]

end

theorem constant_ofUnary (op : UnaryOp) (s : Summary) :
    (Summary.ofUnary op s).constant = s.constant := by
  cases op with
  | neg => simp [Summary.ofUnary, Summary.constant_combine]
  | not => simp [Summary.ofUnary, Summary.logical, Summary.constant_uniform]

theorem constant_ofBinary (op : BinaryOp) (l r : Summary) :
    (Summary.ofBinary op l r).constant = (l.constant && r.constant) := by
  cases op with
  | add | sub => simp [Summary.ofBinary, BinaryOp.isAdditive, Summary.constant_combine]
  | mul | div => rfl
  | _ => exact (Summary.constant_uniform _ [l, r]).trans (by simp)

theorem constant_arbitrary (ss : List Summary) :
    (Summary.arbitrary ss).constant = true ↔ ∀ s ∈ ss, s.constant = true := by
  rw [Summary.arbitrary, Summary.constant_uniform, ← List.foldr_eq_foldl]
  induction ss with
  | nil => simp
  | cons s ss ih => rw [List.map_cons, List.foldr_cons, Bool.and_eq_true, ih, List.forall_mem_cons]

variable {read : VariableId → Summary} {nodes : Nat}

mutual

theorem outcome_constant (t : Tree) (built : t.Built read nodes) (instant : t.All (isInstant ·))
    (constant : t.summary.constant = true) (same : Agree v w (t.exposed m c v)) :
    t.outcome m c v = t.outcome m c w := by
  cases t with
  | access q => cases constant
  | unary op x s =>
    obtain ⟨inner, rfl⟩ := built
    rw [summary, constant_ofUnary] at constant
    simp only [outcome, outcome_constant x inner (all_unary.mp instant).1 constant same]
  | binary op l r s =>
    obtain ⟨leftBuilt, rightBuilt, rfl⟩ := built
    obtain ⟨left, right, _⟩ := all_binary.mp instant
    rw [summary, constant_ofBinary, Bool.and_eq_true] at constant
    obtain ⟨leftSame, rightSame⟩ := agree_append.mp same
    simp only [outcome, outcome_constant l leftBuilt left constant.1 leftSame,
      outcome_constant r rightBuilt right constant.2 rightSame]
  | ternary k t e s =>
    obtain ⟨condBuilt, thnBuilt, elsBuilt, rfl⟩ := built
    obtain ⟨cond, thn, els, _⟩ := all_ternary.mp instant
    obtain ⟨condSame, armSame⟩ := agree_append.mp same
    -- The condition is constant, so the same arm is taken both times.
    have chosen := outcome_constant k condBuilt cond constant condSame
    cases known : k.outcome m c v with
    | none => simp only [outcome, ← chosen, known, Option.bind_eq_bind, Option.bind_none]
    | some a =>
      simp only [outcome, ← chosen, known, Option.bind_eq_bind, Option.bind_some]
      rw [known, Option.any_some] at armSame
      cases truth : m.truth a with
      | true =>
        rw [truth, if_pos rfl] at armSame
        by_cases arm : t.summary.constant = true
        · rw [if_pos arm] at armSame
          simpa using outcome_constant t thnBuilt thn arm armSame
        · rw [if_neg arm] at armSame
          simpa using outcome_congr t thn armSame
      | false =>
        rw [truth, if_neg Bool.false_ne_true] at armSame
        by_cases arm : e.summary.constant = true
        · rw [if_pos arm] at armSame
          simpa using outcome_constant e elsBuilt els arm armSame
        · rw [if_neg arm] at armSame
          simpa using outcome_congr e els armSame
  | call function args filter s =>
    obtain ⟨inner, _, here⟩ := all_call.mp instant
    cases filter with
    | some b => cases here
    | none =>
      obtain ⟨builtArgs, f, found, rfl, _⟩ := built
      obtain ⟨g, same', _, summed⟩ := role_of_isMathematical here
      cases found.symm.trans same'
      rw [summary, summed, constant_arbitrary] at constant
      simp only [outcome, outcomeAll_constant args builtArgs inner constant same]
  | _ => rfl

theorem outcomeAll_constant (ts : List Tree) (built : BuiltAll read nodes ts)
    (instant : ∀ t ∈ ts, t.All (isInstant ·)) (constant : ∀ s ∈ summaries ts, s.constant = true)
    (same : Agree v w (exposedAll m c v ts)) : outcomeAll m c v ts = outcomeAll m c w ts := by
  cases ts with
  | nil => rfl
  | cons t ts =>
    obtain ⟨first, rest⟩ := List.forall_mem_cons.mp instant
    obtain ⟨firstConstant, restConstant⟩ := List.forall_mem_cons.mp constant
    obtain ⟨firstSame, restSame⟩ := agree_append.mp same
    simp only [outcomeAll, outcome_constant t built.1 first firstConstant firstSame,
      outcomeAll_constant ts built.2 rest restConstant restSame]

end

mutual

theorem exists_outcome (t : Tree) (value : t.IsValue) (applied : t.All Applied)
    (instant : t.All (isInstant ·)) : ∃ a, t.outcome m c v = some a := by
  cases t with
  | literal x o => exact ⟨_, rfl⟩
  | parameter p => exact ⟨_, rfl⟩
  | access q => exact ⟨_, rfl⟩
  | unary op x s =>
    obtain ⟨inner, here⟩ := all_unary.mp applied
    obtain ⟨a, known⟩ := exists_outcome x here inner (all_unary.mp instant).1
    exact ⟨_, by rw [outcome, known, Option.map_some]⟩
  | binary op l r s =>
    obtain ⟨left, right, here⟩ := all_binary.mp applied
    obtain ⟨leftInstant, rightInstant, _⟩ := all_binary.mp instant
    obtain ⟨a, leftKnown⟩ := exists_outcome l here.1 left leftInstant
    obtain ⟨b, rightKnown⟩ := exists_outcome r here.2 right rightInstant
    exact ⟨_, by rw [outcome, leftKnown, rightKnown]; rfl⟩
  | ternary k t e s =>
    obtain ⟨cond, thn, els, here⟩ := all_ternary.mp applied
    obtain ⟨condInstant, thnInstant, elsInstant, _⟩ := all_ternary.mp instant
    obtain ⟨b, condKnown⟩ := exists_outcome k here.1 cond condInstant
    rw [outcome, condKnown, Option.bind_eq_bind, Option.bind_some]
    split
    · exact exists_outcome t here.2.1 thn thnInstant
    · exact exists_outcome e here.2.2 els elsInstant
  | call function args filter s =>
    obtain ⟨inner, _, here⟩ := all_call.mp applied
    obtain ⟨innerInstant, _, fits⟩ := all_call.mp instant
    cases filter with
    | some b => cases fits
    | none =>
      obtain ⟨as, known⟩ := exists_outcomeAll args here inner innerInstant
      exact ⟨_, by rw [outcome, known, Option.map_some]⟩
  | «variable» | declaration => cases All.self instant
  | node | port | arguments | marker | deferred => cases value Circuit.empty

theorem exists_outcomeAll (ts : List Tree) (values : ∀ t ∈ ts, t.IsValue)
    (applied : ∀ t ∈ ts, t.All Applied) (instant : ∀ t ∈ ts, t.All (isInstant ·)) :
    ∃ as, outcomeAll m c v ts = some as := by
  cases ts with
  | nil => exact ⟨_, rfl⟩
  | cons t ts =>
    obtain ⟨firstValue, restValue⟩ := List.forall_mem_cons.mp values
    obtain ⟨first, rest⟩ := List.forall_mem_cons.mp applied
    obtain ⟨firstInstant, restInstant⟩ := List.forall_mem_cons.mp instant
    obtain ⟨a, known⟩ := exists_outcome t firstValue first firstInstant
    obtain ⟨as, others⟩ := exists_outcomeAll ts restValue rest restInstant
    exact ⟨_, by rw [outcomeAll, known, others]; rfl⟩

end

end Tree

namespace Source

variable {r : Resolver} {s : Source} {scope : ScopeId} {t : Tree} {d d₁ : Design}

/-- The constant flag is sound up to choices: a resolved tree that counts as constant has one value
at any two settings of the quantities that agree on what is read in the arms that its choices take
and that do not count as constant themselves. -/
theorem constant_keeps_value (wf : d.WellFormed) (run : s.resolve r scope d = .ok t d₁)
    (instant : t.All (Tree.isInstant ·)) (constant : t.summary.constant = true)
    (m : Interpretation α) {v w : Probe → α} (same : Tree.Agree v w (t.exposed m d₁.circuit v)) :
    ∃ a, t.outcome m d₁.circuit v = some a ∧ t.outcome m d₁.circuit w = some a := by
  obtain ⟨value, applied, built⟩ := resolved_tree wf run
  obtain ⟨a, known⟩ := Tree.exists_outcome (m := m) (c := d₁.circuit) (v := v) t value
    applied instant
  exact ⟨a, known, by rw [← Tree.outcome_constant t built instant constant same, known]⟩

/-- Machine integers, with every parameter at one. Functions have no value. -/
def machine : Interpretation (Option Int64) where
  literal := Value.integer?
  parameter _ := some 1
  unary op x := x.map (Integer.unary op)
  binary op x y := do Integer.binary? op (← x) (← y)
  function _ _ := none
  truth x := x != some 0

def level (n : Int64) : Probe → Option Int64 := fun _ => some n

def switched : Design where
  circuit := ⟨#[⟨groundName, none⟩, ⟨"p", none⟩], #[.plain 1 0], 0⟩
  scopes := #[⟨[], [("p", .port 1), ("k", .parameter 0)], .always, ""⟩]
  parameters := #[.ofType "k" .real false]
  vars := #[]
  filters := []
  expressions := 1

theorem wellFormed_switched : switched.WellFormed where
  circuit := by
    refine ⟨by decide, ?_⟩
    intro b base known
    match b with
    | 0 => cases known
    | b + 1 => cases known
  filters := by decide
  bindings
    | 0 => by decide
    | s + 1 => by simp [switched, Design.scopeOf, default, Scope.inside]
  summaries v := by
    simp [switched, Design.variableOf, default, Variable.ofType, Summary.fixed, Summary.plain,
      EdgeSet.empty, EdgeSet.probes]

def switchedReading : Source where
  raw := [.identifier "k", .identifier "k", .ternary
    [.identifier "k", .literal (.int 2), .binary .mul]
    [.marker, .identifier "p", .arguments, .identifier "V"], .binary .add]
  key := 0

theorem constant_keeps_value_switched : switched.WellFormed ∧
    ∃ t d₁, switchedReading.resolve ⟨.default, 0⟩ 0 switched = .ok t d₁ ∧ t.All (Tree.isInstant ·) ∧
      t.summary.constant = true ∧
      Tree.Agree (level 0) (level 5) (t.exposed machine d₁.circuit (level 0)) ∧
      ∃ a, t.outcome machine d₁.circuit (level 0) = some a ∧
        t.outcome machine d₁.circuit (level 5) = some a := by
  have made : ∃ t d₁, switchedReading.resolve ⟨.default, 0⟩ 0 switched = .ok t d₁ ∧
      (∀ u ∈ t.parts, u.isInstant) ∧ t.summary.constant = true ∧
      t.exposed machine d₁.circuit (level 0) = [] :=
    ⟨_, _, rfl, by decide +kernel, rfl, rfl⟩
  obtain ⟨t, d₁, run, instant, constant, unexposed⟩ := made
  have same : Tree.Agree (level 0) (level 5) (t.exposed machine d₁.circuit (level 0)) := by
    rw [unexposed]
    exact fun _ mem => absurd mem List.not_mem_nil
  exact ⟨wellFormed_switched, t, d₁, run, instant, constant, same,
    constant_keeps_value wellFormed_switched run instant constant machine same⟩

def potentialIfSet : Source where
  raw := [.identifier "k", .ternary [.marker, .identifier "p", .arguments, .identifier "V"]
    [.literal (.int 0)]]
  key := 0

/-- A choice counts as constant along with its condition, whatever its arms are. -/
theorem constant_choice_varies : switched.WellFormed ∧
    ∃ t d₁, potentialIfSet.resolve ⟨.default, 0⟩ 0 switched = .ok t d₁ ∧ t.All (Tree.isInstant ·) ∧
      t.summary.constant = true ∧
      t.outcome machine d₁.circuit (level 0) ≠ t.outcome machine d₁.circuit (level 5) :=
  ⟨wellFormed_switched, _, _, rfl, by unfold Tree.All; decide +kernel, rfl, by decide +kernel⟩

end Source
end Analog
