import Analog.Proofs.Summary.Containment

/-!
What a summary mentions: the probes that a value depends on, and the variables that it was read
from. An operation mentions what its operands mention. So a tree mentions the probes that it reads
itself, and what the variables mention that it reads.
-/
namespace Analog

inductive Mention where
  | probe (q : Probe)
  | variable (v : VariableId)
  deriving DecidableEq, Repr

namespace Summary

def Mentions (s : Summary) : Mention → Prop
  | .probe q => s.dependsOn q = true
  | .variable v => v ∈ s.consumers.items

instance (s : Summary) (x : Mention) : Decidable (s.Mentions x) :=
  match x with
  | .probe q => inferInstanceAs (Decidable (s.dependsOn q = true))
  | .variable v => inferInstanceAs (Decidable (v ∈ s.consumers.items))

theorem mentions_of_mem {s : Summary} {e : Edge} (mem : e ∈ s.deps.edges) :
    s.Mentions (.probe e.probe) :=
  dependsOn_iff.mpr (List.mem_map_of_mem mem)

theorem exists_of_mentions {s : Summary} {q : Probe} (h : s.Mentions (.probe q)) :
    ∃ e ∈ s.deps.edges, e.probe = q := List.mem_map.mp (dependsOn_iff.mp h)

theorem Within.mentions {s t : Summary} (h : s.Within t) {x : Mention} (known : s.Mentions x) :
    t.Mentions x := by
  cases x with
  | probe q => exact h.probes q known
  | «variable» v => exact h.consumers v known

theorem Covers.mentions {a s : Summary} (h : a.Covers s) {x : Mention} (known : s.Mentions x) :
    a.Mentions x := h.below.within.mentions known

section Operations

variable {a b c : Summary} {ss : List Summary} {x : Mention}

theorem mentions_plain (offset constant : Bool) : ¬ (plain offset constant).Mentions x := by
  cases x with
  | probe q => exact Bool.false_ne_true
  | «variable» v => exact List.not_mem_nil

theorem mentions_fixed (offset : Bool) : ¬ (fixed offset).Mentions x := mentions_plain offset true

theorem mentions_ofProbe {q : Probe} : (ofProbe q).Mentions x ↔ x = .probe q := by
  cases x with
  | probe q' =>
    have edge : (ofProbe q).order? q' = if q = q' then some .linear else none :=
      EdgeSet.order?_cons ⟨q, .linear⟩ [] q'
    simp only [Mentions, dependsOn, edge, Mention.probe.injEq, eq_comm (a := q')]
    split <;> simp [*]
  | «variable» v => simp [Mentions, ofProbe, plain, OrderedSet.empty]

theorem mentions_addConsumer {v : VariableId} : (a.addConsumer v).Mentions x ↔ a.Mentions x ∨
    x = .variable v := by
  cases x with
  | probe q =>
    constructor
    · exact Or.inl
    · rintro (known | ⟨⟨⟩⟩)
      exact known
  | «variable» w => simp only [Mentions, addConsumer, OrderedSet.mem_insert, Mention.variable.injEq]

theorem mentions_absorb (tidy : b.Tidy) : (a.absorb b).Mentions x ↔ a.Mentions x ∨
    b.Mentions x := by
  cases x with
  | probe q =>
    simp only [Mentions, dependsOn, order?_absorb a tidy, isSome_joinOrders, Bool.or_eq_true]
  | «variable» v => exact OrderedSet.mem_union

theorem mentions_combine : (combine ss).Mentions x ↔ ∃ s ∈ ss, s.Mentions x := by
  cases x with
  | probe q => simp only [Mentions, dependsOn, isSome_order?_combine, List.any_eq_true]
  | «variable» v => exact mem_consumers_combine ss v

theorem mentions_uniform (o : Order) : (uniform o ss).Mentions x ↔ ∃ s ∈ ss, s.Mentions x := by
  cases x with
  | probe q => simp only [Mentions, dependsOn, isSome_order?_uniform, List.any_eq_true]
  | «variable» v => exact mem_consumers_uniform o ss v

theorem mentions_multiply : (multiply a b).Mentions x ↔ a.Mentions x ∨ b.Mentions x := by
  cases x with
  | probe q => simp only [Mentions, dependsOn, isSome_order?_multiply, Bool.or_eq_true]
  | «variable» v => simp [Mentions, multiply, mem_consumers_enter, plain, OrderedSet.empty]

theorem mentions_divide : (divide a b).Mentions x ↔ a.Mentions x ∨ b.Mentions x := by
  cases x with
  | probe q => simp only [Mentions, dependsOn, isSome_order?_divide, Bool.or_eq_true]
  | «variable» v => simp [Mentions, divide, mem_consumers_enter, plain, OrderedSet.empty]

theorem mentions_select : (select c a b).Mentions x ↔ c.Mentions x ∨ a.Mentions x ∨
    b.Mentions x := by
  cases x with
  | probe q =>
    simp only [Mentions, dependsOn, isSome_order?_select, Bool.or_eq_true]
    tauto
  | «variable» v =>
    simp only [Mentions, select, mem_consumers_enter, plain, OrderedSet.empty,
      List.not_mem_nil, false_or]
    tauto

theorem mentions_ofUnary (op : UnaryOp) : (ofUnary op a).Mentions x ↔ a.Mentions x := by
  cases op with
  | neg => simp [ofUnary, mentions_combine]
  | not => simp [ofUnary, logical, mentions_uniform]

theorem mentions_ofBinary (op : BinaryOp) : (ofBinary op a b).Mentions x ↔ a.Mentions x ∨
    b.Mentions x := by
  have both : (∃ s ∈ [a, b], s.Mentions x) ↔ a.Mentions x ∨ b.Mentions x := by simp
  unfold ofBinary
  split
  · exact mentions_combine.trans both
  · split
    · exact mentions_multiply
    · split
      · exact mentions_divide
      · split
        · exact (mentions_uniform .none).trans both
        · exact (mentions_uniform .any).trans both

theorem mentions_ofFilter {f : BranchId} :
    (ofFilter f ss).Mentions x ↔ x = .probe ⟨f, .potential⟩ ∨ ∃ s ∈ ss, s.Mentions x := by
  have inner : (combine [ofProbe ⟨f, .potential⟩, combine ss]).Mentions x ↔
      x = .probe ⟨f, .potential⟩ ∨ ∃ s ∈ ss, s.Mentions x := by
    simp [mentions_combine, mentions_ofProbe]
  cases x with
  | probe q | «variable» v => exact inner

end Operations

theorem mentions_function {f : Function} {ss : List Summary} {x : Mention} :
    (f.summary ss).Mentions x ↔ f.role ≠ .given ∧ ∃ s ∈ ss, s.Mentions x := by
  unfold Function.summary
  split
  · rename_i role
    have quiet : ¬ varying.Mentions x := mentions_plain _ _
    simp [role, mentions_combine, or_and_right, exists_or, quiet]
  · rename_i role
    simp [role, mentions_fixed]
  · rename_i _ notGiven
    have other : f.role ≠ .given := notGiven
    simp only [arbitrary, mentions_uniform, other, ne_eq, not_false_eq_true, true_and]

end Summary

def Mention.Brings (read : VariableId → Summary) (y x : Mention) : Prop :=
  match y with
  | .probe q => x = .probe q
  | .variable v => (read v).Mentions x

namespace Tree

mutual

def reads : Tree → List Mention
  | .variable v _ => [.variable v.id]
  | .declaration _ init => init.reads
  | .access q => [.probe q.probe]
  | .unary _ x _ => x.reads
  | .binary _ l r _ => l.reads ++ r.reads
  | .ternary c t e _ => c.reads ++ (t.reads ++ e.reads)
  | .call function args none _ =>
    match Function.find? function with
    | some f =>
      match f.role with
      | .given => []
      | _ => readsAll args
    | none => []
  | .call _ args (some b) _ => .probe ⟨b, .potential⟩ :: readsAll args
  | .arguments items => readsAll items
  | .literal _ _ => []
  | .parameter _ => []
  | .node _ => []
  | .port _ => []
  | .marker => []
  | .deferred _ => []

def readsAll : List Tree → List Mention
  | [] => []
  | t :: ts => t.reads ++ readsAll ts

end

theorem reads_call {function : String} {f : Function} (found : Function.find? function = some f)
    (role : f.role ≠ .given) (args : List Tree) (s : Summary) :
    (call function args none s).reads = readsAll args := by
  simp only [reads, found]

theorem reads_given {function : String} {f : Function} (found : Function.find? function = some f)
    (role : f.role = .given) (args : List Tree) (s : Summary) :
    (call function args none s).reads = [] := by
  simp only [reads, found, role]

variable {read : VariableId → Summary}

mutual

theorem mentions_refresh (t : Tree) {x : Mention} :
    (t.refresh read).summary.Mentions x ↔ ∃ y ∈ t.reads, y.Brings read x := by
  cases t with
  | literal v o | parameter p | node i | port i | marker | deferred name =>
    simp [refresh, summary, reads, Summary.mentions_fixed]
  | access q => simp [refresh, summary, reads, Summary.mentions_ofProbe, Mention.Brings]
  | «variable» v s => simp [refresh, summary, reads, Mention.Brings]
  | declaration v init => exact mentions_refresh init
  | unary op x s => exact (Summary.mentions_ofUnary op).trans (mentions_refresh x)
  | binary op l r s =>
    refine (Summary.mentions_ofBinary op).trans ?_
    simp only [reads, List.mem_append, or_and_right, exists_or, mentions_refresh l,
      mentions_refresh r]
  | ternary c t e s =>
    refine Summary.mentions_select.trans ?_
    simp only [reads, List.mem_append, or_and_right, exists_or, mentions_refresh c,
      mentions_refresh t, mentions_refresh e]
  | call function args filter s =>
    cases filter with
    | none =>
      simp only [refresh, summary]
      cases found : Function.find? function with
      | none => simp [reads, found, Summary.mentions_fixed]
      | some f =>
        refine Summary.mentions_function.trans ?_
        by_cases role : f.role = .given
        · simp [reads_given found role, role]
        · rw [reads_call found role, mentions_refreshAll args]
          simp only [ne_eq, role, not_false_eq_true, true_and]
    | some b =>
      refine Summary.mentions_ofFilter.trans ?_
      simp only [reads, List.mem_cons, or_and_right, exists_or, exists_eq_left,
        mentions_refreshAll args]
      rfl
  | arguments items => exact Summary.mentions_combine.trans (mentions_refreshAll items)

theorem mentions_refreshAll (ts : List Tree) {x : Mention} :
    (∃ s ∈ summaries (refreshAll read ts), s.Mentions x) ↔ ∃ y ∈ readsAll ts, y.Brings read x := by
  cases ts with
  | nil => simp [refreshAll, summaries, readsAll]
  | cons t ts =>
    simp only [refreshAll, summaries, readsAll, List.mem_cons, List.mem_append,
      or_and_right, exists_or, exists_eq_left, mentions_refresh t, mentions_refreshAll ts]

end

mutual

theorem reads_refresh (t : Tree) : (t.refresh read).reads = t.reads := by
  cases t with
  | literal | parameter | node | port | marker | deferred | access | «variable» => rfl
  | declaration v init => exact reads_refresh init
  | unary op x s => exact reads_refresh x
  | binary op l r s => exact congrArg₂ (· ++ ·) (reads_refresh l) (reads_refresh r)
  | ternary c t e s => simp only [refresh, reads, reads_refresh c, reads_refresh t, reads_refresh e]
  | call function args filter s =>
    cases filter with
    | none | some b => simp only [refresh, reads, readsAll_refresh args]
  | arguments items => exact readsAll_refresh items

theorem readsAll_refresh (ts : List Tree) : readsAll (refreshAll read ts) = readsAll ts := by
  cases ts with
  | nil => rfl
  | cons t ts => exact congrArg₂ (· ++ ·) (reads_refresh t) (readsAll_refresh ts)

end

end Tree
end Analog
