import Analog.Proofs.Summary.Observation
import Analog.Proofs.Tree.SimplifyingParts
import Analog.Tree.Use

/-!
Trees as they are built: every part has the summary of its operation, for variables that are read in
one way. Simplification keeps to that. A tree that makes a use depends on a probe.
-/
namespace Analog

namespace Tree

mutual

/-- A tree over `nodes` nodes in which variables are read by `read`. -/
def Built (read : VariableId → Summary) (nodes : Nat) : Tree → Prop
  | .literal _ _ => True
  | .parameter _ => True
  | .variable v s => s = read v.id
  | .declaration _ _ => False
  | .access _ => True
  | .node i => i < nodes
  | .port i => i < nodes
  | .unary op x s => x.Built read nodes ∧ s = .ofUnary op x.summary
  | .binary op l r s =>
    l.Built read nodes ∧ r.Built read nodes ∧ s = .ofBinary op l.summary r.summary
  | .ternary c t e s => c.Built read nodes ∧ t.Built read nodes ∧ e.Built read nodes ∧
      s = .select c.summary t.summary e.summary
  | .call function args none s => BuiltAll read nodes args ∧ ∃ f, Function.find? function = some f ∧
      s = f.summary (summaries args) ∧ (f.role = .given → allUses args = [])
  | .call _ args (some b) s => BuiltAll read nodes args ∧ s = .ofFilter b (summaries args)
  | .arguments items => BuiltAll read nodes items
  | .marker => True
  | .deferred _ => True

def BuiltAll (read : VariableId → Summary) (nodes : Nat) : List Tree → Prop
  | [] => True
  | t :: ts => t.Built read nodes ∧ BuiltAll read nodes ts

end

variable {read : VariableId → Summary} {nodes : Nat}

theorem builtAll_iff {ts : List Tree} : BuiltAll read nodes ts ↔ ∀ t ∈ ts, t.Built read nodes := by
  induction ts with
  | nil => simp [BuiltAll]
  | cons t ts ih => simp [BuiltAll, ih]

mutual

theorem Built.mono {nodes' : Nat} (le : nodes ≤ nodes') (t : Tree) (h : t.Built read nodes) :
    t.Built read nodes' := by
  cases t with
  | literal | parameter | access | marker | deferred => trivial
  | «variable» => exact h
  | declaration => exact h
  | node | port => exact Nat.lt_of_lt_of_le h le
  | unary op x s => exact ⟨Built.mono le x h.1, h.2⟩
  | binary op l r s => exact ⟨Built.mono le l h.1, Built.mono le r h.2.1, h.2.2⟩
  | ternary c t e s =>
    exact ⟨Built.mono le c h.1, Built.mono le t h.2.1, Built.mono le e h.2.2.1, h.2.2.2⟩
  | call function args filter s =>
    cases filter with
    | none | some b => exact ⟨BuiltAll.mono le args h.1, h.2⟩
  | arguments items => exact BuiltAll.mono le items h

theorem BuiltAll.mono {nodes' : Nat} (le : nodes ≤ nodes') (ts : List Tree)
    (h : BuiltAll read nodes ts) : BuiltAll read nodes' ts := by
  cases ts with
  | nil => trivial
  | cons t ts => exact ⟨Built.mono le t h.1, BuiltAll.mono le ts h.2⟩

end

theorem hasDeps_ofUnary (op : UnaryOp) (s : Summary) :
    (Summary.ofUnary op s).hasDeps = s.hasDeps := by
  cases op
  · simp [Summary.ofUnary, Summary.hasDeps_combine]
  · simp [Summary.ofUnary, Summary.logical, Summary.hasDeps_uniform]

theorem hasDeps_ofBinary (op : BinaryOp) (l r : Summary) :
    (Summary.ofBinary op l r).hasDeps = (l.hasDeps || r.hasDeps) := by
  unfold Summary.ofBinary
  split
  · simp [Summary.hasDeps_combine]
  · split
    · exact Summary.hasDeps_multiply l r
    · split
      · exact Summary.hasDeps_divide l r
      · split <;> simp [Summary.logical, Summary.arbitrary, Summary.hasDeps_uniform]

theorem hasDeps_ofFilter (b : BranchId) (args : List Summary) :
    (Summary.ofFilter b args).hasDeps = true := by
  have whole := Summary.hasDeps_combine [.ofProbe ⟨b, .potential⟩, Summary.combine args]
  exact whole.trans (by simp [Summary.ofProbe, Summary.hasDeps, EdgeSet.isEmpty])

theorem hasDeps_function {f : Function} (known : f.role ≠ .given) (args : List Summary) :
    (f.summary args).hasDeps = args.any Summary.hasDeps := by
  unfold Function.summary
  split
  · have none : Summary.varying.hasDeps = false := rfl
    simp [Summary.hasDeps_combine, none]
  · rename_i given
    exact absurd given known
  · exact Summary.hasDeps_uniform _ _

mutual

theorem uses_of_no_deps (t : Tree) (h : t.Built read nodes) (free : t.summary.hasDeps = false) :
    t.uses = [] := by
  cases t with
  | literal | parameter | «variable» | node | port | marker | deferred => rfl
  | declaration => exact h.elim
  | access q => cases free
  | unary op x s =>
    obtain ⟨built, rfl⟩ := h
    rw [summary, hasDeps_ofUnary] at free
    exact uses_of_no_deps x built free
  | binary op l r s =>
    obtain ⟨left, right, rfl⟩ := h
    rw [summary, hasDeps_ofBinary, Bool.or_eq_false_iff] at free
    rw [uses, uses_of_no_deps l left free.1, uses_of_no_deps r right free.2, List.append_nil]
  | ternary c t e s =>
    obtain ⟨cond, thn, els, rfl⟩ := h
    rw [summary, Summary.hasDeps_select, Bool.or_eq_false_iff, Bool.or_eq_false_iff] at free
    rw [uses, uses_of_no_deps c cond free.2, uses_of_no_deps t thn free.1.1,
      uses_of_no_deps e els free.1.2]
    rfl
  | call function args filter s =>
    cases filter with
    | none =>
      obtain ⟨built, f, _, rfl, given⟩ := h
      rw [uses]
      by_cases role : f.role = .given
      · exact given role
      · rw [summary, hasDeps_function role] at free
        exact allUses_of_no_deps args built free
    | some b =>
      obtain ⟨_, rfl⟩ := h
      rw [summary, hasDeps_ofFilter] at free
      cases free
  | arguments items =>
    rw [summary, Summary.hasDeps_combine] at free
    exact allUses_of_no_deps items h free

theorem allUses_of_no_deps (ts : List Tree) (h : BuiltAll read nodes ts)
    (free : (summaries ts).any Summary.hasDeps = false) : allUses ts = [] := by
  cases ts with
  | nil => rfl
  | cons t ts =>
    rw [summaries, List.any_cons, Bool.or_eq_false_iff] at free
    rw [allUses, uses_of_no_deps t h.1 free.1, allUses_of_no_deps ts h.2 free.2]
    rfl

end

end Tree

namespace Simplify

variable {read : VariableId → Summary} {nodes : Nat}

theorem built_plainUnary (op : UnaryOp) {x : Tree} (h : x.Built read nodes) :
    (plainUnary op x).Built read nodes := ⟨h, rfl⟩

theorem built_plainBinary (op : BinaryOp) {l r : Tree} (hl : l.Built read nodes)
    (hr : r.Built read nodes) : (plainBinary op l r).Built read nodes := ⟨hl, hr, rfl⟩

theorem built_unary (op : UnaryOp) {x : Tree} (h : x.Built read nodes) :
    (unary op x).Built read nodes := by
  unfold unary
  split
  · split
    · trivial
    · exact built_plainUnary op h
  · exact h.1
  · exact built_plainUnary op h

theorem preserved_built : Preserved (Tree.Built read nodes) where
  folded _ := trivial
  plain op _ _ left right _ := built_plainBinary op left right
  left _ _ _ _ h := h.1

theorem built_binary (op : BinaryOp) {l r : Tree} (hl : l.Built read nodes)
    (hr : r.Built read nodes) :
    (binary op l r).tree.Built read nodes := preserved_built.binary op hl hr

end Simplify
end Analog
