import Analog.Proofs.Resolver.FilterSites
import Analog.Proofs.Tree.Copies

/-!
Resolving an expression any number of times. After the first time, whatever came out, nothing but
counters changes, and the same comes out. Call sites of filters keep the branches that they got.
-/
namespace Analog

namespace Tree

variable {read : VariableId → Summary}

mutual

def outline : Tree → Tree
  | .declaration v init => .declaration v init.outline
  | .variable v _ => .variable v (.fixed false)
  | .unary op x _ => .unary op x.outline (.fixed false)
  | .binary op l r _ => .binary op l.outline r.outline (.fixed false)
  | .ternary c t e _ => .ternary c.outline t.outline e.outline (.fixed false)
  | .call f args b _ => .call f (outlineAll args) b (.fixed false)
  | .arguments items => .arguments (outlineAll items)
  | t => t

def outlineAll : List Tree → List Tree
  | [] => []
  | t :: ts => t.outline :: outlineAll ts

end

mutual

theorem outline_refresh (t : Tree) : (t.refresh read).outline = t.outline := by
  cases t with
  | literal | parameter | «variable» | access | node | port | marker | deferred => rfl
  | declaration v init => simp only [refresh, outline, outline_refresh init]
  | unary op x s => simp only [refresh, Simplify.plainUnary, outline, outline_refresh x]
  | binary op l r s =>
    simp only [refresh, Simplify.plainBinary, outline, outline_refresh l, outline_refresh r]
  | ternary c t e s =>
    simp only [refresh, outline, outline_refresh c, outline_refresh t, outline_refresh e]
  | call f args b s => cases b <;> simp only [refresh, outline, outlineAll_refresh args]
  | arguments items => simp only [refresh, outline, outlineAll_refresh items]

theorem outlineAll_refresh (ts : List Tree) : outlineAll (refreshAll read ts) = outlineAll ts := by
  cases ts with
  | nil => rfl
  | cons t ts => simp only [refreshAll, outlineAll, outline_refresh t, outlineAll_refresh ts]

end

end Tree

namespace Source

variable {r : Resolver} {s : Source} {scope : ScopeId} {d e : Design}

theorem allotted_after (allotted : d.Allotted) : (s.after r scope d).Allotted := by
  have stays := @resolve_allotted r s scope d allotted
  unfold DesignM.Stays Meets at stays
  unfold after
  cases run : s.resolve r scope d with
  | ok t d₁ =>
    rw [run] at stays
    exact stays
  | error f d₁ =>
    rw [run] at stays
    exact stays

theorem allotted_runs (runs : List (Resolver × Source × ScopeId)) (allotted : d.Allotted) :
    (runs.foldl (fun d run => run.2.1.after run.1 run.2.2 d) d).Allotted := by
  induction runs generalizing d with
  | nil => exact allotted
  | cons run runs ih => exact ih (allotted_after allotted)

/-- Later on, the same comes out as the first time, up to what is known of variables by then. -/
theorem resolve_redoes (wf : d.WellFormed) (later : (s.after r scope d).Continues e) :
    Resolve.Redoes (s.resolve r scope) e
      (match s.resolve r scope d with
      | .ok t _ => .ok (t.refresh e.snapshot)
      | .error f _ => .error f) := by
  have repeats := @resolve_repeats r s scope d e.snapshot wf
  unfold Resolve.Repeats Meets at repeats
  unfold after at later
  cases run : s.resolve r scope d with
  | ok t d₁ =>
    rw [run] at repeats later
    exact repeats e (later.grown.remains scope) (.inl later.grown) later.wellFormed rfl
  | error f d₁ =>
    rw [run] at repeats later
    rcases repeats with dry | repeats
    · exact absurd dry (not_underflow wf run)
    · exact repeats e later rfl

theorem uncounted_runs (wf : d.WellFormed) (later : (s.after r scope d).Continues e) (n : Nat) :
    ((s.after r scope)^[n] e).uncounted = e.uncounted := by
  induction n with
  | zero => rfl
  | succ n ih =>
    have again := resolve_redoes wf (later.recounted ih)
    rw [Function.iterate_succ_apply']
    exact (redone (later.wellFormed.of_uncounted ih) again).1.trans ih

/-- Resolving again adds nothing. Once an expression was resolved, or was found to have a problem,
nothing but counters change when it is resolved again, however often that was done and whatever has
been added to the design by then. What comes out is the same problem, or the tree of the same form,
with the same references and filters; it is the same tree where no more is known of variables. Call
sites of filters never share a branch, and each filter of the tree has its own. -/
theorem resolving_again_adds_nothing (r : Resolver) (s : Source) (scope : ScopeId) (d e : Design)
    (wf : d.WellFormed) (later : (s.after r scope d).Continues e) (n : Nat) :
    ((s.after r scope)^[n] e).uncounted = e.uncounted ∧
    (match s.resolve r scope d with
      | .ok t _ => ∃ t' e₁, s.resolve r scope ((s.after r scope)^[n] e) = .ok t' e₁ ∧
          t'.outline = t.outline ∧ (e.snapshot = d.snapshot → t' = t)
      | .error f _ => ∃ e₁, s.resolve r scope ((s.after r scope)^[n] e) = .error f e₁) ∧
    (d.FiltersApart →
      (∀ runs : List (Resolver × Source × ScopeId),
        (runs.foldl (fun d run => run.2.1.after run.1 run.2.2 d) d).FiltersApart) ∧
      ∀ t d₁, s.resolve r scope d = .ok t d₁ →
        t.filters.Nodup ∧
          ∀ b ∈ t.filters, ∃ path, d₁.filters.lookup ⟨r.tag, s.key, path⟩ = some b) := by
  have same := uncounted_runs wf later n
  refine ⟨same, ?_, fun apart => ⟨fun runs => (allotted_runs runs ⟨wf, apart⟩).apart,
    fun t d₁ run => resolve_sited ⟨wf, apart⟩ run⟩⟩
  have again := resolve_redoes wf (later.recounted same)
  rw [Design.snapshot_of_uncounted same] at again
  obtain ⟨_, ok, error⟩ := redone (later.wellFormed.of_uncounted same) again
  cases run : s.resolve r scope d with
  | ok t d₁ =>
    refine ⟨_, _, ok (t.refresh e.snapshot) (by rw [run]), Tree.outline_refresh t, ?_⟩
    intro known
    rw [known]
    exact Tree.refresh_of_built t ((resolve_meets (Tally.initial wf) r s scope).of_ok run).2
  | error f d₁ => exact ⟨_, error f (by rw [run])⟩

theorem resolving_again_adds_nothing_damped :
    ∃ t d₁ e₁, Tree.dampedReading.resolve ⟨.default, 0⟩ 0 bridged = .ok t d₁ ∧
      t.filters.length = 1 ∧
      Tree.dampedReading.resolve ⟨.default, 0⟩ 0 ((Tree.dampedReading.after ⟨.default, 0⟩ 0)^[2] d₁)
      = .ok t e₁ := by
  have known : ∃ t d₁, Tree.dampedReading.resolve ⟨.default, 0⟩ 0 bridged = .ok t d₁ ∧
      t.filters.length = 1 ∧
      d₁.snapshot = bridged.snapshot := ⟨_, _, rfl, rfl, rfl⟩
  obtain ⟨t, d₁, run, one, reads⟩ := known
  have whole : Tree.dampedReading.after ⟨.default, 0⟩ 0 bridged = d₁ := by rw [after, run]
  have later : (Tree.dampedReading.after ⟨.default, 0⟩ 0 bridged).Continues d₁ := by
    rw [whole]
    exact ⟨.refl d₁, (kept_of_ok wellFormed_bridged run).wellFormed, fun _ _ => rfl⟩
  obtain ⟨_, again, _⟩ := resolving_again_adds_nothing ⟨.default, 0⟩ Tree.dampedReading 0 bridged d₁
    wellFormed_bridged later 2
  rw [run] at again
  obtain ⟨t', e₁, result, _, same⟩ := again
  exact ⟨t, d₁, e₁, run, one, same reads ▸ result⟩

end Source
end Analog
