import Analog.Proofs.Resolver.NameMeaning

/-!
Operators and functions of a resolved tree are applied to values: a node, an argument list or a name
without a meaning is never an operand.
-/
namespace Analog

namespace Tree

def Applied : Tree → Prop
  | .unary _ x _ => x.IsValue
  | .binary _ l r _ => l.IsValue ∧ r.IsValue
  | .ternary c t e _ => c.IsValue ∧ t.IsValue ∧ e.IsValue
  | .call _ args _ _ => ∀ u ∈ args, u.IsValue
  | _ => True

theorem closed_applied : Simplify.Closed Applied where
  folded _ := trivial
  unary _ _ value _ := value
  binary _ _ _ left right _ := ⟨left, right⟩
  operand _ _ _ _ h := h.1

end Tree

namespace Resolve

variable {r : Resolver} {scope : ScopeId} {d d₁ z : Design}

theorem applied_value (v : Value) : (Tree.ofValue v).All Tree.Applied :=
  Tree.all_literal.mpr trivial

theorem applied_identifier (name : String) : (identifier z scope name).All Tree.Applied := by
  unfold identifier
  split
  · split
    · exact Tree.all_literal.mpr trivial
    · exact (Tree.all_leaf rfl).mpr trivial
  · exact (Tree.all_leaf rfl).mpr trivial
  · exact (Tree.all_leaf rfl).mpr trivial
  · exact (Tree.all_leaf rfl).mpr trivial
  · split
    · split
      · exact Tree.all_call.mpr ⟨List.forall_mem_nil _, trivial, List.forall_mem_nil _⟩
      · exact (Tree.all_leaf rfl).mpr trivial
    · exact (Tree.all_leaf rfl).mpr trivial

theorem isValue_of_asked {x : Tree} {p : Symbol} (asks : asked [x] = some p) : x.IsValue := by
  cases x with
  | parameter | literal => exact fun _ => rfl
  | _ => cases asks

theorem applied_called {site : CallSite} {name : String} {args : List Tree} {t : Tree}
    (h : Called r site name args d₁ t) (all : ∀ u ∈ args, u.All Tree.Applied) :
    t.All Tree.Applied := by
  cases h with
  | value v => exact applied_value v
  | access => exact (Tree.all_leaf rfl).mpr trivial
  | given _ _ single asks =>
    subst single
    exact Tree.all_call.mpr ⟨all, trivial, List.forall_mem_singleton.mpr (isValue_of_asked asks)⟩
  | filter _ _ values | function _ _ values => exact Tree.all_call.mpr ⟨all, trivial, values⟩

theorem applied_call {site : CallSite} {name : String} {args : List Tree} {t : Tree}
    (all : ∀ u ∈ args, u.All Tree.Applied) (run : call r scope site name args d = .ok t d₁) :
    t.All Tree.Applied :=
  applied_called (called_of_call run) all

theorem lasting_applied : Lasting r scope z Tree.Applied where
  value _ := trivial
  marker := trivial
  arguments _ := trivial
  named _ := applied_identifier _
  called h all _ _ := applied_called h all
  unary _ _ value := value
  binary _ _ _ left right := ⟨left, right⟩
  ternary _ _ _ _ cond thn els := ⟨cond, thn, els⟩
  operand _ _ _ _ h := h.1

end Resolve

namespace Source

variable {r : Resolver} {s : Source} {scope : ScopeId} {t : Tree} {d d₁ : Design}

/-- A resolved tree is a value, with the summary of its operation in each part, and its operators
are applied to values. -/
theorem resolved_tree (wf : d.WellFormed) (run : s.resolve r scope d = .ok t d₁) :
    t.IsValue ∧ t.All Tree.Applied ∧ t.Built d.snapshot d.circuit.nodes.size := by
  obtain ⟨_, _, value, all⟩ := Resolve.Partwise.resolve wf run (fun _ _ => trivial)
    fun _ _ => Resolve.lasting_applied.partwise
  have made := resolve_meets (Tally.initial wf) r s scope
  unfold Meets at made
  rw [run] at made
  exact ⟨value, all, made.2⟩

end Source
end Analog
