import Analog.Proofs.Design.Growth

/-!
The way along the shorts that hold. Without a cycle it ends, and each node on it is led to that end.
-/
namespace Analog
namespace Circuit

def Lays (c : Circuit) (holds : GuardId → Bool) (i j : NodeId) :
    Prop := c.activeTarget? holds i = some j

def Acyclic (c : Circuit) (holds : GuardId → Bool) :
    Prop := ∀ i, ¬ Relation.TransGen (c.Lays holds) i i

section Following

variable {c : Circuit} {holds : GuardId → Bool} {i j : NodeId}

theorem node_of_size_le (outside : c.nodes.size ≤ i) : c.node i = default :=
  getD_of_size_le c.nodes default outside

theorem lt_of_lays (h : c.Lays holds i j) : i < c.nodes.size := by
  by_contra outside
  rw [Lays, activeTarget?, node_of_size_le (Nat.not_lt.mp outside)] at h
  cases h

theorem lays_unique : Relator.RightUnique (c.Lays holds) := fun _ _ _ left right =>
  Option.some.inj (left.symm.trans right)

theorem reaches_of_followFuel {fuel : Nat} (h : c.followFuel holds fuel i = some j) :
    Relation.ReflTransGen (c.Lays holds) i j ∧ c.activeTarget? holds j = none := by
  induction fuel generalizing i with
  | zero => cases h
  | succ fuel ih =>
    rw [followFuel] at h
    split at h
    · rename_i k lays
      exact ⟨.head lays (ih h).1, (ih h).2⟩
    · rename_i stays
      cases h
      exact ⟨.refl, stays⟩

theorem passed_of_followFuel {fuel : Nat} (lost : c.followFuel holds fuel i = none) :
    ∃ ns : List NodeId, ns.length = fuel ∧ (∀ n ∈ ns.head?, n = i) ∧ ns.IsChain (c.Lays holds) ∧
      ∀ n ∈ ns, n < c.nodes.size := by
  induction fuel generalizing i with
  | zero => exact ⟨[], rfl, by simp, .nil, by simp⟩
  | succ fuel ih =>
    rw [followFuel] at lost
    split at lost
    · rename_i k lays
      obtain ⟨ns, length, head, chain, inside⟩ := ih lost
      refine ⟨i :: ns, by simp [length], by simp, List.isChain_cons.mpr ⟨fun y first => ?_, chain⟩,
        List.forall_mem_cons.mpr ⟨lt_of_lays lays, inside⟩⟩
      rw [head y first]
      exact lays
    · cases lost

/-- Without a cycle a way passes no node twice, so it is at its end after as many steps as there are
nodes. -/
theorem Acyclic.ends (h : c.Acyclic holds) (i : NodeId) : ∃ j, c.follow holds i = some j := by
  by_contra goes
  obtain ⟨ns, length, -, chain, inside⟩ :=
    passed_of_followFuel (Option.eq_none_iff_forall_ne_some.mpr (not_exists.mp goes))
  have onward : ns.Pairwise (Relation.TransGen (c.Lays holds)) :=
    List.isChain_iff_pairwise.mp (chain.imp fun _ _ => .single)
  have distinct : ns.Nodup := by
    refine onward.imp fun path => ?_
    rintro rfl
    exact h _ path
  have few := (distinct.subperm fun n mem => List.mem_range.mpr (inside n mem)).length_le
  rw [List.length_range, length] at few
  exact Nat.not_succ_le_self _ few

theorem eq_of_reaches (ended : c.activeTarget? holds i = none)
    (path : Relation.ReflTransGen (c.Lays holds) i j) : j = i := by
  rcases path.cases_head with same | ⟨k, lays, -⟩
  · exact same.symm
  · rw [Lays, ended] at lays
    cases lays

theorem Acyclic.follow_eq_end (h : c.Acyclic holds)
    (path : Relation.ReflTransGen (c.Lays holds) i j)
    (ended : c.activeTarget? holds j = none) : c.follow holds i = some j := by
  obtain ⟨e, found⟩ := h.ends i
  obtain ⟨way, stays⟩ := reaches_of_followFuel found
  rw [found]
  rcases Relation.ReflTransGen.total_of_right_unique lays_unique way path with left | right
  · rw [eq_of_reaches stays left]
  · rw [eq_of_reaches ended right]

theorem Acyclic.follow_eq (h : c.Acyclic holds) (path : Relation.ReflTransGen (c.Lays holds) i j) :
    c.follow holds i = c.follow holds j := by
  obtain ⟨e, found⟩ := h.ends j
  obtain ⟨way, ended⟩ := reaches_of_followFuel found
  rw [found, h.follow_eq_end (path.trans way) ended]

end Following

section Laying

variable {c : Circuit} {holds : GuardId → Bool} {i target : NodeId} {guard : Option GuardId}

theorem node_modifyNode (c : Circuit) (i j : NodeId) (f : Node → Node) :
    (c.modifyNode j f).node i = if i = j ∧ j < c.nodes.size then f (c.node j) else c.node i :=
  getD_modify c.nodes default i j f

theorem lays_modifyNode {x y : NodeId}
    (lays : (c.modifyNode i ({ · with short := some ⟨target, guard⟩ })).Lays holds x y) :
    x = i ∧ y = target ∨ x ≠ i ∧ c.Lays holds x y := by
  rw [Lays, activeTarget?, node_modifyNode] at lays
  by_cases new : x = i ∧ i < c.nodes.size
  · simp only [if_pos new, Option.ite_none_right_eq_some, Option.some.injEq] at lays
    exact .inl ⟨new.1, lays.2.symm⟩
  · rw [if_neg new] at lays
    have old : c.Lays holds x y := lays
    exact .inr ⟨fun same => new ⟨same, same ▸ lt_of_lays old⟩, old⟩

theorem lay_cases (c : Circuit) (holds : GuardId → Bool) (i target : NodeId)
    (guard : Option GuardId) : c.lay holds i target guard = c ∨
      c.lay holds i target guard = c.modifyNode i ({ · with short := some ⟨target, guard⟩ }) ∧
        c.follow holds target ≠ c.follow holds i := by
  unfold lay addShort
  split
  · rename_i a b onto own
    by_cases one : a = b
    · exact .inl (by simp [one])
    · exact .inr ⟨by simp [one], by simpa [onto, own] using one⟩
  · exact .inl rfl

theorem Acyclic.addShort_eq (h : c.Acyclic holds) (i target : NodeId) (guard : Option GuardId) :
    c.addShort holds i target guard = some (c.lay holds i target guard) := by
  obtain ⟨a, onto⟩ := h.ends target
  obtain ⟨b, own⟩ := h.ends i
  simp [lay, addShort, onto, own]

theorem Acyclic.lay_eq (h : c.Acyclic holds) (apart : c.follow holds target ≠ c.follow holds i) :
    c.lay holds i target guard = c.modifyNode i ({ · with short := some ⟨target, guard⟩ }) := by
  obtain ⟨a, onto⟩ := h.ends target
  obtain ⟨b, own⟩ := h.ends i
  have other : a ≠ b := by simpa [onto, own] using apart
  simp [lay, addShort, onto, own, other]

/-- A node that was laid onto another one lies on itself only if it did so before, or if the other
one led to it. -/
theorem Acyclic.lay (h : c.Acyclic holds) (i target : NodeId) (guard : Option GuardId) :
    (c.lay holds i target guard).Acyclic holds := by
  rcases c.lay_cases holds i target guard with same | ⟨laid, apart⟩
  · rw [same]
    exact h
  rw [laid]
  set new := c.modifyNode i ({ · with short := some ⟨target, guard⟩ })
  have back : ∀ {y}, Relation.ReflTransGen (new.Lays holds) y i →
      Relation.ReflTransGen (c.Lays holds) y i := by
    intro y path
    induction path using Relation.ReflTransGen.head_induction_on with
    | refl => exact .refl
    | head lays _ ih =>
      rcases lays_modifyNode lays with ⟨rfl, -⟩ | ⟨-, old⟩
      · exact .refl
      · exact .head old ih
  have through : ∀ {x y}, Relation.TransGen (new.Lays holds) x y →
      Relation.TransGen (c.Lays holds) x y ∨
      Relation.ReflTransGen (new.Lays holds) x i ∧ Relation.ReflTransGen (new.Lays holds) i y := by
    intro x y path
    induction path with
    | single lays =>
      rcases lays_modifyNode lays with ⟨rfl, -⟩ | ⟨-, old⟩
      · exact .inr ⟨.refl, .single lays⟩
      · exact .inl (.single old)
    | tail path lays ih =>
      rcases ih with before | ⟨toward, onward⟩
      · rcases lays_modifyNode lays with ⟨rfl, -⟩ | ⟨-, old⟩
        · exact .inr ⟨path.to_reflTransGen, .single lays⟩
        · exact .inl (before.tail old)
      · exact .inr ⟨toward, onward.tail lays⟩
  intro x cycle
  rcases through cycle with before | ⟨toward, onward⟩
  · exact h x before
  · obtain ⟨j, first, rest⟩ := Relation.TransGen.head'_iff.mp (Relation.TransGen.trans_right onward
      (cycle.trans_left toward))
    rcases lays_modifyNode first with ⟨-, rfl⟩ | ⟨other, -⟩
    · exact apart (h.follow_eq (back rest))
    · exact other rfl

end Laying
end Circuit
end Analog
