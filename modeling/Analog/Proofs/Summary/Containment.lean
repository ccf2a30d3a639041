import Analog.Proofs.Summary.Order

/-!
Summaries compared by what they name and by their flags, with the orders of probes left out.
Operations are monotone in this order, although a product may raise the order of one edge and not
that of another. So what a tree brings grows with what is known of its variables.
-/
namespace Analog
namespace Summary

variable {a c s t r r' : Summary} {ss ts : List Summary}

/-- All probes and consumers of `s`, and all that its flags allow for. -/
structure Within (s t : Summary) : Prop where
  probes : ∀ q, s.dependsOn q = true → t.dependsOn q = true
  consumers : ∀ v ∈ s.consumers.items, v ∈ t.consumers.items
  offset : s.offset = true → t.offset = true
  varies : s.constant = false → t.constant = false

theorem Within.refl (s : Summary) : s.Within s := ⟨fun _ => id, fun _ => id, id, id⟩

theorem Within.trans {b : Summary} (ab : a.Within b) (bc : b.Within c) : a.Within c where
  probes q h := bc.probes q (ab.probes q h)
  consumers v h := bc.consumers v (ab.consumers v h)
  offset h := bc.offset (ab.offset h)
  varies h := bc.varies (ab.varies h)

theorem dependsOn_iff {q : Probe} : s.dependsOn q = true ↔ q ∈ s.deps.probes :=
  EdgeSet.mem_probes.symm

theorem Below.within (h : s.Below t) : s.Within t := by
  refine ⟨?_, h.consumers, h.offset, h.varies⟩
  intro q known
  obtain ⟨e, mem, rfl⟩ := List.mem_map.mp (dependsOn_iff.mp known)
  obtain ⟨a, there, probe, _⟩ := h.probes e mem
  exact dependsOn_iff.mpr (List.mem_map.mpr ⟨a, there, probe⟩)

theorem Within.absorb (tidy : s.Tidy) (left : a.Within c) (right : s.Within c) :
    (a.absorb s).Within c where
  probes q h := by
    rw [dependsOn, order?_absorb a tidy, isSome_joinOrders, Bool.or_eq_true] at h
    exact h.elim (left.probes q) (right.probes q)
  consumers v h := (OrderedSet.mem_union.mp h).elim (left.consumers v) (right.consumers v)
  offset h := (Bool.or_eq_true _ _ ▸ h).elim left.offset right.offset
  varies h := (Bool.and_eq_false_iff.mp h).elim left.varies right.varies

theorem Within.addConsumer (h : s.Within t) (v : VariableId) :
    (s.addConsumer v).Within (t.addConsumer v) where
  probes := h.probes
  consumers w mem := by
    simp only [Summary.addConsumer, OrderedSet.mem_insert] at mem ⊢
    exact mem.imp (h.consumers w) id
  offset := h.offset
  varies := h.varies

theorem Within.enter {s' : Summary} (base : r.Within r') (source : s.Within s')
    {edges edges' : EdgeSet}
    (probes : ∀ q, (edges.order? q).isSome = true → (edges'.order? q).isSome = true) :
    (r.enter s edges).Within (r'.enter s' edges') where
  probes q h := by
    rw [dependsOn, order?_enter, Option.isSome_or, Bool.or_eq_true] at h ⊢
    exact h.imp (base.probes q) (probes q)
  consumers v h := by
    rw [mem_consumers_enter] at h ⊢
    exact h.imp (base.consumers v) (source.consumers v)
  offset := base.offset
  varies := base.varies

theorem within_foldl {f : Summary → Summary → Summary}
    (step : ∀ {r r' s s' : Summary}, r.Within r' → s.Within s' → (f r s).Within (f r' s'))
    (items : List.Forall₂ Within ss ts) (base : r.Within r') :
    (ss.foldl f r).Within (ts.foldl f r') := by
  induction items generalizing r r' with
  | nil => exact base
  | cons head _ ih => exact ih (step base head)

theorem within_combine (items : List.Forall₂ Within ss ts) : (combine ss).Within (combine ts) := by
  refine within_foldl ?_ items (.refl _)
  intro r r' s s' base source
  have entered := base.enter source source.probes
  refine ⟨entered.probes, entered.consumers, ?_, ?_⟩
  · intro h
    have either : r.offset = true ∨ s.offset = true := Bool.or_eq_true _ _ ▸ h
    exact Bool.or_eq_true _ _ ▸ either.imp base.offset source.offset
  · intro h
    exact Bool.and_eq_false_iff.mpr ((Bool.and_eq_false_iff.mp h).imp base.varies source.varies)

theorem within_uniform (o : Order) (items : List.Forall₂ Within ss ts) :
    (uniform o ss).Within (uniform o ts) := by
  refine within_foldl ?_ items (.refl _)
  intro r r' s s' base source
  have same : ∀ q, ((s.deps.map fun _ => o).order? q).isSome = true →
      ((s'.deps.map fun _ => o).order? q).isSome = true := by
    intro q h
    rw [EdgeSet.order?_map, Option.isSome_map] at h ⊢
    exact source.probes q h
  have entered := base.enter source same
  refine ⟨entered.probes, entered.consumers, entered.offset, ?_⟩
  intro h
  exact Bool.and_eq_false_iff.mpr ((Bool.and_eq_false_iff.mp h).imp base.varies source.varies)

section Operands

variable {a b c a' b' c' : Summary}

theorem within_multiply (left : a.Within a') (right : b.Within b') :
    (multiply a b).Within (multiply a' b') where
  probes q h := by
    rw [dependsOn, isSome_order?_multiply, Bool.or_eq_true] at h ⊢
    exact h.imp (left.probes q) (right.probes q)
  consumers v h := by
    simp only [multiply, mem_consumers_enter] at h ⊢
    exact h.imp (Or.imp id (left.consumers v)) (right.consumers v)
  offset h := by
    have both : a.offset = true ∧ b.offset = true := Bool.and_eq_true _ _ ▸ h
    exact Bool.and_eq_true _ _ ▸ both.imp left.offset right.offset
  varies h := Bool.and_eq_false_iff.mpr ((Bool.and_eq_false_iff.mp h).imp left.varies right.varies)

theorem within_divide (left : a.Within a') (right : b.Within b') :
    (divide a b).Within (divide a' b') where
  probes q h := by
    rw [dependsOn, isSome_order?_divide, Bool.or_eq_true] at h ⊢
    exact h.imp (left.probes q) (right.probes q)
  consumers v h := by
    simp only [divide, mem_consumers_enter] at h ⊢
    exact h.imp (Or.imp id (left.consumers v)) (right.consumers v)
  offset := left.offset
  varies h := Bool.and_eq_false_iff.mpr ((Bool.and_eq_false_iff.mp h).imp left.varies right.varies)

theorem within_select (cond : a.Within a') (thn : b.Within b') (els : c.Within c') :
    (select a b c).Within (select a' b' c') where
  probes q h := by
    rw [dependsOn, isSome_order?_select, Bool.or_eq_true, Bool.or_eq_true] at h ⊢
    exact h.imp (Or.imp (thn.probes q) (els.probes q)) (cond.probes q)
  consumers v h := by
    simp only [select, mem_consumers_enter] at h ⊢
    exact h.imp (Or.imp (Or.imp id (thn.consumers v)) (els.consumers v)) (cond.consumers v)
  offset h := by
    have either : b.offset = true ∨ c.offset = true := Bool.or_eq_true _ _ ▸ h
    exact Bool.or_eq_true _ _ ▸ either.imp thn.offset els.offset
  varies := cond.varies

theorem within_ofUnary (op : UnaryOp) (only : a.Within a') :
    (ofUnary op a).Within (ofUnary op a') := by
  cases op with
  | neg => exact within_combine (.cons only .nil)
  | not => exact within_uniform .none (.cons only .nil)

theorem within_ofBinary (op : BinaryOp) (left : a.Within a') (right : b.Within b') :
    (ofBinary op a b).Within (ofBinary op a' b') := by
  have both : List.Forall₂ Within [a, b] [a', b'] := .cons left (.cons right .nil)
  unfold ofBinary
  split
  · exact within_combine both
  · split
    · exact within_multiply left right
    · split
      · exact within_divide left right
      · split
        · exact within_uniform .none both
        · exact within_uniform .any both

end Operands

theorem within_function (f : Function) (items : List.Forall₂ Within ss ts) :
    (f.summary ss).Within (f.summary ts) := by
  unfold Function.summary
  split
  · exact within_combine (List.rel_append items (.cons (.refl _) .nil))
  · exact .refl _
  · exact within_uniform .any items

theorem within_ofFilter (b : BranchId) (items : List.Forall₂ Within ss ts) :
    (ofFilter b ss).Within (ofFilter b ts) := by
  have inner := within_combine
    (.cons (.refl (ofProbe ⟨b, .potential⟩)) (.cons (within_combine items) .nil))
  exact ⟨inner.probes, inner.consumers, id, id⟩

end Summary

namespace Tree

variable {first second : VariableId → Summary}

mutual

theorem within_refresh (le : ∀ v, (first v).Within (second v)) (t : Tree) :
    (t.refresh first).summary.Within (t.refresh second).summary := by
  cases t with
  | literal | parameter | access | node | port | marker | deferred => exact .refl _
  | «variable» v s => exact le v.id
  | declaration v init => exact within_refresh le init
  | unary op x s => exact Summary.within_ofUnary op (within_refresh le x)
  | binary op l r s => exact Summary.within_ofBinary op (within_refresh le l) (within_refresh le r)
  | ternary c t e s =>
    exact Summary.within_select (within_refresh le c) (within_refresh le t) (within_refresh le e)
  | call function args filter s =>
    have items := within_refreshAll le args
    cases filter with
    | none =>
      simp only [refresh, summary]
      cases Function.find? function with
      | none => exact .refl _
      | some f => exact Summary.within_function f items
    | some b => exact Summary.within_ofFilter b items
  | arguments items => exact Summary.within_combine (within_refreshAll le items)

theorem within_refreshAll (le : ∀ v, (first v).Within (second v)) (ts : List Tree) :
    List.Forall₂ Summary.Within (summaries (refreshAll first ts))
    (summaries (refreshAll second ts)) := by
  cases ts with
  | nil => exact .nil
  | cons t ts => exact .cons (within_refresh le t) (within_refreshAll le ts)

end

end Tree
end Analog
