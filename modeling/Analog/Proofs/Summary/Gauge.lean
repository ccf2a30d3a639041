import Analog.Proofs.Tree.Refresh

/-!
What can be told of a summary that grows: flags that are raised once and for good, and the orders of
probes, which climb. All of them level, a summary has absorbed nothing new. What is seen of a
summary through a lens depends on nothing else that it holds.
-/
namespace Analog
namespace Summary

/-- One edge for each probe. -/
def Tidy (s : Summary) : Prop := s.deps.probes.Nodup

/-- Something that only grows when summaries are absorbed. -/
structure Gauge (g : Summary → Nat) : Prop where
  start : g (.fixed false) = 0
  grows : ∀ (a : Summary) {s : Summary}, s.Tidy → g a ≤ g (a.absorb s)

/-- A view that goes its own way: what is seen of a result depends on nothing else. -/
structure Lens {α : Type} (view : Summary → α) : Prop where
  respects : Respects view
  absorb : ∀ {a b s t : Summary}, s.Tidy → t.Tidy → view a = view b → view s = view t →
    view (a.absorb s) = view (b.absorb t)
  start : ∀ {a s : Summary}, s.Tidy → view a = view (.fixed false) → view (a.absorb s) = view s

theorem order?_absorb (a : Summary) {s : Summary} (tidy : s.Tidy) (q : Probe) :
    (a.absorb s).order? q = EdgeSet.joinOrders (a.order? q) (s.order? q) :=
  EdgeSet.order?_widenAll a.deps tidy q

theorem isSome_joinOrders (a b : Option Order) :
    (EdgeSet.joinOrders a b).isSome = (a.isSome || b.isSome) := by
  cases a <;> cases b <;> rfl

theorem hasDeps_absorb (a : Summary) {s : Summary} (tidy : s.Tidy) :
    (a.absorb s).hasDeps = (a.hasDeps || s.hasDeps) := by
  rw [Bool.eq_iff_iff, Bool.or_eq_true, hasDeps_iff, hasDeps_iff, hasDeps_iff, ← exists_or]
  simp only [order?_absorb a tidy, isSome_joinOrders, Bool.or_eq_true]

theorem respects_hasDeps : Respects hasDeps where
  combine h := by
    rw [hasDeps_combine, hasDeps_combine]
    exact any_of_map h
  uniform o h := by
    rw [hasDeps_uniform, hasDeps_uniform]
    exact any_of_map h
  multiply ha hb := by rw [hasDeps_multiply, hasDeps_multiply, ha, hb]
  divide ha hb := by rw [hasDeps_divide, hasDeps_divide, ha, hb]
  select ha hb hc := by rw [hasDeps_select, hasDeps_select, ha, hb, hc]
  unflagged h := h
  addConsumer _ h := h

/-- A view that leaves its first value once and for good. -/
structure Flag (view : Summary → Bool) : Prop where
  respects : Respects view
  absorb : ∀ (a : Summary) {s : Summary}, s.Tidy →
    view (a.absorb s) = if view a = view (.fixed false) then view s else view a

theorem flag_offset : Flag offset where
  respects := respects_offset
  absorb a s _ := by
    show (a.offset || s.offset) = _
    cases a.offset <;> rfl

theorem flag_constant : Flag constant where
  respects := respects_constant
  absorb a s _ := by
    show (a.constant && s.constant) = _
    cases a.constant <;> rfl

theorem flag_readsFrom (w : VariableId) : Flag (readsFrom w) where
  respects := respects_readsFrom w
  absorb a s _ := by
    have first : readsFrom w (.fixed false) = false := by
      simp [readsFrom, fixed, plain, OrderedSet.empty]
    have both : (a.absorb s).readsFrom w = (a.readsFrom w || s.readsFrom w) := by
      simp [readsFrom, Summary.absorb, OrderedSet.mem_union]
    rw [both, first]
    cases a.readsFrom w <;> rfl

theorem flag_dependsOn (q : Probe) : Flag (dependsOn q) where
  respects := respects_dependsOn q
  absorb a s tidy := by
    have first : dependsOn q (.fixed false) = false := rfl
    have both : (a.absorb s).dependsOn q = (a.dependsOn q || s.dependsOn q) := by
      rw [dependsOn, order?_absorb a tidy, isSome_joinOrders]
      rfl
    rw [both, first]
    cases a.dependsOn q <;> rfl

theorem flag_hasDeps : Flag hasDeps where
  respects := respects_hasDeps
  absorb a s tidy := by
    have first : hasDeps (.fixed false) = false := rfl
    rw [hasDeps_absorb a tidy, first]
    cases a.hasDeps <;> rfl

def raised (view : Summary → Bool) (s : Summary) :
    Nat := if view s = view (.fixed false) then 0 else 1

theorem raised_le (view : Summary → Bool) (s : Summary) : raised view s ≤ 1 := by
  unfold raised
  split <;> omega

theorem eq_of_raised_eq {view : Summary → Bool} {a b : Summary}
    (same : raised view a = raised view b) : view a = view b := by
  unfold raised at same
  by_cases first : view a = view (.fixed false)
  · by_cases second : view b = view (.fixed false)
    · rw [first, second]
    · simp [first, second] at same
  · by_cases second : view b = view (.fixed false)
    · simp [first, second] at same
    · rw [Bool.eq_not_iff.mpr first, Bool.eq_not_iff.mpr second]

theorem Flag.lens {view : Summary → Bool} (flag : Flag view) : Lens view where
  respects := flag.respects
  absorb tidy tidy' first second := by
    rw [flag.absorb _ tidy, flag.absorb _ tidy', first, second]
  start tidy first := by
    rw [flag.absorb _ tidy, if_pos first]

theorem Flag.gauge {view : Summary → Bool} (flag : Flag view) : Gauge (raised view) where
  start := by simp [raised]
  grows a s tidy := by
    unfold raised
    rw [flag.absorb a tidy]
    split
    · exact Nat.zero_le _
    · exact Nat.le_refl _

def orderRank (q : Probe) (s : Summary) : Nat := ((s.order? q).map Order.rank).getD 0

theorem orderRank_le (q : Probe) (s : Summary) : orderRank q s ≤ 3 := by
  unfold orderRank
  cases s.order? q with
  | none => exact Nat.zero_le _
  | some o => exact o.rank_le

theorem order?_eq_of_rank {q : Probe} {a b : Summary} (ranks : orderRank q a = orderRank q b)
    (presence : a.dependsOn q = b.dependsOn q) : a.order? q = b.order? q := by
  unfold orderRank at ranks
  unfold dependsOn at presence
  cases first : a.order? q with
  | none =>
    cases second : b.order? q with
    | none => rfl
    | some u => simp [first, second] at presence
  | some o =>
    cases second : b.order? q with
    | none => simp [first, second] at presence
    | some u =>
      rw [first, second] at ranks
      exact congrArg some (Order.rank_injective ranks)

theorem gauge_orderRank (q : Probe) : Gauge (orderRank q) where
  start := rfl
  grows a s tidy := by
    unfold orderRank
    rw [order?_absorb a tidy]
    cases a.order? q with
    | none => exact Nat.zero_le _
    | some o =>
      cases s.order? q with
      | none => exact Nat.le_refl _
      | some u =>
        have le := Order.le_join o u
        simpa [EdgeSet.joinOrders, Order.le] using le

theorem lens_orderView (q : Probe) : Lens (orderView q) where
  respects := respects_orderView q
  absorb {a b s t} tidy tidy' first second := by
    simp only [orderView, Prod.mk.injEq] at first second
    simp only [orderView, order?_absorb _ tidy, order?_absorb _ tidy', hasDeps_absorb _ tidy,
      hasDeps_absorb _ tidy', first, second]
  start {a s} tidy first := by
    have none : a.order? q = none := congrArg Prod.fst first
    have free : a.hasDeps = false := congrArg Prod.snd first
    simp only [orderView, order?_absorb _ tidy, hasDeps_absorb _ tidy, none, free, Bool.false_or]
    rfl

inductive Noted : (Summary → Nat) → Prop
  | flag {view : Summary → Bool} (flag : Flag view) : Noted (raised view)
  | order (q : Probe) : Noted (orderRank q)

theorem Noted.gauge {g : Summary → Nat} (noted : Noted g) : Gauge g := by
  cases noted with
  | flag flag => exact flag.gauge
  | order q => exact gauge_orderRank q

theorem order?_of_mem {s : Summary} (tidy : s.Tidy) {e : Edge} (mem : e ∈ s.deps.edges) :
    s.order? e.probe = some e.order := by
  obtain ⟨⟨edges⟩, _, _, _⟩ := s
  unfold Tidy EdgeSet.probes at tidy
  simp only [order?] at tidy mem ⊢
  induction edges with
  | nil => cases mem
  | cons f edges ih =>
    simp only [List.map_cons, List.nodup_cons] at tidy
    rw [EdgeSet.order?_cons]
    rcases List.mem_cons.mp mem with rfl | later
    · rw [if_pos rfl]
    · have other : f.probe ≠ e.probe := by
        intro same
        exact tidy.1 (same ▸ List.mem_map_of_mem later)
      rw [if_neg other]
      exact ih tidy.2 later

theorem grows_eq_false {a s : Summary} (tidy : s.Tidy)
    (level : ∀ g, Noted g → g (a.absorb s) = g a) : a.grows s = false := by
  have kept : ∀ {view : Summary → Bool}, Flag view → view (a.absorb s) = view a :=
    fun flag => eq_of_raised_eq (level _ (.flag flag))
  have edges : s.deps.edges.any a.deps.widens = false := by
    rw [List.any_eq_false]
    intro e mem widens
    refine EdgeSet.widens_iff.mp widens ?_
    have same := order?_eq_of_rank (level _ (.order e.probe)) (kept (flag_dependsOn e.probe))
    rw [order?_absorb a tidy, order?_of_mem tidy mem] at same
    exact same
  have consumers : a.consumers.grows s.consumers = false := by
    rw [OrderedSet.grows, Bool.not_eq_false', OrderedSet.subset, List.all_eq_true]
    intro w mem
    have same := kept (flag_readsFrom w)
    have read : (a.absorb s).readsFrom w = true := by
      simp only [readsFrom, decide_eq_true_eq]
      exact OrderedSet.mem_union.mpr (.inr mem)
    rw [read] at same
    exact same.symm
  have offset : (s.offset && !a.offset) = false := by
    have same : (a.offset || s.offset) = a.offset := kept flag_offset
    revert same
    cases a.offset <;> cases s.offset <;> decide
  have constant : (!s.constant && a.constant) = false := by
    have same : (a.constant && s.constant) = a.constant := kept flag_constant
    revert same
    cases a.constant <;> cases s.constant <;> decide
  rw [grows, edges, consumers, offset, constant]
  rfl

end Summary
end Analog
