import Analog.Proofs.Summary.Gauge

/-!
The order of summaries. Absorbing a summary leads to one above both, and a summary that does not
grow by another one is above it already.
-/
namespace Analog

theorem OrderedSet.union_of_subset {α : Type} [DecidableEq α] {s t : OrderedSet α}
    (h : ∀ a ∈ t.items, a ∈ s.items) : s.union t = s := by
  obtain ⟨items⟩ := t
  unfold union
  induction items with
  | nil => rfl
  | cons a items ih =>
    obtain ⟨first, rest⟩ := List.forall_mem_cons.mp h
    have there : s.insert a = s := by simp [insert, contains, first]
    rw [List.foldl_cons, there]
    exact ih rest

theorem OrderedSet.grows_eq_false {α : Type} [DecidableEq α] {s t : OrderedSet α} :
    s.grows t = false ↔ ∀ a ∈ t.items, a ∈ s.items := by
  simp [grows, subset, contains]

theorem Order.le_trans {a b c : Order} (ab : a.le b = true) (bc : b.le c = true) :
    a.le c = true := by
  simp only [Order.le, decide_eq_true_eq] at ab bc ⊢
  exact Nat.le_trans ab bc

theorem Order.le_refl (a : Order) : a.le a = true := Order.join_eq_right.mp (Order.join_self a)

theorem Order.le_join_right (a b : Order) : b.le (a.join b) = true := by
  rw [Order.join_comm]
  exact Order.le_join b a

namespace EdgeSet

variable {s : EdgeSet} {a e : Edge}

/-- A set that an edge adds nothing to: the edges of its probe have orders no lower. -/
structure Covers (s : EdgeSet) (e : Edge) : Prop where
  present : s.contains e.probe = true
  orders : ∀ a ∈ s.edges, a.probe = e.probe → e.order.le a.order = true

theorem contains_iff {q : Probe} : s.contains q = true ↔ ∃ a ∈ s.edges, a.probe = q := by
  simp [contains, find?]

theorem probe_joinInto (e a : Edge) : (joinInto e a).probe = a.probe := by
  unfold joinInto
  split <;> rfl

theorem le_joinInto (e a : Edge) : a.order.le (joinInto e a).order = true := by
  unfold joinInto
  split
  · exact Order.le_join a.order e.order
  · exact Order.le_refl a.order

theorem kept_by_widen (e : Edge) (mem : a ∈ s.edges) :
    ∃ b ∈ (s.widen e).edges, b.probe = a.probe ∧ a.order.le b.order = true := by
  unfold widen
  split
  · exact ⟨joinInto e a, List.mem_map_of_mem mem, probe_joinInto e a, le_joinInto e a⟩
  · exact ⟨a, List.mem_append_left _ mem, rfl, Order.le_refl a.order⟩

theorem kept_by_widenAll (t : EdgeSet) (mem : a ∈ s.edges) :
    ∃ b ∈ (s.widenAll t).edges, b.probe = a.probe ∧ a.order.le b.order = true := by
  obtain ⟨edges⟩ := t
  unfold widenAll
  induction edges generalizing s a with
  | nil => exact ⟨a, mem, rfl, Order.le_refl a.order⟩
  | cons e edges ih =>
    obtain ⟨b, there, probe, order⟩ := kept_by_widen e mem
    obtain ⟨c, last, probe', order'⟩ := ih there
    exact ⟨c, last, probe'.trans probe, Order.le_trans order order'⟩

theorem covers_widen (s : EdgeSet) (e : Edge) : (s.widen e).Covers e := by
  unfold widen
  split
  · rename_i present
    obtain ⟨a, mem, probe⟩ := contains_iff.mp present
    refine ⟨contains_iff.mpr ⟨_, List.mem_map_of_mem mem, (probe_joinInto e a).trans probe⟩, ?_⟩
    intro b mem same
    obtain ⟨c, _, rfl⟩ := List.mem_map.mp mem
    rw [probe_joinInto] at same
    rw [joinInto, if_pos same]
    exact Order.le_join_right c.order e.order
  · rename_i absent
    refine ⟨contains_iff.mpr ⟨e, List.mem_append_right _ (List.mem_singleton_self e), rfl⟩, ?_⟩
    intro b mem same
    rcases List.mem_append.mp mem with old | new
    · exact absurd (contains_iff.mpr ⟨b, old, same⟩) absent
    · rw [List.mem_singleton.mp new]
      exact Order.le_refl e.order

theorem Covers.widen (h : s.Covers e) (e' : Edge) : (s.widen e').Covers e := by
  obtain ⟨a, mem, probe⟩ := contains_iff.mp h.present
  obtain ⟨b, there, probe', _⟩ := kept_by_widen e' mem
  refine ⟨contains_iff.mpr ⟨b, there, probe'.trans probe⟩, ?_⟩
  unfold EdgeSet.widen
  intro b mem same
  split at mem
  · obtain ⟨c, old, rfl⟩ := List.mem_map.mp mem
    rw [probe_joinInto] at same
    exact Order.le_trans (h.orders c old same) (le_joinInto e' c)
  · rename_i absent
    rcases List.mem_append.mp mem with old | new
    · exact h.orders b old same
    · rw [List.mem_singleton.mp new] at same
      exact absurd (same ▸ h.present) absent

theorem Covers.widenAll (h : s.Covers e) (t : EdgeSet) : (s.widenAll t).Covers e := by
  unfold EdgeSet.widenAll
  induction t.edges generalizing s with
  | nil => exact h
  | cons e' edges ih => exact ih (h.widen e')

theorem covers_widenAll (s t : EdgeSet) : ∀ e ∈ t.edges, (s.widenAll t).Covers e := by
  obtain ⟨edges⟩ := t
  unfold EdgeSet.widenAll
  induction edges generalizing s with
  | nil => exact fun e mem => absurd mem List.not_mem_nil
  | cons e edges ih =>
    exact List.forall_mem_cons.mpr ⟨(covers_widen s e).widenAll ⟨edges⟩, ih (s.widen e)⟩

theorem Covers.widen_eq (h : s.Covers e) : s.widen e = s := by
  have same : s.edges.map (joinInto e) = s.edges := by
    refine (List.map_congr_left fun a mem => ?_).trans (List.map_id s.edges)
    unfold joinInto
    split
    · rename_i probe
      rw [Order.join_comm, Order.join_eq_right.mpr (h.orders a mem probe)]
      rfl
    · rfl
  rw [EdgeSet.widen, if_pos h.present, same]

theorem widenAll_of_covers {t : EdgeSet} (h : ∀ e ∈ t.edges, s.Covers e) : s.widenAll t = s := by
  obtain ⟨edges⟩ := t
  unfold EdgeSet.widenAll
  induction edges with
  | nil => rfl
  | cons e edges ih =>
    obtain ⟨first, rest⟩ := List.forall_mem_cons.mp h
    rw [List.foldl_cons, first.widen_eq]
    exact ih rest

theorem widens_eq_false : s.widens e = false ↔ ∃ a, s.find? e.probe = some a ∧
    e.order.le a.order = true := by
  unfold widens
  cases s.find? e.probe <;> simp

theorem mem_of_find? {q : Probe} (found : s.find? q = some a) : a ∈ s.edges ∧ a.probe = q :=
  ⟨List.mem_of_find?_eq_some found, by simpa using List.find?_some found⟩

theorem Covers.not_widens (h : s.Covers e) : s.widens e = false := by
  obtain ⟨a, found⟩ := Option.isSome_iff_exists.mp h.present
  obtain ⟨mem, probe⟩ := mem_of_find? found
  exact widens_eq_false.mpr ⟨a, found, h.orders a mem probe⟩

theorem covers_of_not_widens (tidy : s.probes.Nodup) (h : s.widens e = false) : s.Covers e := by
  obtain ⟨a, found, order⟩ := widens_eq_false.mp h
  obtain ⟨mem, probe⟩ := mem_of_find? found
  refine ⟨contains_iff.mpr ⟨a, mem, probe⟩, fun b there same => ?_⟩
  have one : b = a := List.inj_on_of_nodup_map tidy there mem (same.trans probe.symm)
  rw [one]
  exact order

end EdgeSet

namespace Summary

variable {a s : Summary}

/-- The order of summaries: more probes of higher orders, more consumers, an offset, no
constancy. -/
structure Below (s t : Summary) : Prop where
  probes : ∀ e ∈ s.deps.edges, ∃ a ∈ t.deps.edges, a.probe = e.probe ∧ e.order.le a.order = true
  consumers : ∀ v ∈ s.consumers.items, v ∈ t.consumers.items
  offset : s.offset = true → t.offset = true
  varies : s.constant = false → t.constant = false

theorem Below.refl (s : Summary) : s.Below s :=
  ⟨fun e mem => ⟨e, mem, rfl, Order.le_refl e.order⟩, fun _ => id, id, id⟩

theorem Below.trans {b c : Summary} (ab : a.Below b) (bc : b.Below c) : a.Below c where
  probes e mem := by
    obtain ⟨x, there, probe, order⟩ := ab.probes e mem
    obtain ⟨y, last, probe', order'⟩ := bc.probes x there
    exact ⟨y, last, probe'.trans probe, Order.le_trans order order'⟩
  consumers v mem := bc.consumers v (ab.consumers v mem)
  offset h := bc.offset (ab.offset h)
  varies h := bc.varies (ab.varies h)

theorem below_absorb (a s : Summary) : a.Below (a.absorb s) where
  probes _ mem := EdgeSet.kept_by_widenAll s.deps mem
  consumers _ mem := OrderedSet.mem_union.mpr (.inl mem)
  offset h := by simp [absorb, h]
  varies h := by simp [absorb, h]

/-- A summary that absorbs `s` and stays what it is. -/
structure Covers (a s : Summary) : Prop where
  quiet : a.grows s = false
  kept : a.absorb s = a

theorem grows_eq_false_iff : a.grows s = false ↔
    (∀ e ∈ s.deps.edges, a.deps.widens e = false) ∧
      (∀ v ∈ s.consumers.items, v ∈ a.consumers.items) ∧
      (s.offset = true → a.offset = true) ∧ (s.constant = false → a.constant = false) := by
  simp only [grows, Bool.or_eq_false_iff, OrderedSet.grows_eq_false, List.any_eq_false,
    Bool.not_eq_true, Bool.and_eq_false_imp, Bool.not_eq_eq_eq_not, Bool.not_true, Bool.not_false,
    and_assoc]

theorem Covers.below (h : a.Covers s) : s.Below a := by
  obtain ⟨edges, consumers, offset, varies⟩ := grows_eq_false_iff.mp h.quiet
  refine ⟨fun e mem => ?_, consumers, offset, varies⟩
  obtain ⟨b, found, order⟩ := EdgeSet.widens_eq_false.mp (edges e mem)
  obtain ⟨there, probe⟩ := EdgeSet.mem_of_find? found
  exact ⟨b, there, probe, order⟩

theorem covers_of_edges (edges : ∀ e ∈ s.deps.edges, a.deps.Covers e)
    (consumers : ∀ v ∈ s.consumers.items, v ∈ a.consumers.items)
    (offset : s.offset = true → a.offset = true)
    (varies : s.constant = false → a.constant = false) : a.Covers s := by
  refine ⟨grows_eq_false_iff.mpr ⟨fun e mem => (edges e mem).not_widens, consumers,
    offset, varies⟩, ?_⟩
  have flags : (a.offset || s.offset) = a.offset ∧ (a.constant && s.constant) = a.constant := by
    constructor
    · cases raised : s.offset with
      | false => simp
      | true => simp [offset raised]
    · cases fixed : s.constant with
      | false => simp [varies fixed]
      | true => simp
  rw [absorb, EdgeSet.widenAll_of_covers edges, OrderedSet.union_of_subset consumers,
    flags.1, flags.2]

theorem covers_absorb (a s : Summary) : (a.absorb s).Covers s := by
  refine covers_of_edges (EdgeSet.covers_widenAll a.deps s.deps) ?_ ?_ ?_
  · exact fun v mem => OrderedSet.mem_union.mpr (.inr mem)
  · exact fun raised => by simp [absorb, raised]
  · exact fun fixed => by simp [absorb, fixed]

theorem covers_of_grows (tidy : a.Tidy) (quiet : a.grows s = false) : a.Covers s := by
  obtain ⟨edges, consumers, offset, varies⟩ := grows_eq_false_iff.mp quiet
  exact covers_of_edges (fun e mem => EdgeSet.covers_of_not_widens tidy (edges e mem))
    consumers offset
    varies

end Summary
end Analog
