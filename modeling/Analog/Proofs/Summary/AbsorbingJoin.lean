import Analog.Proofs.Summary.Order

/-!
Absorbing as a join. For summaries that were made by the operations, absorbing gives the least
summary above two, and tells whether the second was not below the first already. What is absorbed in
the end depends on which summaries come, not on their order or on how often they come.
-/
namespace Analog

theorem Order.le_antisymm {a b : Order} (ab : a.le b = true) (ba : b.le a = true) : a = b := by
  simp only [Order.le, decide_eq_true_eq] at ab ba
  exact Order.rank_injective (Nat.le_antisymm ab ba)

theorem Order.join_le {a b c : Order} (ac : a.le c = true) (bc : b.le c = true) :
    (a.join b).le c = true := by
  unfold Order.join
  split
  · exact bc
  · exact ac

namespace EdgeSet

def widenNoting (r : Bool × EdgeSet) (e : Edge) :
    Bool × EdgeSet := (r.2.widens e || r.1, r.2.widen e)

theorem foldl_widenNoting_true (edges : List Edge) (s : EdgeSet) :
    edges.foldl widenNoting (true, s) = (true, edges.foldl widen s) := by
  induction edges generalizing s with
  | nil => rfl
  | cons e edges ih =>
    rw [List.foldl_cons, widenNoting, Bool.or_true]
    exact ih (s.widen e)

theorem foldl_widenNoting {s : EdgeSet} (tidy : s.probes.Nodup) (edges : List Edge) :
    edges.foldl widenNoting (false, s) = (edges.any s.widens, edges.foldl widen s) := by
  induction edges with
  | nil => rfl
  | cons e edges ih =>
    rw [List.foldl_cons, List.foldl_cons, List.any_cons, widenNoting, Bool.or_false]
    cases change : s.widens e with
    | true => exact foldl_widenNoting_true edges (s.widen e)
    | false =>
      rw [(covers_of_not_widens tidy change).widen_eq, Bool.false_or]
      exact ih

theorem widenAll_bounded {s t u : EdgeSet} (tidy : u.probes.Nodup)
    (left : ∀ e ∈ s.edges, ∃ a ∈ u.edges, a.probe = e.probe ∧ e.order.le a.order = true)
    (right : ∀ e ∈ t.edges, ∃ a ∈ u.edges, a.probe = e.probe ∧ e.order.le a.order = true) :
    ∀ e ∈ (s.widenAll t).edges, ∃ a ∈ u.edges, a.probe = e.probe ∧ e.order.le a.order = true := by
  obtain ⟨edges⟩ := t
  unfold widenAll
  induction edges generalizing s with
  | nil => exact left
  | cons new edges ih =>
    obtain ⟨first, rest⟩ := List.forall_mem_cons.mp right
    refine ih (s := s.widen new) ?_ rest
    intro e mem
    unfold widen at mem
    split at mem
    · obtain ⟨old, there, rfl⟩ := List.mem_map.mp mem
      obtain ⟨a, bound, probe, order⟩ := left old there
      rw [probe_joinInto]
      refine ⟨a, bound, probe, ?_⟩
      unfold joinInto
      split
      · rename_i same
        obtain ⟨b, bound', probe', order'⟩ := first
        have one : b = a :=
          List.inj_on_of_nodup_map tidy bound' bound (probe'.trans (same.symm.trans probe.symm))
        exact Order.join_le order (one ▸ order')
      · exact order
    · rcases List.mem_append.mp mem with old | added
      · exact left e old
      · rw [List.mem_singleton.mp added]
        exact first

end EdgeSet

namespace OrderedSet

variable {α : Type} [DecidableEq α]

def insertNoting (r : Bool × OrderedSet α) (a : α) : Bool × OrderedSet α :=
  (!r.2.contains a || r.1, r.2.insert a)

theorem foldl_insertNoting_true (items : List α) (s : OrderedSet α) :
    items.foldl insertNoting (true, s) = (true, items.foldl insert s) := by
  induction items generalizing s with
  | nil => rfl
  | cons a items ih =>
    rw [List.foldl_cons, insertNoting, Bool.or_true]
    exact ih (s.insert a)

theorem foldl_insertNoting (s : OrderedSet α) (items : List α) :
    items.foldl insertNoting (false, s) = (!items.all s.contains, items.foldl insert s) := by
  induction items with
  | nil => rfl
  | cons a items ih =>
    rw [List.foldl_cons, List.foldl_cons, List.all_cons, insertNoting, Bool.or_false]
    cases there : s.contains a with
    | false => exact foldl_insertNoting_true items (s.insert a)
    | true =>
      have same : s.insert a = s := by simp [insert, there]
      rw [same, Bool.true_and]
      exact ih

end OrderedSet

namespace Summary

/-- Summaries that the operations on summaries make. -/
inductive Made : Summary → Prop
  | plain (offset constant : Bool) : Made (.plain offset constant)
  | ofProbe (q : Probe) : Made (.ofProbe q)
  | addDep {s : Summary} (h : s.Made) (e : Edge) : Made (s.addDep e)
  | widen {s : Summary} (h : s.Made) (e : Edge) : Made { s with deps := s.deps.widen e }
  | addConsumer {s : Summary} (h : s.Made) (v : VariableId) : Made (s.addConsumer v)
  | flags {s : Summary} (h : s.Made) (offset constant : Bool) :
    Made { s with offset := offset, constant := constant }
  | absorb {s t : Summary} (hs : s.Made) (ht : t.Made) : Made (s.absorb t)
  | combine {operands : List Summary} (h : ∀ s ∈ operands, s.Made) : Made (.combine operands)
  | multiply {l r : Summary} (hl : l.Made) (hr : r.Made) : Made (.multiply l r)
  | divide {num den : Summary} (hn : num.Made) (hd : den.Made) : Made (.divide num den)
  | logical {operands : List Summary} (h : ∀ s ∈ operands, s.Made) : Made (.logical operands)
  | arbitrary {operands : List Summary} (h : ∀ s ∈ operands, s.Made) : Made (.arbitrary operands)
  | select {cond thn els : Summary} (hc : cond.Made) (ht : thn.Made) (he : els.Made) :
    Made (.select cond thn els)

structure Neat (s : Summary) : Prop where
  tidy : s.Tidy
  consumers : s.consumers.items.Nodup

theorem neat_plain (offset constant : Bool) : (plain offset constant).Neat :=
  ⟨List.nodup_nil, List.nodup_nil⟩

theorem Neat.enter {s : Summary} (h : s.Neat) (source : Summary) (edges : EdgeSet) :
    (s.enter source edges).Neat :=
  ⟨EdgeSet.nodup_union h.tidy edges, OrderedSet.nodup_foldl_insert h.consumers⟩

theorem Neat.absorb {s : Summary} (h : s.Neat) (t : Summary) : (s.absorb t).Neat :=
  ⟨EdgeSet.nodup_widenAll h.tidy t.deps, OrderedSet.nodup_foldl_insert h.consumers⟩

theorem neat_combine (operands : List Summary) : (combine operands).Neat := by
  refine List.foldlRecOn operands _ (neat_plain false true) ?_
  intro r h s _
  exact ⟨(h.enter s s.deps).tidy, (h.enter s s.deps).consumers⟩

theorem neat_uniform (o : Order) (operands : List Summary) : (uniform o operands).Neat := by
  refine List.foldlRecOn operands _ (neat_plain true true) ?_
  intro r h s _
  have entered := h.enter s (s.deps.map fun _ => o)
  exact ⟨entered.tidy, entered.consumers⟩

theorem Made.neat {s : Summary} (h : s.Made) : s.Neat := by
  induction h with
  | plain offset constant => exact neat_plain offset constant
  | ofProbe q => exact ⟨List.nodup_singleton _, List.nodup_nil⟩
  | addDep _ e ih => exact ⟨EdgeSet.nodup_insert ih.tidy e, ih.consumers⟩
  | widen _ e ih => exact ⟨EdgeSet.nodup_widen ih.tidy e, ih.consumers⟩
  | addConsumer _ v ih => exact ⟨ih.tidy, OrderedSet.nodup_insert ih.consumers v⟩
  | flags _ offset constant ih => exact ⟨ih.tidy, ih.consumers⟩
  | absorb _ _ ih _ => exact ih.absorb _
  | combine => exact neat_combine _
  | multiply => exact ((neat_plain _ _).enter _ _).enter _ _
  | divide => exact ((neat_plain _ _).enter _ _).enter _ _
  | logical => exact neat_uniform _ _
  | arbitrary => exact neat_uniform _ _
  | select => exact (((neat_plain _ _).enter _ _).enter _ _).enter _ _

/-- Merges `t` into `s`, part by part, and notes whether anything changed. -/
def merge (s t : Summary) : Bool × Summary :=
  let edges := t.deps.edges.foldl EdgeSet.widenNoting (false, s.deps)
  let consumers := t.consumers.items.foldl OrderedSet.insertNoting (false, s.consumers)
  (edges.1 || consumers.1 || (t.offset && !s.offset) || (!t.constant && s.constant),
    ⟨edges.2, consumers.2, s.offset || t.offset, s.constant && t.constant⟩)

theorem merge_eq {s : Summary} (tidy : s.Tidy) (t : Summary) :
    s.merge t = (s.grows t, s.absorb t) := by
  unfold merge
  rw [EdgeSet.foldl_widenNoting tidy, OrderedSet.foldl_insertNoting]
  rfl

theorem grows_iff {s : Summary} (tidy : s.Tidy) (t : Summary) : s.grows t = true ↔ ¬ t.Below s := by
  constructor
  · intro change below
    have covered : ∀ e ∈ t.deps.edges, s.deps.widens e = false := by
      intro e mem
      obtain ⟨a, there, probe, order⟩ := below.probes e mem
      refine EdgeSet.Covers.not_widens ⟨EdgeSet.contains_iff.mpr ⟨a, there, probe⟩, ?_⟩
      intro b there' probe'
      rw [List.inj_on_of_nodup_map tidy there' there (probe'.trans probe.symm)]
      exact order
    have quiet := grows_eq_false_iff.mpr ⟨covered, below.consumers, below.offset, below.varies⟩
    exact Bool.false_ne_true (quiet.symm.trans change)
  · intro apart
    by_contra quiet
    exact apart (covers_of_grows tidy (Bool.eq_false_of_not_eq_true quiet)).below

/-- The least of the summaries that are made and above both. -/
structure IsJoin (s t u : Summary) : Prop where
  left : s.Below u
  right : t.Below u
  least : ∀ w : Summary, w.Made → s.Below w → t.Below w → u.Below w

theorem absorb_below {s t w : Summary} (tidy : w.Tidy) (left : s.Below w) (right : t.Below w) :
    (s.absorb t).Below w where
  probes := EdgeSet.widenAll_bounded tidy left.probes right.probes
  consumers v mem := (OrderedSet.mem_union.mp mem).elim (left.consumers v) (right.consumers v)
  offset h := (Bool.or_eq_true_iff.mp h).elim left.offset right.offset
  varies h := (Bool.and_eq_false_iff.mp h).elim left.varies right.varies

/-- The same summary, but for the order in which edges and consumers came. -/
structure Rearranged (s t : Summary) : Prop where
  edges : s.deps.edges.Perm t.deps.edges
  consumers : s.consumers.items.Perm t.consumers.items
  offset : s.offset = t.offset
  constant : s.constant = t.constant

theorem mem_edges_of_below {s t : Summary} (tidy : s.Tidy) (st : s.Below t) (ts : t.Below s)
    {e : Edge} (mem : e ∈ s.deps.edges) : e ∈ t.deps.edges := by
  obtain ⟨a, there, probe, order⟩ := st.probes e mem
  obtain ⟨b, back, probe', order'⟩ := ts.probes a there
  have one : b = e := List.inj_on_of_nodup_map tidy back mem (probe'.trans probe)
  subst one
  have same : a = b := by
    cases a
    cases b
    simp only [Edge.mk.injEq]
    exact ⟨probe, Order.le_antisymm order' order⟩
  exact same ▸ there

theorem rearranged_of_below {s t : Summary} (hs : s.Neat) (ht : t.Neat) (st : s.Below t)
    (ts : t.Below s) : s.Rearranged t where
  edges := (List.perm_ext_iff_of_nodup hs.tidy.of_map ht.tidy.of_map).mpr fun _ =>
    ⟨mem_edges_of_below hs.tidy st ts, mem_edges_of_below ht.tidy ts st⟩
  consumers := (List.perm_ext_iff_of_nodup hs.consumers ht.consumers).mpr fun v =>
    ⟨st.consumers v, ts.consumers v⟩
  offset := Bool.eq_iff_iff.mpr ⟨st.offset, ts.offset⟩
  constant := by
    have varies : s.constant = false ↔ t.constant = false := ⟨st.varies, ts.varies⟩
    cases hs : s.constant <;> cases ht : t.constant <;> simp_all

section Lists

variable {s w : Summary} {ts us : List Summary}

theorem neat_absorbAll (h : s.Neat) (ts : List Summary) : (ts.foldl absorb s).Neat :=
  List.foldlRecOn ts absorb h fun _ h t _ => h.absorb t

theorem below_absorbAll (s : Summary) (ts : List Summary) : s.Below (ts.foldl absorb s) :=
  List.foldlRecOn ts absorb (Below.refl s) fun _ h t _ => h.trans (below_absorb _ t)

theorem mem_below_absorbAll {t : Summary} (mem : t ∈ ts) : t.Below (ts.foldl absorb s) := by
  induction ts generalizing s with
  | nil => exact absurd mem List.not_mem_nil
  | cons a ts ih =>
    rcases List.mem_cons.mp mem with rfl | later
    · exact (covers_absorb s t).below.trans (below_absorbAll (s.absorb t) ts)
    · exact ih later

theorem absorbAll_below (tidy : w.Tidy) (first : s.Below w) (all : ∀ t ∈ ts, t.Below w) :
    (ts.foldl absorb s).Below w :=
  List.foldlRecOn (motive := (Below · w)) ts absorb first fun _ h t mem =>
    absorb_below tidy h (all t mem)

theorem absorbAll_rearranged (neat : s.Neat) (same : ∀ t, t ∈ ts ↔ t ∈ us) :
    (ts.foldl absorb s).Rearranged (us.foldl absorb s) := by
  apply rearranged_of_below (neat_absorbAll neat ts) (neat_absorbAll neat us)
  · apply absorbAll_below (neat_absorbAll neat us).tidy (below_absorbAll s us)
    intro t mem
    exact mem_below_absorbAll ((same t).mp mem)
  · apply absorbAll_below (neat_absorbAll neat ts).tidy (below_absorbAll s ts)
    intro t mem
    exact mem_below_absorbAll ((same t).mpr mem)

end Lists

/-- Absorbing is a join. Merging part by part gives what is absorbed and whether it is new; it is
new unless the second summary was below the first, and what is not new changes nothing, not even an
order of entry. The order and the repetitions of a list that is absorbed do not count. -/
theorem absorb_is_join {s t : Summary} (left : s.Made) (right : t.Made) :
    s.merge t = (s.grows t, s.absorb t) ∧ (s.absorb t).Made ∧ s.IsJoin t (s.absorb t) ∧
      (s.grows t = true ↔ ¬ t.Below s) ∧ (s.grows t = false → s.absorb t = s) ∧
      ∀ ts us : List Summary, (∀ u, u ∈ ts ↔ u ∈ us) →
        (ts.foldl absorb s).Rearranged (us.foldl absorb s) := by
  have tidy : s.Tidy := left.neat.tidy
  refine ⟨merge_eq tidy t, left.absorb right, ?_, grows_iff tidy t, ?_, ?_⟩
  · refine ⟨below_absorb s t, (covers_absorb s t).below, ?_⟩
    intro w made first second
    exact absorb_below made.neat.tidy first second
  · intro quiet
    exact (covers_of_grows tidy quiet).kept
  · intro ts us same
    exact absorbAll_rearranged left.neat same

/-- A potential, and its square as it was read by a variable. -/
def bias : Summary := .ofProbe ⟨0, .potential⟩

def squaredBias : Summary := (multiply bias bias).addConsumer 4

theorem absorb_is_join_bias : bias.grows squaredBias = true ∧ squaredBias.grows bias = false ∧
    bias.IsJoin squaredBias ⟨⟨[⟨⟨0, .potential⟩, .quadratic⟩]⟩, ⟨[4]⟩, false, false⟩ ∧
    Rearranged ([squaredBias, varying, squaredBias].foldl absorb bias)
      ([varying, squaredBias].foldl absorb bias) := by
  have made : squaredBias.Made := ((Made.ofProbe _).multiply (.ofProbe _)).addConsumer 4
  obtain ⟨_, _, join, _, _, lists⟩ := absorb_is_join (.ofProbe ⟨0, .potential⟩) made
  refine ⟨by decide, by decide, join, lists _ _ ?_⟩
  simp only [List.mem_cons, List.not_mem_nil, or_false]
  tauto

end Summary
end Analog
