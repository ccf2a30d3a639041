import Mathlib
import Analog.Resolve

/-!
How circuits and designs grow. Work on a design adds nodes and branches, counts uses and assigns
variables; what a number or a name meant before, it means afterwards. A design is well formed when
every number that it holds names something.
-/
namespace Analog

section Numbered

variable {α : Type} (xs : Array α) (default : α)

theorem getD_modify (i j : Nat) (f : α → α) :
    (xs.modify j f).getD i default = if i = j ∧ j < xs.size then f (xs.getD j default)
    else xs.getD i default := by
  simp only [Array.getD_eq_getD_getElem?, Array.getElem?_modify]
  by_cases same : j = i
  · subst same
    by_cases inside : j < xs.size
    · simp [inside]
    · simp [inside]
  · have other : ¬ i = j := fun e => same e.symm
    simp [same, other]

theorem getD_push (new : α) (i : Nat) :
    (xs.push new).getD i default = if i = xs.size then new else xs.getD i default := by
  simp only [Array.getD_eq_getD_getElem?, Array.getElem?_push]
  split <;> simp_all

theorem getD_of_size_le {i : Nat} (outside : xs.size ≤ i) : xs.getD i default = default := by
  simp [Array.getD_eq_getD_getElem?, outside]

end Numbered

/-- A branch as it was built, without its counters. -/
def Branch.uncounted (b : Branch) : Branch := { b with usage := .zero }

namespace Circuit

theorem branch_modifyBranch (c : Circuit) (a b : BranchId) (f : Branch → Branch) :
      (c.modifyBranch b f).branch a =
      if a = b ∧ b < c.branches.size then f (c.branch b) else c.branch a :=
  getD_modify c.branches default a b f

@[simp] theorem size_modifyBranch (c : Circuit) (b : BranchId) (f : Branch → Branch) :
    (c.modifyBranch b f).branches.size = c.branches.size := by
  simp [modifyBranch]

theorem branch_of_size_le {c : Circuit} {b : BranchId} (outside : c.branches.size ≤ b) :
    c.branch b = default :=
  getD_of_size_le c.branches default outside

theorem branch_addBranch (c : Circuit) (new : Branch) (b : BranchId) :
    (c.addBranch new).2.branch b = if b = c.branches.size then new else c.branch b :=
  getD_push c.branches default new b

@[simp] theorem size_addBranch (c : Circuit) (new : Branch) :
    (c.addBranch new).2.branches.size = c.branches.size + 1 := by
  simp [addBranch]

/-- A circuit without its counters. -/
def uncounted (c : Circuit) : Circuit := { c with branches := c.branches.map Branch.uncounted }

theorem uncounted_setCount (c : Circuit) (b : BranchId) (u : Usage) (n : Nat) :
    (c.setCount b u n).uncounted = c.uncounted := by
  have same : (c.branches.modify b fun branch =>
      { branch with usage := branch.usage.set u n }).map Branch.uncounted =
        c.branches.map Branch.uncounted := by
    apply Array.ext
    · simp
    · intro i hi hi'
      simp only [Array.getElem_map, Array.getElem_modify]
      split <;> rfl
  simp only [uncounted, setCount, modifyBranch, same]

theorem uncounted_take (c : Circuit) (b : BranchId) (u : Usage) :
    (c.take b u).uncounted = c.uncounted := by
  simp only [take]
  split <;> simp [raiseOne, uncounted_setCount]

theorem branch_uncounted (c : Circuit) (b : BranchId) :
    c.uncounted.branch b = (c.branch b).uncounted := by
  simp only [branch, uncounted, Array.getD_eq_getD_getElem?, Array.getElem?_map]
  cases c.branches[b]? <;> rfl

section Recounted

variable {c c' : Circuit} (same : c'.uncounted = c.uncounted)

include same

theorem nodes_eq_of_uncounted : c'.nodes = c.nodes := by
  have nodes := congrArg (fun x : Circuit => x.nodes) same
  exact nodes

theorem size_eq_of_uncounted : c'.branches.size = c.branches.size := by
  have sizes := congrArg (fun x : Circuit => x.branches.size) same
  simpa [uncounted] using sizes

theorem branch_eq_of_uncounted (b : BranchId) :
    (c'.branch b).uncounted = (c.branch b).uncounted := by
  rw [← branch_uncounted, ← branch_uncounted, same]

end Recounted

end Circuit

section SameBranch

variable {a b : Branch} (same : a.uncounted = b.uncounted)

include same

theorem Branch.base_eq_of_uncounted : a.base = b.base := by
  have bases := congrArg (fun x : Branch => x.base) same
  exact bases

theorem Branch.name_eq_of_uncounted : a.name = b.name := by
  have names := congrArg (fun x : Branch => x.name) same
  exact names

theorem Branch.isAlias_eq_of_uncounted : a.isAlias = b.isAlias := by
  simp only [Branch.isAlias, Branch.base_eq_of_uncounted same]

end SameBranch

structure Branch.Unneeded (b : Branch) : Prop where
  itself : b.needed = .empty
  potential : b.potentialNeeded = .empty
  flow : b.flowNeeded = .empty

theorem Branch.unneeded_plain (p n : NodeId) : (Branch.plain p n).Unneeded := ⟨rfl, rfl, rfl⟩

theorem Branch.Unneeded.of_uncounted {a b : Branch} (h : b.Unneeded)
    (same : a.uncounted = b.uncounted) : a.Unneeded where
  itself := (congrArg Branch.needed same).trans h.itself
  potential := (congrArg Branch.potentialNeeded same).trans h.potential
  flow := (congrArg Branch.flowNeeded same).trans h.flow

namespace Circuit

variable {a c c' : Circuit} {q : Branch → Bool} {b : BranchId} {n p : NodeId} {r : BranchRef}
  {new : Branch} {nodes : Array Node} {stem name : String}

def firstBranch? (c : Circuit) (q : Branch → Bool) : Option BranchId :=
  (List.range c.branches.size).find? fun b => q (c.branch b)

def joins (p n : NodeId) (b : Branch) : Bool := b.listed && (!b.isAlias && b.p == p && b.n == n)

def isNamed (name : String) (b : Branch) : Bool := b.listed && (b.isAlias && b.name == name)

theorem findPair?_eq (c : Circuit) (p n : NodeId) :
    c.findPair? p n = c.firstBranch? (joins p n) := by
  simp only [findPair?, firstBranch?, listed, joins, List.find?_filter, Bool.decide_and,
    Bool.decide_eq_true]

theorem lookup?_eq (c : Circuit) (name : String) :
    c.lookup? name = c.firstBranch? (isNamed name) := by
  simp only [lookup?, firstBranch?, listed, isNamed, List.find?_filter, Bool.decide_and,
    Bool.decide_eq_true]

theorem firstBranch?_eq_some : c.firstBranch? q = some b ↔
      b < c.branches.size ∧ q (c.branch b) = true ∧ ∀ a < b, q (c.branch a) = false := by
  simp only [firstBranch?, List.find?_range_eq_some, List.mem_range]
  constructor
  · rintro ⟨holds, inside, before⟩
    exact ⟨inside, holds, fun a h => by simpa using before a h⟩
  · rintro ⟨inside, holds, before⟩
    exact ⟨holds, inside, fun a h => by simpa using before a h⟩

theorem firstBranch?_eq_none :
    c.firstBranch? q = none ↔ ∀ b < c.branches.size, q (c.branch b) = false := by
  simp [firstBranch?]

def between? (c : Circuit) (p n : NodeId) : Option BranchRef :=
  match c.findPair? p n with
  | some b => some ⟨b, false⟩
  | none => (c.findPair? n p).map (⟨·, true⟩)

theorem connect_cases (h : c.connect p n = .ok (r, c')) :
      p ≠ n ∧ (c.between? p n = some r ∧ c' = c ∨
      c.between? p n = none ∧ r = ⟨c.branches.size, false⟩ ∧
      c' = (c.addBranch (.plain p n)).2) := by
  unfold connect at h
  by_cases loop : p = n
  · simp [loop] at h
  · refine ⟨loop, ?_⟩
    simp only [beq_iff_eq, loop, ↓reduceIte] at h
    unfold between?
    cases forward : c.findPair? p n with
    | some b =>
      rw [forward] at h
      cases h
      exact .inl ⟨rfl, rfl⟩
    | none =>
      rw [forward] at h
      cases backward : c.findPair? n p with
      | some b =>
        rw [backward] at h
        cases h
        exact .inl ⟨rfl, rfl⟩
      | none =>
        rw [backward] at h
        cases h
        exact .inr ⟨rfl, rfl, rfl⟩

/-- What `c'` has beyond `c` is new: it has the branches of `c`, and finds the same branch between
two nodes of `c`. Nothing needs a new branch yet. -/
structure Remains (c c' : Circuit) : Prop where
  nodes : c.nodes.size ≤ c'.nodes.size
  branches : c.branches.size ≤ c'.branches.size
  kept : ∀ b < c.branches.size, (c'.branch b).uncounted = (c.branch b).uncounted
  unneeded : ∀ b, c.branches.size ≤ b → (c'.branch b).Unneeded
  found : ∀ p n r, p < c.nodes.size → n < c.nodes.size → c.between? p n = some r →
    c'.between? p n = some r

/-- Besides, there are no new aliases. -/
structure Extends (c c' : Circuit) : Prop extends c.Remains c' where
  added : ∀ b, c.branches.size ≤ b → (c'.branch b).isAlias = false

/-- There is a ground node, and what an alias stands for is a branch and no alias. -/
structure WellFormed (c : Circuit) : Prop where
  ground : 0 < c.nodes.size
  base : ∀ a b, (c.branch a).base = some b → b < c.branches.size ∧ (c.branch b).isAlias = false

theorem isAlias_of_size_le (outside : c.branches.size ≤ b) : (c.branch b).isAlias = false := by
  rw [branch_of_size_le outside]
  rfl

theorem unneeded_of_size_le (outside : c.branches.size ≤ b) : (c.branch b).Unneeded := by
  rw [branch_of_size_le outside]
  exact Branch.unneeded_plain 0 0

theorem firstBranch?_congr (size : c'.branches.size = c.branches.size)
    (same : ∀ b, q (c'.branch b) = q (c.branch b)) : c'.firstBranch? q = c.firstBranch? q := by
  simp only [firstBranch?, size, same]

theorem between?_eq_of_uncounted (same : c'.uncounted = c.uncounted) (p n : NodeId) :
    c'.between? p n = c.between? p n := by
  have pair : ∀ p n, c'.findPair? p n = c.findPair? p n := by
    intro p n
    rw [findPair?_eq, findPair?_eq]
    apply firstBranch?_congr (size_eq_of_uncounted same)
    intro b
    have joined := congrArg (joins p n) (branch_eq_of_uncounted same b)
    exact joined
  simp only [between?, pair]

theorem extends_of_uncounted (same : c'.uncounted = c.uncounted) : c.Extends c' where
  nodes := by rw [nodes_eq_of_uncounted same]
  branches := by rw [size_eq_of_uncounted same]
  kept b _ := branch_eq_of_uncounted same b
  unneeded b outside := unneeded_of_size_le (by rw [size_eq_of_uncounted same]; exact outside)
  found p n r _ _ h := by rw [between?_eq_of_uncounted same]; exact h
  added b outside := isAlias_of_size_le (by rw [size_eq_of_uncounted same]; exact outside)

theorem Extends.refl (c : Circuit) : c.Extends c := extends_of_uncounted rfl

theorem Remains.trans {b : Circuit} (ab : a.Remains b) (bc : b.Remains c) : a.Remains c where
  nodes := Nat.le_trans ab.nodes bc.nodes
  branches := Nat.le_trans ab.branches bc.branches
  kept x inside := by
    rw [bc.kept x (Nat.lt_of_lt_of_le inside ab.branches), ab.kept x inside]
  unneeded x outside := by
    by_cases inside : x < b.branches.size
    · exact (ab.unneeded x outside).of_uncounted (bc.kept x inside)
    · exact bc.unneeded x (Nat.le_of_not_lt inside)
  found p n r hp hn h :=
    bc.found p n r (Nat.lt_of_lt_of_le hp ab.nodes) (Nat.lt_of_lt_of_le hn ab.nodes)
      (ab.found p n r hp hn h)

theorem Extends.trans {b : Circuit} (ab : a.Extends b) (bc : b.Extends c) : a.Extends c where
  toRemains := ab.toRemains.trans bc.toRemains
  added x outside := by
    by_cases inside : x < b.branches.size
    · rw [Branch.isAlias_eq_of_uncounted (bc.kept x inside)]
      exact ab.added x outside
    · exact bc.added x (Nat.le_of_not_lt inside)

theorem WellFormed.of_uncounted (same : c'.uncounted = c.uncounted) (wf : c.WellFormed) :
    c'.WellFormed where
  ground := by rw [nodes_eq_of_uncounted same]; exact wf.ground
  base a b h := by
    rw [Branch.base_eq_of_uncounted (branch_eq_of_uncounted same a)] at h
    rw [size_eq_of_uncounted same, Branch.isAlias_eq_of_uncounted (branch_eq_of_uncounted same b)]
    exact wf.base a b h

theorem between?_eq_none : c.between? p n = none ↔ c.findPair? p n = none ∧
    c.findPair? n p = none := by
  unfold between?
  cases c.findPair? p n <;> simp

theorem firstBranch?_addBranch (new : Branch) (h : c.firstBranch? q = some b) :
    (c.addBranch new).2.firstBranch? q = some b := by
  obtain ⟨inside, holds, before⟩ := firstBranch?_eq_some.mp h
  refine firstBranch?_eq_some.mpr ⟨?_, ?_, ?_⟩
  · rw [size_addBranch]
    exact Nat.lt_succ_of_lt inside
  · rw [branch_addBranch, if_neg (Nat.ne_of_lt inside)]
    exact holds
  · intro a ha
    rw [branch_addBranch, if_neg (Nat.ne_of_lt (Nat.lt_trans ha inside))]
    exact before a ha

theorem firstBranch?_addBranch_none (h : c.firstBranch? q = none) (other : q new = false) :
    (c.addBranch new).2.firstBranch? q = none := by
  refine firstBranch?_eq_none.mpr ?_
  intro b inside
  rw [branch_addBranch]
  split
  · exact other
  · rename_i old
    rw [size_addBranch] at inside
    exact firstBranch?_eq_none.mp h b (Nat.lt_of_le_of_ne (Nat.le_of_lt_succ inside) old)

theorem remains_addBranch (unneeded : new.Unneeded)
    (free : new.isAlias = false → new.p < c.nodes.size → new.n < c.nodes.size →
      c.between? new.p new.n = none) :
    c.Remains (c.addBranch new).2 where
  nodes := Nat.le_refl _
  branches := by simp
  kept b inside := by rw [branch_addBranch, if_neg (Nat.ne_of_lt inside)]
  unneeded b outside := by
    rw [branch_addBranch]
    split
    · exact unneeded
    · exact unneeded_of_size_le outside
  found p n r hp hn h := by
    unfold between? at h ⊢
    rw [findPair?_eq, findPair?_eq] at *
    cases forward : c.firstBranch? (joins p n) with
    | some b =>
      rw [forward] at h
      rw [firstBranch?_addBranch new forward]
      exact h
    | none =>
      rw [forward] at h
      obtain ⟨b, backward, rfl⟩ := Option.map_eq_some_iff.mp h
      have other : joins p n new = false := by
        -- otherwise the branch found from the other side would join the same two nodes
        by_contra joined
        simp only [joins, Bool.not_eq_false, Bool.and_eq_true, Bool.not_eq_true',
          beq_iff_eq] at joined
        obtain ⟨_, ⟨own, rfl⟩, rfl⟩ := joined
        have none := (between?_eq_none.mp (free own hp hn)).2
        rw [findPair?_eq, backward] at none
        cases none
      rw [firstBranch?_addBranch_none forward other, firstBranch?_addBranch new backward]
      rfl

theorem extends_addBranch (own : new.isAlias = false) (unneeded : new.Unneeded)
    (free : new.p < c.nodes.size → new.n < c.nodes.size → c.between? new.p new.n = none) :
    c.Extends (c.addBranch new).2 where
  toRemains := remains_addBranch unneeded fun _ => free
  added b outside := by
    rw [branch_addBranch]
    split
    · exact own
    · exact isAlias_of_size_le outside

theorem WellFormed.addBranch (wf : c.WellFormed)
    (base : ∀ b, new.base = some b → b < c.branches.size ∧ (c.branch b).isAlias = false) :
    (c.addBranch new).2.WellFormed where
  ground := wf.ground
  base a b h := by
    have known : b < c.branches.size ∧ (c.branch b).isAlias = false := by
      rw [branch_addBranch] at h
      split at h
      · exact base b h
      · exact wf.base a b h
    rw [size_addBranch, branch_addBranch, if_neg (Nat.ne_of_lt known.1)]
    exact ⟨Nat.lt_succ_of_lt known.1, known.2⟩

theorem filterName_injective {j k : Nat} (h : filterName stem j = filterName stem k) : j = k := by
  unfold filterName at h
  have digits : toString j = toString k := by simpa using h
  exact Nat.repr_injective digits

theorem mem_names_of_findNode? (h : c.findNode? name ≠ none) :
    name ∈ c.nodes.toList.map (·.name) := by
  rw [Ne, findNode?, Array.findIdx?_eq_none_iff] at h
  push Not at h
  obtain ⟨node, mem, same⟩ := h
  exact List.mem_map.mpr ⟨node, by simpa using mem, by simpa using same⟩

theorem freeFilterFuel_used {fuel k : Nat}
    (used : c.findNode? (filterName stem (c.freeFilterFuel stem fuel k)) ≠ none) :
    ∀ j < fuel, c.findNode? (filterName stem (k + j)) ≠ none := by
  induction fuel generalizing k with
  | zero => intro j hj; omega
  | succ fuel ih =>
    intro j hj
    unfold freeFilterFuel at used
    cases here : c.findNode? (filterName stem k) with
    | none =>
      rw [here] at used
      exact absurd here used
    | some i =>
      rw [here] at used
      cases j with
      | zero => simp [here]
      | succ j =>
        have later := ih used j (by omega)
        rw [show k + (j + 1) = k + 1 + j by omega]
        exact later

/-- There are fewer nodes than names to try. -/
theorem exists_freeName (c : Circuit) (stem : String) :
    ∃ j ≤ c.nodes.size, c.findNode? (filterName stem (c.filters + j)) = none := by
  by_contra used
  push Not at used
  let names := (List.range (c.nodes.size + 1)).map fun j => filterName stem (c.filters + j)
  have distinct : names.Nodup := by
    refine List.nodup_range.map ?_
    intro i j same
    have := filterName_injective same
    omega
  have inside : names ⊆ c.nodes.toList.map (·.name) := by
    intro name mem
    obtain ⟨j, hj, rfl⟩ := List.mem_map.mp mem
    exact mem_names_of_findNode? (used j (Nat.le_of_lt_succ (List.mem_range.mp hj)))
  have bound := distinct.length_le_of_subset inside
  simp [names] at bound

theorem findNode?_freeFilter (c : Circuit) (stem : String) :
    c.findNode? (filterName stem (c.freeFilter stem)) = none := by
  by_contra used
  obtain ⟨j, few, free⟩ := c.exists_freeName stem
  exact freeFilterFuel_used used j (Nat.lt_succ_of_le few) free

theorem addFilter_eq (c : Circuit) (stem : String) :
    c.addFilter stem = (c.branches.size,
      (addBranch ⟨c.nodes.push ⟨filterName stem (c.freeFilter stem), none⟩,
      c.branches, c.freeFilter stem + 1⟩ { Branch.plain c.nodes.size Analog.ground with filter :=
      true }).2) := by
  simp only [addFilter, addNode, findNode?_freeFilter]
  rfl

theorem extends_withNodes (c : Circuit) (more : c.nodes.size ≤ nodes.size) (k : Nat) :
    c.Extends ⟨nodes, c.branches, k⟩ where
  nodes := more
  branches := Nat.le_refl _
  kept _ _ := rfl
  unneeded _ outside := unneeded_of_size_le outside
  found _ _ _ _ _ h := h
  added _ outside := isAlias_of_size_le outside

theorem WellFormed.withNodes (wf : c.WellFormed) (more : c.nodes.size ≤ nodes.size) (k : Nat) :
    WellFormed ⟨nodes, c.branches, k⟩ :=
  ⟨Nat.lt_of_lt_of_le wf.ground more, wf.base⟩

theorem extends_addFilter (c : Circuit) (stem : String) : c.Extends (c.addFilter stem).2 := by
  rw [addFilter_eq]
  let new : Branch := { Branch.plain c.nodes.size Analog.ground with filter := true }
  have branch : c.Extends (c.addBranch new).2 :=
    extends_addBranch rfl ⟨rfl, rfl, rfl⟩ fun inside _ => absurd inside (Nat.lt_irrefl _)
  exact branch.trans (extends_withNodes _ (by simp [addBranch]) _)

theorem WellFormed.addFilter (wf : c.WellFormed) (stem : String) :
    (c.addFilter stem).2.WellFormed := by
  rw [addFilter_eq]
  exact (wf.withNodes (by simp) _).addBranch (by simp [Branch.plain])

theorem connect_extends (h : c.connect p n = .ok (r, c')) : c.Extends c' := by
  obtain ⟨_, ⟨_, rfl⟩ | ⟨free, _, rfl⟩⟩ := connect_cases h
  · exact Extends.refl _
  · exact extends_addBranch rfl (Branch.unneeded_plain p n) fun _ _ => free

theorem WellFormed.connect (wf : c.WellFormed) (h : c.connect p n = .ok (r, c')) :
    c'.WellFormed := by
  obtain ⟨_, ⟨_, rfl⟩ | ⟨_, _, rfl⟩⟩ := connect_cases h
  · exact wf
  · exact wf.addBranch (by simp [Branch.plain])

theorem lookup?_lt (h : c.lookup? name = some b) : b < c.branches.size := by
  rw [lookup?_eq] at h
  exact (firstBranch?_eq_some.mp h).1

structure Joins (c : Circuit) (r : BranchRef) (p n : NodeId) : Prop where
  inside : r.branch < c.branches.size
  own : (c.branch r.branch).isAlias = false
  positive : c.refP r = p
  negative : c.refN r = n

theorem joins_of_firstBranch? (h : c.firstBranch? (joins p n) = some b) :
    c.Joins ⟨b, false⟩ p n := by
  obtain ⟨inside, holds, _⟩ := firstBranch?_eq_some.mp h
  simp only [joins, Bool.and_eq_true, Bool.not_eq_true', beq_iff_eq] at holds
  obtain ⟨_, ⟨own, rfl⟩, rfl⟩ := holds
  exact ⟨inside, own, rfl, rfl⟩

theorem joins_of_between? (h : c.between? p n = some r) : c.Joins r p n := by
  unfold between? at h
  rw [findPair?_eq, findPair?_eq] at h
  cases forward : c.firstBranch? (joins p n) with
  | some b =>
    rw [forward] at h
    cases h
    exact joins_of_firstBranch? forward
  | none =>
    rw [forward] at h
    obtain ⟨b, backward, rfl⟩ := Option.map_eq_some_iff.mp h
    obtain ⟨inside, own, same, other⟩ := joins_of_firstBranch? backward
    exact ⟨inside, own, other, same⟩

theorem between?_of_connect (h : c.connect p n = .ok (r, c')) : c'.between? p n = some r := by
  obtain ⟨_, ⟨found, rfl⟩ | ⟨free, rfl, rfl⟩⟩ := connect_cases h
  · exact found
  · have forward : (c.addBranch (.plain p n)).2.firstBranch? (joins p n) =
        some c.branches.size := by
      refine firstBranch?_eq_some.mpr ⟨by simp, ?_, ?_⟩
      · rw [branch_addBranch, if_pos rfl]
        simp [joins, Branch.plain, Branch.isAlias]
      · intro a ha
        rw [branch_addBranch, if_neg (Nat.ne_of_lt ha)]
        have none := (between?_eq_none.mp free).1
        rw [findPair?_eq] at none
        exact firstBranch?_eq_none.mp none a ha
    simp only [between?, findPair?_eq, forward]

theorem connect_again {later : Circuit} (h : c.connect p n = .ok (r, c')) (hp : p < c'.nodes.size)
    (hn : n < c'.nodes.size) (ext : c'.Remains later) : later.connect p n = .ok (r, later) := by
  have found := ext.found p n r hp hn (between?_of_connect h)
  have apart := (connect_cases h).1
  unfold between? at found
  unfold connect
  simp only [beq_iff_eq, apart, ↓reduceIte]
  cases forward : later.findPair? p n with
  | some b =>
    rw [forward] at found
    cases found
    rfl
  | none =>
    rw [forward] at found
    obtain ⟨b, backward, rfl⟩ := Option.map_eq_some_iff.mp found
    simp only [backward]

theorem lookup?_extends (ext : c.Extends c') (name : String) :
    c'.lookup? name = c.lookup? name := by
  rw [lookup?_eq, lookup?_eq]
  have old : ∀ b < c.branches.size, isNamed name (c'.branch b) = isNamed name (c.branch b) := by
    intro b inside
    have named := congrArg (isNamed name) (ext.kept b inside)
    exact named
  cases found : c.firstBranch? (isNamed name) with
  | some b =>
    obtain ⟨inside, holds, before⟩ := firstBranch?_eq_some.mp found
    refine firstBranch?_eq_some.mpr ⟨Nat.lt_of_lt_of_le inside ext.branches, ?_, ?_⟩
    · rw [old b inside]
      exact holds
    · intro a ha
      rw [old a (Nat.lt_trans ha inside)]
      exact before a ha
  | none =>
    refine firstBranch?_eq_none.mpr ?_
    intro b _
    by_cases inside : b < c.branches.size
    · rw [old b inside]
      exact firstBranch?_eq_none.mp found b inside
    · simp [isNamed, ext.added b (Nat.le_of_not_lt inside)]

theorem base_remains (ext : c.Remains c') (inside : b < c.branches.size) :
    c'.base b = c.base b := by
  simp only [base, Branch.base_eq_of_uncounted (ext.kept b inside)]

theorem WellFormed.base_lt (wf : c.WellFormed) (inside : b < c.branches.size) :
    c.base b < c.branches.size := by
  rw [Circuit.base]
  cases known : (c.branch b).base with
  | none => exact inside
  | some a => exact (wf.base b a known).1

def NamesAliases (c : Circuit) : Prop := ∀ b, (c.branch b).isAlias = false → (c.branch b).name = ""

structure KeepsNames (c c' : Circuit) : Prop where
  nodes : ∀ i < c.nodes.size, c'.nodeName i = c.nodeName i
  aliases : c.NamesAliases → c'.NamesAliases

theorem KeepsNames.trans {b : Circuit} (ab : a.KeepsNames b) (bc : b.KeepsNames c)
    (more : a.nodes.size ≤ b.nodes.size) : a.KeepsNames c where
  nodes i inside := (bc.nodes i (Nat.lt_of_lt_of_le inside more)).trans (ab.nodes i inside)
  aliases h := bc.aliases (ab.aliases h)

theorem keepsNames_of_uncounted (same : c'.uncounted = c.uncounted) : c.KeepsNames c' where
  nodes i _ := by rw [nodeName, nodeName, node, node, nodes_eq_of_uncounted same]
  aliases h b own := by
    have branch := branch_eq_of_uncounted same b
    rw [Branch.isAlias_eq_of_uncounted branch] at own
    rw [Branch.name_eq_of_uncounted branch]
    exact h b own

theorem KeepsNames.refl (c : Circuit) : c.KeepsNames c := keepsNames_of_uncounted rfl

theorem keepsNames_addBranch (unnamed : new.isAlias = false → new.name = "") :
    c.KeepsNames (c.addBranch new).2 where
  nodes _ _ := rfl
  aliases h b := by
    rw [branch_addBranch]
    split
    · exact unnamed
    · exact h b

theorem keepsNames_withNodes (k : Nat)
    (names : ∀ i < c.nodes.size, (nodes.getD i default).name = c.nodeName i) :
    c.KeepsNames ⟨nodes, c.branches, k⟩ :=
  ⟨names, fun h => h⟩

theorem keepsNames_addNode (c : Circuit) (name : String) (k : Nat) :
    c.KeepsNames ⟨c.nodes.push ⟨name, none⟩, c.branches, k⟩ := by
  refine keepsNames_withNodes k fun i inside => ?_
  rw [getD_push, if_neg (Nat.ne_of_lt inside)]
  rfl

theorem nodeName_addNode (wf : c.WellFormed) (name : String)
    (created : (c.addNode name).2.1 = true) :
    (c.addNode name).2.2.nodeName (c.addNode name).1 = name ∧ (c.addNode name).1 ≠ ground := by
  unfold addNode at created ⊢
  split
  · rename_i found
    simp only [found] at created
    cases created
  · exact ⟨by rw [nodeName, node, getD_push, if_pos rfl], Nat.ne_of_gt wf.ground⟩

theorem keepsNames_addFilter (c : Circuit) (stem : String) : c.KeepsNames (c.addFilter stem).2 := by
  rw [addFilter_eq]
  exact (keepsNames_addNode c _ _).trans (keepsNames_addBranch fun _ => rfl) (by simp)

theorem keepsNames_connect (h : c.connect p n = .ok (r, c')) : c.KeepsNames c' := by
  obtain ⟨_, ⟨_, rfl⟩ | ⟨_, _, rfl⟩⟩ := connect_cases h
  · exact .refl c'
  · exact keepsNames_addBranch fun _ => rfl

end Circuit

def Binding.Inside (d : Design) : Binding → Prop
  | .parameter p => p < d.parameters.size
  | .variable v => v < d.vars.size
  | .port i => i < d.circuit.nodes.size
  | .net i => i < d.circuit.nodes.size
  | .branch b => b < d.circuit.branches.size

theorem mem_of_lookup {α β : Type} [BEq α] [LawfulBEq α] {l : List (α × β)} {a : α} {b : β}
    (h : l.lookup a = some b) : (a, b) ∈ l := by
  obtain ⟨before, after, found, _⟩ := List.lookup_eq_some_iff.mp h
  simp [found]

theorem Binding.Inside.mono {d d' : Design} (circuit : d.circuit.nodes.size ≤ d'.circuit.nodes.size)
    (branches : d.circuit.branches.size ≤ d'.circuit.branches.size)
    (parameters : d.parameters.size ≤ d'.parameters.size) (vars : d.vars.size ≤ d'.vars.size)
    {x : Binding} (h : x.Inside d) : x.Inside d' := by
  cases x with
  | parameter p => exact Nat.lt_of_lt_of_le h parameters
  | «variable» v => exact Nat.lt_of_lt_of_le h vars
  | port i | net i => exact Nat.lt_of_lt_of_le h circuit
  | branch b => exact Nat.lt_of_lt_of_le h branches

instance (d : Design) : DecidablePred (Binding.Inside d)
  | .parameter p => inferInstanceAs (Decidable (p < _))
  | .variable v => inferInstanceAs (Decidable (v < _))
  | .port i => inferInstanceAs (Decidable (i < _))
  | .net i => inferInstanceAs (Decidable (i < _))
  | .branch b => inferInstanceAs (Decidable (b < _))

def Binding.Named (c : Circuit) (name : String) : Binding → Prop
  | .port i | .net i => c.nodeName i = name ∧ i ≠ ground
  | _ => True

theorem Binding.Named.kept {d : Design} {c : Circuit} {name : String} {x : Binding}
    (h : x.Named d.circuit name) (inside : x.Inside d) (names : d.circuit.KeepsNames c) :
    x.Named c name := by
  cases x with
  | port i | net i => exact h.imp_left (names.nodes i inside).trans
  | _ => trivial

/-- Of a parameter that has a value, or is local, it is known whether it was given. -/
def Parameter.Told (p : Parameter) : Prop := p.value.isSome ∨ p.isLocal = true → p.given.isSome

theorem Parameter.told_ofType (name : String) (type : DataType) (isLocal : Bool) :
    (Parameter.ofType name type isLocal).Told := by
  rintro (known | own)
  · cases known
  · cases isLocal
    · cases own
    · rfl

namespace Design

variable {c : Circuit} {d : Design}

structure WellFormed (d : Design) : Prop where
  circuit : d.circuit.WellFormed
  filters : ∀ x ∈ d.filters, x.2 < d.circuit.branches.size ∧ (d.circuit.branch x.2).isAlias = false
  bindings : ∀ s, ∀ x ∈ (d.scopeOf s).bindings, x.2.Inside d
  summaries : ∀ v, (d.variableOf v).summary.deps.probes.Nodup

/-- What a design prints is what it was told: names are those that were declared. -/
structure Faithful (d : Design) : Prop where
  bindings : ∀ s, ∀ x ∈ (d.scopeOf s).bindings, x.2.Named d.circuit x.1
  branches : d.circuit.NamesAliases
  parameters : ∀ p, (d.parameterOf p).Told

/-- What `d'` knows beyond `d` is new, summaries of variables and reaches of scopes apart. -/
structure Extends (d d' : Design) : Prop where
  circuit : d.circuit.Extends d'.circuit
  names : d.circuit.KeepsNames d'.circuit
  bindings : ∀ s, (d'.scopeOf s).bindings = (d.scopeOf s).bindings
  enclosing : ∀ s, (d'.scopeOf s).enclosing = (d.scopeOf s).enclosing
  scopes : d'.scopes.size = d.scopes.size
  parameters : d'.parameters = d.parameters
  vars : d'.vars.size = d.vars.size
  filters : ∀ site b, d.filters.lookup site = some b → d'.filters.lookup site = some b

theorem Extends.refl (d : Design) : d.Extends d :=
  ⟨.refl _, .refl _, fun _ => rfl, fun _ => rfl, rfl, rfl, rfl, fun _ _ h => h⟩

theorem Extends.trans {a b c : Design} (ab : a.Extends b) (bc : b.Extends c) : a.Extends c where
  circuit := ab.circuit.trans bc.circuit
  names := ab.names.trans bc.names ab.circuit.nodes
  bindings s := (bc.bindings s).trans (ab.bindings s)
  enclosing s := (bc.enclosing s).trans (ab.enclosing s)
  scopes := bc.scopes.trans ab.scopes
  parameters := bc.parameters.trans ab.parameters
  vars := bc.vars.trans ab.vars
  filters site b h := bc.filters site b (ab.filters site b h)

theorem Faithful.withCircuit (h : d.Faithful) (wf : d.WellFormed) (names : d.circuit.KeepsNames c) :
    Faithful { d with circuit := c } where
  bindings s x mem := (h.bindings s x mem).kept (wf.bindings s x mem) names
  branches := names.aliases h.branches
  parameters := h.parameters

theorem Faithful.extends {d' : Design} (h : d.Faithful) (wf : d.WellFormed) (ext : d.Extends d') :
    d'.Faithful where
  bindings s x mem := by
    rw [ext.bindings] at mem
    exact (h.bindings s x mem).kept (wf.bindings s x mem) ext.names
  branches := ext.names.aliases h.branches
  parameters p := by
    rw [parameterOf, ext.parameters]
    exact h.parameters p

theorem extends_circuit (ext : d.circuit.Extends c) (names : d.circuit.KeepsNames c) :
    d.Extends { d with circuit := c } :=
  ⟨ext, names, fun _ => rfl, fun _ => rfl, rfl, rfl, rfl, fun _ _ h => h⟩

theorem extends_uncounted (same : c.uncounted = d.circuit.uncounted) :
    d.Extends { d with circuit := c } :=
  extends_circuit (Circuit.extends_of_uncounted same) (Circuit.keepsNames_of_uncounted same)

theorem Extends.lookup? {d' : Design} (ext : d.Extends d') (scope : ScopeId) (name : String) :
    d'.lookup? scope name = d.lookup? scope name := by
  simp only [Design.lookup?, chain, ext.enclosing, ext.bindings]

theorem WellFormed.lookup? (wf : d.WellFormed) {scope : ScopeId} {name : String} {x : Binding}
    (h : d.lookup? scope name = some x) : x.Inside d := by
  obtain ⟨s, _, found⟩ := List.exists_of_findSome?_eq_some h
  exact wf.bindings s (name, x) (mem_of_lookup found)

theorem WellFormed.withCircuit (wf : d.WellFormed) (ext : d.circuit.Extends c)
    (wfc : c.WellFormed) : WellFormed { d with circuit := c } where
  circuit := wfc
  filters x h := by
    obtain ⟨inside, own⟩ := wf.filters x h
    refine ⟨Nat.lt_of_lt_of_le inside ext.branches, ?_⟩
    rw [Branch.isAlias_eq_of_uncounted (ext.kept x.2 inside)]
    exact own
  bindings s x h := by
    refine (wf.bindings s x h).mono ext.nodes ext.branches ?_ ?_ <;> exact Nat.le_refl _
  summaries := wf.summaries

theorem extends_addFilter {site : CallSite} (fresh : d.filters.lookup site = none) (stem : String) :
    d.Extends { d with
      circuit := (d.circuit.addFilter stem).2
      filters := (site, (d.circuit.addFilter stem).1) :: d.filters } where
  circuit := Circuit.extends_addFilter d.circuit stem
  names := Circuit.keepsNames_addFilter d.circuit stem
  bindings _ := rfl
  enclosing _ := rfl
  scopes := rfl
  parameters := rfl
  vars := rfl
  filters other b h := by
    have apart : (other == site) = false := by
      rw [beq_eq_false_iff_ne]
      rintro rfl
      rw [fresh] at h
      cases h
    rw [List.lookup_cons, apart]
    exact h

theorem WellFormed.addFilter (wf : d.WellFormed) (site : CallSite) (stem : String) :
    WellFormed { d with
      circuit := (d.circuit.addFilter stem).2
      filters := (site, (d.circuit.addFilter stem).1) :: d.filters } where
  circuit := wf.circuit.addFilter stem
  filters x h := by
    have grown := wf.withCircuit (Circuit.extends_addFilter d.circuit stem)
      (wf.circuit.addFilter stem)
    rcases List.mem_cons.mp h with rfl | h
    · rw [Circuit.addFilter_eq]
      refine ⟨by simp, ?_⟩
      rw [Circuit.branch_addBranch]
      simp [Branch.isAlias, Branch.plain]
    · exact grown.filters x h
  bindings := (wf.withCircuit (Circuit.extends_addFilter d.circuit stem)
    (wf.circuit.addFilter stem)).bindings
  summaries := wf.summaries

end Design
end Analog
