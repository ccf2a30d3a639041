import Analog.Proofs.Circuit.Topology

/-!
The directions of aliases. An alias has the nodes that its reference saw, and is marked as reversed
if the reference was. The mark tells its direction if the branch of the reference runs along its
base; where that is an alias against its base, the mark of the new one tells the opposite.
-/
namespace Analog.Circuit

/-- A circuit made of nodes, branches and aliases, and the reference that each alias was made
for. -/
inductive Aliased : Circuit → List (BranchId × BranchRef) → Prop
  | empty : Aliased empty []
  | node {c c' : Circuit} {links : List (BranchId × BranchRef)} (name : String)
    (before : Aliased c links) (made : (c.addNode name).2.2 = c') : Aliased c' links
  | branch {c c' : Circuit} {links : List (BranchId × BranchRef)} {p n : NodeId} {r : BranchRef}
    (before : Aliased c links) (positive : p < c.nodes.size) (negative : n < c.nodes.size)
    (made : c.connect p n = .ok (r, c')) : Aliased c' links
  | named {c c' : Circuit} {links : List (BranchId × BranchRef)} {r : BranchRef} {b : BranchId}
    (name : String) (before : Aliased c links) (stands : r.branch ∈ c.listed)
      (made : c.addAlias? r name = some (b, c')) :
    Aliased c' ((b, r) :: links)

/-- A branch has the nodes of its base, in the same order. -/
def Along (c : Circuit) (b : BranchId) : Prop :=
  (c.branch b).p = (c.branch (c.base b)).p ∧ (c.branch b).n = (c.branch (c.base b)).n

/-- A branch has the nodes of its base, in the other order. -/
def Against (c : Circuit) (b : BranchId) : Prop :=
  (c.branch b).p = (c.branch (c.base b)).n ∧ (c.branch b).n = (c.branch (c.base b)).p

/-- The mark of a branch tells how its nodes lie to those of its base. -/
def Told (c : Circuit) (b : BranchId) : Prop :=
  ((c.branch b).reversed = true ↔ c.Against b) ∧ ((c.branch b).reversed = false ↔ c.Along b)

/-- An alias by the reference it was made for: its mark is that of the reference alone, but its
direction is composed of that of the reference and that of the branch which the reference is for. -/
structure Directed (c : Circuit) (a : BranchId) (r : BranchRef) : Prop where
  listed : a ∈ c.listed
  stands : r.branch ∈ c.listed
  mark : (c.branch a).reversed = r.reversed
  along : c.Along a ↔ (r.reversed = false ↔ c.Along r.branch)

variable {c c' : Circuit} {links : List (BranchId × BranchRef)} {b : BranchId} {r : BranchRef}
  {name : String} {new : Branch}

theorem Aliased.tidy (h : Aliased c links) : c.Tidy := by
  induction h with
  | empty => exact tidy_empty
  | node name _ made ih => exact made ▸ ih.grownNode name
  | branch _ positive negative made ih => exact ih.connect positive negative made
  | named _ _ stands made ih => exact ih.addAlias stands made

theorem Tidy.against_iff (h : c.Tidy) (mem : b ∈ c.listed) : c.Against b ↔ ¬ c.Along b := by
  obtain ⟨stands, _, ends⟩ := h.base mem
  have apart := h.apart _ (mem_listed.mp stands).1
  rw [Circuit.ends, Circuit.ends, Sym2.eq_iff] at ends
  unfold Along Against
  rcases ends with ⟨positive, negative⟩ | ⟨positive, negative⟩
  · simp [← positive, ← negative, apart]
  · simp [← positive, ← negative, apart.symm]

theorem Tidy.told_iff (h : c.Tidy) (mem : b ∈ c.listed) :
    c.Told b ↔ ((c.branch b).reversed = false ↔ c.Along b) := by
  rw [Told, h.against_iff mem, ← Bool.not_eq_false, not_iff_not, and_self]

theorem Directed.told_iff (d : c.Directed b r) (h : c.Tidy) : c.Told b ↔ c.Along r.branch := by
  rw [h.told_iff d.listed, d.mark, d.along]
  tauto

theorem mem_listed_addBranch : b ∈ (c.addBranch new).2.listed ↔
    b ∈ c.listed ∨ b = c.branches.size ∧ new.listed = true := by
  rw [mem_listed, mem_listed, size_addBranch, branch_addBranch]
  by_cases last : b = c.branches.size
  · simp [last]
  · simp only [last, if_false, false_and, or_false, Nat.lt_succ_iff_lt_or_eq]

theorem branch_of_listed (mem : b ∈ c.listed) : (c.addBranch new).2.branch b = c.branch b := by
  rw [branch_addBranch, if_neg (Nat.ne_of_lt (mem_listed.mp mem).1)]

theorem Tidy.along_addBranch (h : c.Tidy) (mem : b ∈ c.listed) :
    (c.addBranch new).2.Along b ↔ c.Along b := by
  have base : (c.addBranch new).2.base b = c.base b := by
    rw [Circuit.base, Circuit.base, branch_of_listed mem]
  rw [Along, Along, base, branch_of_listed mem, branch_of_listed (h.base mem).1]

theorem Directed.addBranch (d : c.Directed b r) (h : c.Tidy) :
    (c.addBranch new).2.Directed b r where
  listed := mem_listed_addBranch.mpr (.inl d.listed)
  stands := mem_listed_addBranch.mpr (.inl d.stands)
  mark := by rw [branch_of_listed d.listed, d.mark]
  along := by rw [h.along_addBranch d.listed, h.along_addBranch d.stands, d.along]

theorem addAlias?_eq_some (made : c.addAlias? r name = some (b, c')) : ∃ new :
    Branch, b = c.branches.size ∧
    c' = (c.addBranch new).2 ∧ new.listed = true ∧ new.p = c.refP r ∧ new.n = c.refN r ∧
    new.base = some (c.base r.branch) ∧ new.reversed = r.reversed := by
  unfold addAlias? at made
  split at made
  · cases made
  · cases made
    exact ⟨_, rfl, rfl, rfl, rfl, rfl, rfl, rfl⟩

theorem Tidy.directed (h : c.Tidy) (stands : r.branch ∈ c.listed)
    (made : c.addAlias? r name = some (b, c')) : c'.Directed b r := by
  obtain ⟨new, rfl, rfl, listed, p, n, base, mark⟩ := addAlias?_eq_some made
  have own : (c.addBranch new).2.branch c.branches.size = new := by
    rw [branch_addBranch, if_pos rfl]
  have stand : (c.addBranch new).2.base c.branches.size = c.base r.branch := by
    rw [Circuit.base, own, base, Option.getD_some]
  refine ⟨mem_listed_addBranch.mpr (.inr ⟨rfl, listed⟩), mem_listed_addBranch.mpr (.inl stands),
    by rw [own, mark], ?_⟩
  have other := h.against_iff stands
  rw [h.along_addBranch stands]
  unfold Along Against at *
  rw [own, stand, branch_of_listed (h.base stands).1, p, n, refP, refN]
  cases r.reversed with
  | false => simp
  | true =>
    -- seen from the other side, along the base is against it
    rw [if_pos rfl, if_pos rfl, and_comm, other]
    simp

theorem alias_of_addBranch (mem : b ∈ (c.addBranch new).2.listed)
    (known : ((c.addBranch new).2.branch b).isAlias = true) :
    b ∈ c.listed ∧ (c.branch b).isAlias = true ∨ b = c.branches.size ∧ new.isAlias = true := by
  rcases mem_listed_addBranch.mp mem with old | ⟨rfl, -⟩
  · rw [branch_of_listed old] at known
    exact .inl ⟨old, known⟩
  · rw [branch_addBranch, if_pos rfl] at known
    exact .inr ⟨rfl, known⟩

theorem Aliased.directed (h : Aliased c links) :
      (∀ a ∈ c.listed, (c.branch a).isAlias = true → ∃ r, (a, r) ∈ links) ∧
      ∀ a r, (a, r) ∈ links → c.Directed a r := by
  induction h with
  | empty => simp [listed, Circuit.empty]
  | node _ before made ih =>
    unfold addNode at made
    split at made
    · exact made ▸ ih
    · subst made
      refine ⟨ih.1, fun a r mem => ?_⟩
      obtain ⟨listed, stands, mark, along⟩ := ih.2 a r mem
      exact ⟨listed, stands, mark, along⟩
  | branch before positive negative made ih =>
    obtain ⟨_, ⟨_, rfl⟩ | ⟨_, _, rfl⟩⟩ := connect_cases made
    · exact ih
    · refine ⟨fun a mem known => ?_, fun a r mem => (ih.2 a r mem).addBranch before.tidy⟩
      obtain ⟨old, known⟩ | ⟨-, plain⟩ := alias_of_addBranch mem known
      · exact ih.1 a old known
      · cases plain
  | named _ before stands made ih =>
    have directed := before.tidy.directed stands made
    obtain ⟨new, rfl, rfl, -⟩ := addAlias?_eq_some made
    refine ⟨fun a mem known => ?_, fun a r mem => ?_⟩
    · obtain ⟨old, known⟩ | ⟨rfl, -⟩ := alias_of_addBranch mem known
      · obtain ⟨r, mem⟩ := ih.1 a old known
        exact ⟨r, .tail _ mem⟩
      · exact ⟨_, .head _⟩
    · rcases List.mem_cons.mp mem with new | old
      · cases new
        exact directed
      · exact (ih.2 a r old).addBranch before.tidy

/-- Every alias was made for a reference, and its mark tells its direction exactly if the branch of
the reference runs along its base. -/
theorem alias_told_iff_along (h : Aliased c links) :
    (∀ a ∈ c.listed, (c.branch a).isAlias = true → ∃ r, (a, r) ∈ links) ∧
      ∀ a r, (a, r) ∈ links → c.Directed a r ∧ (c.Told a ↔ c.Along r.branch) :=
  ⟨h.directed.1, fun a r mem => ⟨h.directed.2 a r mem, (h.directed.2 a r mem).told_iff h.tidy⟩⟩

def crossedNodes : Array Node := #[⟨groundName, none⟩, ⟨"p", none⟩, ⟨"n", none⟩]

def crossedBranches : Array Branch :=
  #[.plain 1 2, { Branch.plain 2 1 with name := "x", base := some 0, reversed := true }]

/-- A branch, a name for it in the other direction, and a second name for that one. -/
def crossed : Circuit :=
  ⟨crossedNodes, crossedBranches.push { Branch.plain 2 1 with name := "y", base := some 0 }, 0⟩

theorem aliased_crossed : Aliased crossed [(2, ⟨1, false⟩), (1, ⟨0, true⟩)] := by
  have first : Aliased ⟨#[⟨groundName, none⟩, ⟨"p", none⟩], #[], 0⟩ [] :=
    .node "p" .empty (by decide +kernel)
  have second : Aliased ⟨crossedNodes, #[], 0⟩ [] := .node "n" first (by decide +kernel)
  have joined : Aliased ⟨crossedNodes, #[.plain 1 2], 0⟩ [] :=
    .branch (p := 1) (n := 2) (r := ⟨0, false⟩) second (by decide) (by decide) (by cbv)
  have named : Aliased ⟨crossedNodes, crossedBranches, 0⟩ [(1, ⟨0, true⟩)] :=
    .named "x" joined (by decide +kernel) (by decide +kernel)
  exact .named "y" named (by decide +kernel) (by decide +kernel)

theorem alias_told_iff_along_crossed : Aliased crossed [(2, ⟨1, false⟩), (1, ⟨0, true⟩)] ∧
    crossed.Directed 1 ⟨0, true⟩ ∧ (crossed.Told 1 ↔ crossed.Along 0) :=
  ⟨aliased_crossed, (alias_told_iff_along aliased_crossed).2 1 ⟨0, true⟩ (by decide)⟩

/-- The second name runs against the branch that both stand for, but is not marked as reversed. -/
theorem second_alias_untold : (∃ links, Aliased crossed links) ∧ 2 ∈ crossed.listed ∧
    (crossed.branch 2).isAlias = true ∧ crossed.Against 2 ∧ ¬ crossed.Told 2 := by
  have against : crossed.Against 2 := ⟨by decide +kernel, by decide +kernel⟩
  have mark : (crossed.branch 2).reversed = false := by decide +kernel
  refine ⟨⟨_, aliased_crossed⟩, by decide +kernel, by decide +kernel, against, fun told => ?_⟩
  exact absurd (told.1.mpr against) (by rw [mark]; decide)

end Analog.Circuit
