import Analog.Proofs.Design.Growth

/-!
Circuits as they are built. Whatever nodes, branches, aliases and filters are added, whatever uses
are counted and whenever branches are pruned, names mean one node or one alias, two nodes have one
branch between them, and an alias stands for a branch that is listed.
-/
namespace Analog

def Branch.frame (b : Branch) : Branch := { b.uncounted with listed := true }

theorem Branch.frame_eq {a b : Branch} (same : a.frame = b.frame) :
    a.p = b.p ∧ a.n = b.n ∧ a.name = b.name ∧ a.base = b.base := by
  cases a
  cases b
  simp_all [frame, uncounted]

namespace Circuit

def ends (c : Circuit) (b : BranchId) : Sym2 NodeId := s((c.branch b).p, (c.branch b).n)

/-- What every change of a circuit keeps. -/
structure Tidy (c : Circuit) : Prop where
  ground : c.findNode? groundName = some Analog.ground
  nodes : ∀ i < c.nodes.size, c.findNode? (c.nodeName i) = some i
  inside : ∀ b < c.branches.size, (c.branch b).p < c.nodes.size ∧ (c.branch b).n < c.nodes.size
  apart : ∀ b < c.branches.size, (c.branch b).p ≠ (c.branch b).n
  single : ∀ a ∈ c.listed, ∀ b ∈ c.listed, (c.branch a).isAlias = false →
    (c.branch b).isAlias = false →
    c.ends a = c.ends b → a = b
  named : ∀ a ∈ c.listed, ∀ b ∈ c.listed, (c.branch a).isAlias = true →
    (c.branch b).isAlias = true →
    (c.branch a).name = (c.branch b).name → a = b
  based : ∀ a ∈ c.listed, ∀ b, (c.branch a).base = some b →
    b ∈ c.listed ∧ (c.branch b).isAlias = false ∧ c.ends b = c.ends a

theorem mem_listed {c : Circuit} {b : BranchId} : b ∈ c.listed ↔ b < c.branches.size ∧
    (c.branch b).listed = true := by
  simp [listed]

theorem listed_eq_of_uncounted {c c' : Circuit} (same : c'.uncounted = c.uncounted) :
    c'.listed = c.listed := by
  have flag : ∀ b, (c'.branch b).listed = (c.branch b).listed := fun b => by
    have all := congrArg Branch.listed (branch_eq_of_uncounted same b)
    exact all
  simp only [listed, size_eq_of_uncounted same, flag]

theorem findNode?_push (c : Circuit) (name other : String) (k : Nat) :
    findNode? ⟨c.nodes.push ⟨other, none⟩, c.branches, k⟩ name =
      (c.findNode? name).or (if other = name then some c.nodes.size else none) := by
  simp only [findNode?, Array.findIdx?_push, beq_iff_eq]

theorem tidy_empty : empty.Tidy where
  ground := by simp [findNode?, empty, Analog.ground]
  nodes i inside := by
    have first : i = 0 := by simpa [empty] using inside
    subst first
    simp [findNode?, nodeName, node, empty]
  inside b inside := by simp [empty] at inside
  apart b inside := by simp [empty] at inside
  single a mem := by simp [listed, empty] at mem
  named a mem := by simp [listed, empty] at mem
  based a mem := by simp [listed, empty] at mem

namespace Tidy

variable {c c' : Circuit}

theorem ground_lt (h : c.Tidy) : Analog.ground < c.nodes.size :=
  (Array.findIdx?_eq_some_iff_findIdx_eq.mp h.ground).1

theorem addNode (h : c.Tidy) {name : String} (fresh : c.findNode? name = none) (k : Nat) :
    Tidy ⟨c.nodes.push ⟨name, none⟩, c.branches, k⟩ where
  ground := by rw [findNode?_push, h.ground, Option.some_or]
  nodes i inside := by
    have within : i < c.nodes.size + 1 := by simpa using inside
    rw [findNode?_push, nodeName, node, getD_push]
    by_cases last : i = c.nodes.size
    · rw [if_pos last, fresh, if_pos rfl, Option.none_or, last]
    · have found := h.nodes i (by omega)
      rw [nodeName, node] at found
      rw [if_neg last, found, Option.some_or]
  inside b inside := by
    obtain ⟨positive, negative⟩ := h.inside b inside
    simp only [Array.size_push]
    exact ⟨Nat.lt_succ_of_lt positive, Nat.lt_succ_of_lt negative⟩
  apart := h.apart
  single := h.single
  named := h.named
  based := h.based

theorem addBranch (h : c.Tidy) {new : Branch} (positive : new.p < c.nodes.size)
    (negative : new.n < c.nodes.size) (apart : new.p ≠ new.n)
    (fresh : new.isAlias = false → ∀ b ∈ c.listed, (c.branch b).isAlias = false →
      c.ends b ≠ s(new.p, new.n))
    (unnamed : new.isAlias = true → ∀ b ∈ c.listed, (c.branch b).isAlias = true →
      (c.branch b).name ≠ new.name)
    (based : ∀ b, new.base = some b → b ∈ c.listed ∧ (c.branch b).isAlias = false ∧
      c.ends b = s(new.p, new.n)) :
    (c.addBranch new).2.Tidy := by
  have old : ∀ b, b ≠ c.branches.size → (c.addBranch new).2.branch b = c.branch b :=
    fun b other => by rw [branch_addBranch, if_neg other]
  have made : (c.addBranch new).2.branch c.branches.size = new := by
    rw [branch_addBranch, if_pos rfl]
  have oldEnds : ∀ b, b ≠ c.branches.size → (c.addBranch new).2.ends b = c.ends b :=
    fun b other => by rw [ends, ends, old b other]
  have madeEnds : (c.addBranch new).2.ends c.branches.size = s(new.p, new.n) := by rw [ends, made]
  have listed : ∀ b ∈ (c.addBranch new).2.listed, b = c.branches.size ∨ b ≠ c.branches.size ∧
      b ∈ c.listed := by
    intro b mem
    obtain ⟨inside, flag⟩ := mem_listed.mp mem
    rw [size_addBranch] at inside
    by_cases last : b = c.branches.size
    · exact .inl last
    · rw [old b last] at flag
      exact .inr ⟨last, mem_listed.mpr ⟨Nat.lt_of_le_of_ne (Nat.le_of_lt_succ inside) last, flag⟩⟩
  have kept : ∀ b ∈ c.listed, b ≠ c.branches.size ∧ b ∈ (c.addBranch new).2.listed := by
    intro b mem
    obtain ⟨inside, flag⟩ := mem_listed.mp mem
    refine ⟨Nat.ne_of_lt inside, mem_listed.mpr ⟨?_, ?_⟩⟩
    · rw [size_addBranch]
      exact Nat.lt_succ_of_lt inside
    · rw [old b (Nat.ne_of_lt inside)]
      exact flag
  refine ⟨h.ground, h.nodes, ?_, ?_, ?_, ?_, ?_⟩
  · intro b inside
    rw [size_addBranch] at inside
    by_cases last : b = c.branches.size
    · subst last
      rw [made]
      exact ⟨positive, negative⟩
    · rw [old b last]
      exact h.inside b (by omega)
  · intro b inside
    rw [size_addBranch] at inside
    by_cases last : b = c.branches.size
    · subst last
      rw [made]
      exact apart
    · rw [old b last]
      exact h.apart b (by omega)
  · intro a memA b memB
    rcases listed a memA with rfl | ⟨otherA, oldA⟩ <;> rcases listed b memB with
      rfl | ⟨otherB, oldB⟩
    · exact fun _ _ _ => rfl
    · rw [made, madeEnds, old b otherB, oldEnds b otherB]
      exact fun ownA ownB same => absurd same.symm (fresh ownA b oldB ownB)
    · rw [made, madeEnds, old a otherA, oldEnds a otherA]
      exact fun ownA ownB same => absurd same (fresh ownB a oldA ownA)
    · rw [old a otherA, old b otherB, oldEnds a otherA, oldEnds b otherB]
      exact h.single a oldA b oldB
  · intro a memA b memB
    rcases listed a memA with rfl | ⟨otherA, oldA⟩ <;> rcases listed b memB with
      rfl | ⟨otherB, oldB⟩
    · exact fun _ _ _ => rfl
    · rw [made, old b otherB]
      exact fun aliasA aliasB same => absurd same.symm (unnamed aliasA b oldB aliasB)
    · rw [made, old a otherA]
      exact fun aliasA aliasB same => absurd same (unnamed aliasB a oldA aliasA)
    · rw [old a otherA, old b otherB]
      exact h.named a oldA b oldB
  · intro a mem b base
    have known : b ∈ c.listed ∧ (c.branch b).isAlias = false ∧
        c.ends b = (c.addBranch new).2.ends a := by
      rcases listed a mem with rfl | ⟨other, oldA⟩
      · rw [made] at base
        rw [madeEnds]
        exact based b base
      · rw [old a other] at base
        rw [oldEnds a other]
        exact h.based a oldA b base
    obtain ⟨stands, own, same⟩ := known
    obtain ⟨other, mem'⟩ := kept b stands
    rw [old b other, oldEnds b other]
    exact ⟨mem', own, same⟩

theorem reframe (h : c.Tidy) (nodes : c'.nodes = c.nodes)
    (size : c'.branches.size = c.branches.size)
    (same : ∀ b, (c'.branch b).frame = (c.branch b).frame) (fewer : ∀ b ∈ c'.listed, b ∈ c.listed)
    (bases : ∀ a ∈ c'.listed, ∀ b ∈ c.listed, (c.branch a).base = some b → b ∈ c'.listed) :
    c'.Tidy := by
  have positive : ∀ b, (c'.branch b).p = (c.branch b).p := fun b => (Branch.frame_eq (same b)).1
  have negative : ∀ b, (c'.branch b).n = (c.branch b).n := fun b => (Branch.frame_eq (same b)).2.1
  have name : ∀ b, (c'.branch b).name = (c.branch b).name := fun b =>
    (Branch.frame_eq (same b)).2.2.1
  have base : ∀ b, (c'.branch b).base = (c.branch b).base := fun b =>
    (Branch.frame_eq (same b)).2.2.2
  have own : ∀ b, (c'.branch b).isAlias = (c.branch b).isAlias := fun b => by
    rw [Branch.isAlias, Branch.isAlias, base]
  have ends : ∀ b, c'.ends b = c.ends b := fun b =>
    by rw [Circuit.ends, Circuit.ends, positive, negative]
  have found : ∀ name, c'.findNode? name = c.findNode? name := fun name => by
    rw [findNode?, findNode?, nodes]
  refine ⟨(found _).trans h.ground, ?_, ?_, ?_, ?_, ?_, ?_⟩
  · intro i inside
    rw [nodes] at inside
    rw [found, nodeName, node, nodes]
    exact h.nodes i inside
  · intro b inside
    rw [size] at inside
    rw [positive, negative, nodes]
    exact h.inside b inside
  · intro b inside
    rw [size] at inside
    rw [positive, negative]
    exact h.apart b inside
  · intro a memA b memB
    rw [own, own, ends, ends]
    exact h.single a (fewer a memA) b (fewer b memB)
  · intro a memA b memB
    rw [own, own, name, name]
    exact h.named a (fewer a memA) b (fewer b memB)
  · intro a mem b known
    rw [base] at known
    obtain ⟨stands, own', same'⟩ := h.based a (fewer a mem) b known
    rw [own, ends, ends]
    exact ⟨bases a mem b stands known, own', same'⟩

theorem recounted (h : c.Tidy) (same : c'.uncounted = c.uncounted) : c'.Tidy := by
  have branch : ∀ b, (c'.branch b).uncounted = (c.branch b).uncounted := branch_eq_of_uncounted same
  have listed := listed_eq_of_uncounted same
  refine h.reframe (nodes_eq_of_uncounted same) (size_eq_of_uncounted same) ?_ ?_ ?_
  · intro b
    exact congrArg ({ · with listed := true }) (branch b)
  · rw [listed]
    exact fun b mem => mem
  · rw [listed]
    exact fun a _ b mem _ => mem

end Tidy

section Prune

def unlistAll (c : Circuit) (gone : List BranchId) : Circuit :=
  gone.foldl (fun c b => c.modifyBranch b ({ · with listed := false })) c

variable {c : Circuit}

theorem nodes_unlistAll (gone : List BranchId) : (c.unlistAll gone).nodes = c.nodes := by
  induction gone generalizing c with
  | nil => rfl
  | cons a gone ih => exact ih

theorem size_unlistAll (gone : List BranchId) :
    (c.unlistAll gone).branches.size = c.branches.size := by
  induction gone generalizing c with
  | nil => rfl
  | cons a gone ih => exact ih.trans (size_modifyBranch c a _)

theorem branch_unlistAll (gone : List BranchId) (b : BranchId) :
    (c.unlistAll gone).branch b =
      if b ∈ gone ∧ b < c.branches.size then { c.branch b with listed := false }
      else c.branch b := by
  induction gone generalizing c with
  | nil => simp [unlistAll]
  | cons a gone ih =>
    have later := ih (c := c.modifyBranch a ({ · with listed := false }))
    rw [branch_modifyBranch, size_modifyBranch] at later
    rw [unlistAll, List.foldl_cons]
    refine later.trans ?_
    by_cases first : b = a
    · subst first
      by_cases inside : b < c.branches.size <;> simp [inside]
    · simp [first]

theorem mem_listed_unlistAll {gone : List BranchId} {b : BranchId} :
    b ∈ (c.unlistAll gone).listed ↔ b ∈ c.listed ∧ b ∉ gone := by
  rw [mem_listed, mem_listed, size_unlistAll, branch_unlistAll]
  by_cases pruned : b ∈ gone <;> by_cases inside : b < c.branches.size <;> simp [pruned, inside]

theorem Tidy.prune (h : c.Tidy) : c.prune.2.Tidy := by
  let gone := c.listed.filter (!c.keeps ·)
  show (c.unlistAll gone).Tidy
  refine h.reframe (nodes_unlistAll gone) (size_unlistAll gone) ?_ ?_ ?_
  · intro b
    rw [branch_unlistAll]
    split <;> rfl
  · exact fun b mem => (mem_listed_unlistAll.mp mem).1
  · intro a mem b stands base
    refine mem_listed_unlistAll.mpr ⟨stands, fun pruned => ?_⟩
    have spared : c.keeps b = true := by
      have aliased : c.hasAlias b = true :=
        List.any_eq_true.mpr ⟨a, (mem_listed_unlistAll.mp mem).1, by simp [base]⟩
      simp [keeps, aliased]
    have dropped := (List.mem_filter.mp pruned).2
    rw [spared] at dropped
    cases dropped

end Prune

section Growing

variable {c c' : Circuit}

theorem Tidy.grownNode (h : c.Tidy) (name : String) : (c.addNode name).2.2.Tidy := by
  unfold Circuit.addNode
  split
  · exact h
  · rename_i fresh
    exact h.addNode fresh c.filters

theorem mem_of_findPair? {p n : NodeId} {b : BranchId} (found : c.findPair? p n = some b) :
    b ∈ c.listed ∧ (c.branch b).isAlias = false ∧ (c.branch b).p = p ∧ (c.branch b).n = n := by
  rw [findPair?_eq] at found
  obtain ⟨inside, holds, _⟩ := firstBranch?_eq_some.mp found
  simp only [joins, Bool.and_eq_true, Bool.not_eq_true', beq_iff_eq] at holds
  obtain ⟨flag, ⟨own, positive⟩, negative⟩ := holds
  exact ⟨mem_listed.mpr ⟨inside, flag⟩, own, positive, negative⟩

theorem findPair?_eq_none {p n : NodeId} : c.findPair? p n = none ↔
    ∀ b ∈ c.listed, (c.branch b).isAlias = false → (c.branch b).p = p → (c.branch b).n ≠ n := by
  rw [findPair?, List.find?_eq_none]
  simp only [Bool.and_eq_true, Bool.not_eq_true', beq_iff_eq, not_and]
  exact ⟨fun h b mem own positive => h b mem ⟨own, positive⟩,
    fun h b mem x => h b mem x.1 x.2⟩

theorem between?_eq_none_iff {p n : NodeId} : c.between? p n = none ↔
    ∀ b ∈ c.listed, (c.branch b).isAlias = false → c.ends b ≠ s(p, n) := by
  rw [between?_eq_none, findPair?_eq_none, findPair?_eq_none]
  simp only [ends, ne_eq, Sym2.eq_iff, not_or, not_and]
  exact ⟨fun h b mem own => ⟨h.1 b mem own, h.2 b mem own⟩,
    fun h => ⟨fun b mem own => (h b mem own).1, fun b mem own => (h b mem own).2⟩⟩

theorem Tidy.connect {p n : NodeId} {r : BranchRef} (h : c.Tidy) (positive : p < c.nodes.size)
    (negative : n < c.nodes.size) (made : c.connect p n = .ok (r, c')) : c'.Tidy := by
  obtain ⟨apart, ⟨_, rfl⟩ | ⟨free, _, rfl⟩⟩ := connect_cases made
  · exact h
  · refine h.addBranch positive negative apart ?_ nofun nofun
    exact fun _ => between?_eq_none_iff.mp free

theorem refP_eq_or (r : BranchRef) : c.refP r = (c.branch r.branch).p ∧
      c.refN r = (c.branch r.branch).n ∨
      c.refP r = (c.branch r.branch).n ∧ c.refN r = (c.branch r.branch).p := by
  unfold refP refN
  cases r.reversed <;> simp

theorem ends_eq (r : BranchRef) : s(c.refP r, c.refN r) = c.ends r.branch := by
  rcases c.refP_eq_or r with ⟨positive, negative⟩ | ⟨positive, negative⟩
  · rw [positive, negative, ends]
  · rw [positive, negative, ends, Sym2.eq_swap]

theorem lookup?_eq_none {name : String} : c.lookup? name = none ↔
    ∀ b ∈ c.listed, (c.branch b).isAlias = true → (c.branch b).name ≠ name := by
  rw [lookup?, List.find?_eq_none]
  simp only [Bool.and_eq_true, beq_iff_eq, not_and, ne_eq]

theorem Tidy.base (h : c.Tidy) {b : BranchId} (mem : b ∈ c.listed) :
    c.base b ∈ c.listed ∧ (c.branch (c.base b)).isAlias = false ∧ c.ends (c.base b) = c.ends b := by
  rw [Circuit.base]
  cases known : (c.branch b).base with
  | none => exact ⟨mem, by simp [Branch.isAlias, known], rfl⟩
  | some a => exact h.based b mem a known

theorem Tidy.addAlias {r : BranchRef} {name : String} {b : BranchId} (h : c.Tidy)
    (stands : r.branch ∈ c.listed) (made : c.addAlias? r name = some (b, c')) : c'.Tidy := by
  unfold addAlias? at made
  split at made
  · cases made
  · rename_i free
    cases made
    have inside := h.inside r.branch (mem_listed.mp stands).1
    have apart := h.apart r.branch (mem_listed.mp stands).1
    refine h.addBranch ?_ ?_ ?_ nofun (fun _ => lookup?_eq_none.mp free) ?_
    · rcases c.refP_eq_or r with ⟨positive, _⟩ | ⟨positive, _⟩
      · exact positive ▸ inside.1
      · exact positive ▸ inside.2
    · rcases c.refP_eq_or r with ⟨_, negative⟩ | ⟨_, negative⟩
      · exact negative ▸ inside.2
      · exact negative ▸ inside.1
    · change c.refP r ≠ c.refN r
      rcases c.refP_eq_or r with ⟨positive, negative⟩ | ⟨positive, negative⟩
      · rw [positive, negative]
        exact apart
      · rw [positive, negative]
        exact apart.symm
    · rintro _ ⟨⟩
      obtain ⟨listed, own, same⟩ := h.base stands
      exact ⟨listed, own, same.trans (ends_eq r).symm⟩

theorem Tidy.addFilterNode (h : c.Tidy) {name : String} (fresh : c.findNode? name = none)
    (k : Nat) : (Circuit.addBranch ⟨c.nodes.push ⟨name, none⟩, c.branches, k⟩
      { Branch.plain c.nodes.size Analog.ground with filter := true }).2.Tidy := by
  have node := h.addNode fresh k
  refine node.addBranch ?_ ?_ ?_ ?_ nofun nofun
  · simp [Branch.plain]
  · simpa [Branch.plain] using Nat.lt_succ_of_lt h.ground_lt
  · exact (Nat.ne_of_lt h.ground_lt).symm
  · -- no older branch goes to the new node
    intro _ b mem _ same
    obtain ⟨positive, negative⟩ := h.inside b (mem_listed.mp mem).1
    rw [ends, Sym2.eq_iff] at same
    simp only [Branch.plain] at same
    rcases same with ⟨first, _⟩ | ⟨_, second⟩
    · exact absurd first (Nat.ne_of_lt positive)
    · exact absurd second (Nat.ne_of_lt negative)

theorem uncounted_lowerOne {b : BranchId} {u : Usage} {x : Unit} (run : lowerOne b u c = .ok x c') :
    c'.uncounted = c.uncounted := by
  unfold lowerOne at run
  split at run
  · cases run
  · cases run
    exact uncounted_setCount c b u _

theorem uncounted_give {b : BranchId} {u : Usage} {x : Unit} (run : give b u c = .ok x c') :
    c'.uncounted = c.uncounted := by
  unfold give at run
  simp only [bind, EStateM.bind, get, getThe, MonadStateOf.get, EStateM.get] at run
  cases first : lowerOne b u c with
  | error f c₁ =>
    rw [first] at run
    cases run
  | ok _ c₁ =>
    simp only [first] at run
    cases based : (c₁.branch b).base with
    | some base =>
      simp only [based] at run
      exact (uncounted_lowerOne run).trans (uncounted_lowerOne first)
    | none =>
      simp only [based] at run
      cases run
      exact uncounted_lowerOne first

end Growing

section Promises

variable {c : Circuit}

theorem Tidy.found (h : c.Tidy) {b : BranchId} (mem : b ∈ c.listed)
    (own : (c.branch b).isAlias = false) {p n : NodeId} (ends : c.ends b = s(p, n)) :
    (c.findPair? p n).or (c.findPair? n p) = some b := by
  cases forward : c.findPair? p n with
  | some a =>
    obtain ⟨memA, ownA, positive, negative⟩ := mem_of_findPair? forward
    have same : c.ends a = c.ends b := by rw [ends, Circuit.ends, positive, negative]
    rw [h.single a memA b mem ownA own same, Option.some_or]
  | none =>
    rw [Option.none_or]
    cases backward : c.findPair? n p with
    | some a =>
      obtain ⟨memA, ownA, positive, negative⟩ := mem_of_findPair? backward
      have same : c.ends a = c.ends b := by
        rw [ends, Circuit.ends, positive, negative, Sym2.eq_swap]
      rw [h.single a memA b mem ownA own same]
    | none =>
      have free := between?_eq_none.mpr ⟨forward, backward⟩
      exact absurd ends (between?_eq_none_iff.mp free b mem own)

theorem Tidy.connect_eq (h : c.Tidy) {b : BranchId} (mem : b ∈ c.listed)
    (own : (c.branch b).isAlias = false) {p n : NodeId} (ends : c.ends b = s(p, n)) :
    c.connect p n = .ok (⟨b, (c.branch b).p != p⟩, c) := by
  have apart := h.apart b (mem_listed.mp mem).1
  have found := h.found mem own ends
  rw [Circuit.ends, Sym2.eq_iff] at ends
  unfold Circuit.connect
  rcases ends with ⟨rfl, rfl⟩ | ⟨rfl, rfl⟩
  · cases forward : c.findPair? (c.branch b).p (c.branch b).n with
    | some a =>
      rw [forward, Option.some_or] at found
      cases found
      simp [apart]
    | none =>
      rw [forward, Option.none_or] at found
      exact absurd (mem_of_findPair? found).2.2.1 apart
  · cases forward : c.findPair? (c.branch b).n (c.branch b).p with
    | some a =>
      rw [forward, Option.some_or] at found
      cases found
      exact absurd (mem_of_findPair? forward).2.2.1 apart
    | none =>
      rw [forward, Option.none_or] at found
      simp [found, apart, apart.symm]

theorem joins_of_ends {b : BranchId} (mem : b ∈ c.listed) (own : (c.branch b).isAlias = false)
    {p n : NodeId}
    (apart : p ≠ n) (ends : c.ends b = s(p, n)) : c.Joins ⟨b, (c.branch b).p != p⟩ p n := by
  rw [Circuit.ends, Sym2.eq_iff] at ends
  rcases ends with ⟨rfl, rfl⟩ | ⟨rfl, rfl⟩
  · exact ⟨(mem_listed.mp mem).1, own, by simp [refP], by simp [refN]⟩
  · exact ⟨(mem_listed.mp mem).1, own, by simp [refP, apart.symm], by simp [refN, apart.symm]⟩

theorem reversed_swap {b : BranchId} {p n : NodeId} (apart : p ≠ n) (ends : c.ends b = s(p, n)) :
    ((c.branch b).p != n) = !((c.branch b).p != p) := by
  rw [Circuit.ends, Sym2.eq_iff] at ends
  rcases ends with ⟨rfl, rfl⟩ | ⟨rfl, rfl⟩
  · simp [apart]
  · simp [apart.symm]

theorem Tidy.connected (h : c.Tidy) {p n : NodeId} (positive : p < c.nodes.size)
    (negative : n < c.nodes.size) (apart : p ≠ n) : ∃ r c', c.connect p n = .ok (r, c') ∧
      c'.connect n p = .ok (⟨r.branch, !r.reversed⟩, c') ∧ r.branch ∈ c'.listed ∧
      c'.Joins r p n ∧ c'.Joins ⟨r.branch, !r.reversed⟩ n p ∧
      ∀ b ∈ c.listed, (c.branch b).isAlias = false → c.ends b = s(p, n) →
      r.branch = b ∧ c' = c := by
  -- Once there is a branch between the nodes, both sides find it.
  have both : ∀ {c' : Circuit} {b : BranchId}, c'.Tidy → b ∈ c'.listed →
      (c'.branch b).isAlias = false →
      c'.ends b = s(p, n) → c'.connect n p = .ok (⟨b, !((c'.branch b).p != p)⟩, c') ∧
        c'.Joins ⟨b, (c'.branch b).p != p⟩ p n ∧ c'.Joins ⟨b, !((c'.branch b).p != p)⟩ n p := by
    intro c' b tidy mem own ends
    have swapped := ends.trans Sym2.eq_swap
    rw [← reversed_swap apart ends]
    exact ⟨tidy.connect_eq mem own swapped, joins_of_ends mem own apart ends,
      joins_of_ends mem own apart.symm swapped⟩
  by_cases old : ∃ b ∈ c.listed, (c.branch b).isAlias = false ∧ c.ends b = s(p, n)
  · obtain ⟨b, mem, own, ends⟩ := old
    obtain ⟨backward, joins, swapped⟩ := both h mem own ends
    refine ⟨_, c, h.connect_eq mem own ends, backward, mem, joins, swapped, ?_⟩
    exact fun a memA ownA endsA => ⟨h.single b mem a memA own ownA (ends.trans endsA.symm), rfl⟩
  · push Not at old
    have free := between?_eq_none_iff.mpr old
    obtain ⟨forward, backward⟩ := between?_eq_none.mp free
    have made : c.connect p n = .ok (⟨c.branches.size, false⟩, (c.addBranch (.plain p n)).2) := by
      unfold Circuit.connect
      simp only [beq_iff_eq, apart, ↓reduceIte, forward, backward]
      rfl
    have new : (c.addBranch (.plain p n)).2.branch c.branches.size = .plain p n := by
      rw [branch_addBranch, if_pos rfl]
    have mem : c.branches.size ∈ (c.addBranch (.plain p n)).2.listed := by
      refine mem_listed.mpr ⟨by simp, ?_⟩
      rw [new]
      rfl
    have reversed : (((c.addBranch (.plain p n)).2.branch c.branches.size).p != p) = false := by
      rw [new]
      simp [Branch.plain]
    obtain ⟨again, joins, swapped⟩ := both (h.connect positive negative made) mem (by rw [new]; rfl)
      (by rw [ends, new]; rfl)
    rw [reversed] at again joins swapped
    exact ⟨_, _, made, again, mem, joins, swapped,
      fun b memB ownB endsB => absurd endsB (old b memB ownB)⟩

theorem Tidy.aliases (h : c.Tidy) {a : BranchId} (mem : a ∈ c.listed)
    (known : (c.branch a).isAlias = true) : c.lookup? (c.branch a).name = some a ∧
      ∃ b ∈ c.listed, (c.branch a).base = some b ∧ (c.branch b).isAlias = false := by
  constructor
  · cases found : c.lookup? (c.branch a).name with
    | none => exact absurd rfl (lookup?_eq_none.mp found a mem known)
    | some b =>
      have holds := List.find?_some found
      simp only [Bool.and_eq_true, beq_iff_eq] at holds
      rw [h.named b (List.mem_of_find?_eq_some found) a mem holds.1 known holds.2]
  · obtain ⟨b, base⟩ := Option.isSome_iff_exists.mp known
    obtain ⟨listed, own, _⟩ := h.based a mem b base
    exact ⟨b, listed, base, own⟩

theorem Tidy.probes (h : c.Tidy) {r s : BranchRef} (memR : r.branch ∈ c.listed)
    (memS : s.branch ∈ c.listed) (x y : Access) : c.probe r.branch x = c.probe s.branch y ↔
      s(c.refP r, c.refN r) = s(c.refP s, c.refN s) ∧ x = y := by
  obtain ⟨listedR, ownR, endsR⟩ := h.base memR
  obtain ⟨listedS, ownS, endsS⟩ := h.base memS
  rw [ends_eq, ends_eq, probe, probe, Probe.mk.injEq, ← endsR, ← endsS]
  refine and_congr_left fun _ => ⟨fun same => by rw [same], ?_⟩
  exact h.single _ listedR _ listedS ownR ownS

theorem freeFilterFuel_first (stem : String) (fuel k : Nat) : k ≤ c.freeFilterFuel stem fuel k ∧
    ∀ j, k ≤ j → j < c.freeFilterFuel stem fuel k → c.findNode? (filterName stem j) ≠ none := by
  induction fuel generalizing k with
  | zero => exact ⟨Nat.le_refl k, fun j least less => absurd less (Nat.not_lt.mpr least)⟩
  | succ fuel ih =>
    unfold freeFilterFuel
    cases taken : c.findNode? (filterName stem k) with
    | none => exact ⟨Nat.le_refl k, fun j least less => absurd less (Nat.not_lt.mpr least)⟩
    | some i =>
      obtain ⟨more, before⟩ := ih (k + 1)
      refine ⟨Nat.le_of_succ_le more, fun j least less => ?_⟩
      rcases Nat.eq_or_lt_of_le least with rfl | later
      · simp [taken]
      · exact before j later less

theorem addFilter_named (stem : String) : ∃ k, c.filters ≤ k ∧
    (∀ j, c.filters ≤ j → j < k → c.findNode? (filterName stem j) ≠ none) ∧
    c.findNode? (filterName stem k) = none ∧ (c.addFilter stem).2.filters = k + 1 ∧
    (c.addFilter stem).2.nodeName ((c.addFilter stem).2.branch (c.addFilter stem).1).p =
    filterName stem k := by
  obtain ⟨more, before⟩ := c.freeFilterFuel_first stem (c.nodes.size + 1) c.filters
  refine ⟨c.freeFilter stem, more, before, findNode?_freeFilter c stem, ?_, ?_⟩
  · rw [addFilter_eq]
    rfl
  · rw [addFilter_eq, branch_addBranch, if_pos rfl]
    simp only [nodeName, node, Circuit.addBranch, Branch.plain, getD_push, if_pos]

end Promises

end Circuit
end Analog
