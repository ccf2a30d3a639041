import Analog.Circuit.Registry
import Analog.Proofs.Circuit.Topology

/-!
The registers of a circuit. Whatever calls are made, the lists hold what a search of the circuit
finds, and the maps hold exactly the entries that the lists give. So a call that decides by a map
does what the search does, and circuits keep their promises through the registers.
-/
namespace Analog

/-- The entry of a branch in the map of pairs. -/
def Branch.pair? (b : Branch) : Option (NodeId × NodeId) :=
  if b.isAlias then none else some (b.p, b.n)

/-- The entry of a branch in the map of names. -/
def Branch.alias? (b : Branch) : Option String := if b.isAlias then some b.name else none

namespace Branch

variable {a b : Branch}

theorem pair?_eq_some {x : NodeId × NodeId} :
    b.pair? = some x ↔ b.isAlias = false ∧ (b.p, b.n) = x := by
  cases known : b.isAlias <;> simp [pair?, known]

theorem alias?_eq_some {name : String} :
    b.alias? = some name ↔ b.isAlias = true ∧ b.name = name := by
  cases known : b.isAlias <;> simp [alias?, known]

theorem entries_eq (same : a.frame = b.frame) : a.pair? = b.pair? ∧ a.alias? = b.alias? := by
  obtain ⟨positive, negative, name, base⟩ := frame_eq same
  unfold pair? alias? isAlias
  rw [positive, negative, name, base]
  exact ⟨rfl, rfl⟩

end Branch

namespace Circuit

section Index

variable {κ : Type} {c c' : Circuit} {key : Branch → Option κ} {new : Branch}

/-- The entries that the listed branches make in a map. -/
def index (c : Circuit) (key : Branch → Option κ) : List (κ × BranchId) :=
  c.listed.filterMap fun b => (key (c.branch b)).map (·, b)

theorem mem_index {x : κ × BranchId} :
    x ∈ c.index key ↔ x.2 ∈ c.listed ∧ key (c.branch x.2) = some x.1 := by
  obtain ⟨k, b⟩ := x
  simp [index]

theorem lookup_index [BEq κ] [LawfulBEq κ] (k : κ) :
    (c.index key).lookup k = c.listed.find? fun b => key (c.branch b) == some k := by
  unfold index
  induction c.listed with
  | nil => rfl
  | cons b bs ih =>
    cases made : key (c.branch b) with
    | none => simp [made, ih]
    | some j =>
      by_cases same : k = j
      · simp [made, same]
      · simp [made, List.lookup_cons, beq_false_of_ne same, ih, Ne.symm same]

theorem index_congr (listed : c'.listed = c.listed)
    (same : ∀ b, key (c'.branch b) = key (c.branch b)) : c'.index key = c.index key := by
  simp only [index, listed, same]

theorem listed_addBranch (flag : new.listed = true) :
    (c.addBranch new).2.listed = c.listed ++ [c.branches.size] := by
  have old : ∀ b ∈ List.range c.branches.size,
      ((c.addBranch new).2.branch b).listed = (c.branch b).listed := by
    intro b mem
    rw [branch_addBranch, if_neg (Nat.ne_of_lt (List.mem_range.mp mem))]
  rw [listed, size_addBranch, List.range_succ, List.filter_append, List.filter_congr old]
  simp [branch_addBranch, flag, listed]

theorem index_addBranch (flag : new.listed = true) :
    (c.addBranch new).2.index key = c.index key ++ ((key new).map (·, c.branches.size)).toList := by
  rw [index, listed_addBranch flag, List.filterMap_append]
  congr 1
  · refine List.filterMap_congr fun b mem => ?_
    rw [branch_addBranch, if_neg (Nat.ne_of_lt (mem_listed.mp mem).1)]
  · cases made : key new <;> simp [branch_addBranch, made]

theorem listed_unlistAll (gone : List BranchId) :
    (c.unlistAll gone).listed = c.listed.filter (· ∉ gone) := by
  rw [listed, size_unlistAll, listed, List.filter_filter]
  refine List.filter_congr fun b mem => ?_
  rw [branch_unlistAll]
  by_cases pruned : b ∈ gone <;> simp [pruned, List.mem_range.mp mem]

theorem index_unlistAll (same : ∀ b : Branch, key { b with listed := false } = key b)
    (gone : List BranchId) : (c.unlistAll gone).index key = (c.index key).filter (·.2 ∉ gone) := by
  have kept : ∀ b, key ((c.unlistAll gone).branch b) = key (c.branch b) := by
    intro b
    rw [branch_unlistAll]
    split
    · exact same _
    · rfl
  simp only [index, listed_unlistAll, kept]
  induction c.listed with
  | nil => rfl
  | cons b bs ih =>
    cases made : key (c.branch b) <;> by_cases pruned : b ∈ gone <;> simpa [made, pruned] using ih

theorem findNode?_eq (c : Circuit) (name : String) :
    c.findNode? name = (List.range c.nodes.size).find? (c.nodeName · == name) := by
  have named : ∀ i (inside : i < c.nodes.size), c.nodes[i].name = c.nodeName i := by
    intro i inside
    rw [nodeName, node, Array.getD_eq_getD_getElem?, Array.getElem?_eq_getElem inside]
    rfl
  refine Option.ext fun i => ?_
  rw [findNode?, Array.findIdx?_eq_some_iff_getElem, List.find?_range_eq_some]
  constructor
  · rintro ⟨inside, here, before⟩
    refine ⟨named i inside ▸ here, List.mem_range.mpr inside, fun j less => ?_⟩
    rw [← named j (less.trans inside)]
    simpa using before j less
  · rintro ⟨here, mem, before⟩
    have inside := List.mem_range.mp mem
    refine ⟨inside, (named i inside).symm ▸ here, fun j less => ?_⟩
    rw [named j (less.trans inside)]
    simpa using before j less

theorem findPair?_eq_lookup (c : Circuit) (p n : NodeId) :
    c.findPair? p n = (c.index Branch.pair?).lookup (p, n) := by
  rw [lookup_index, findPair?]
  congr 1
  funext b
  rw [Bool.eq_iff_iff]
  simp [Branch.pair?_eq_some, and_assoc]

theorem lookup?_eq_lookup (c : Circuit) (name : String) :
    c.lookup? name = (c.index Branch.alias?).lookup name := by
  rw [lookup_index, lookup?]
  congr 1
  funext b
  rw [Bool.eq_iff_iff]
  simp [Branch.alias?_eq_some]

end Index
end Circuit

namespace Registry

open Circuit

/-- The lists and maps are those that the circuit itself gives. -/
structure Agrees (g : Registry) : Prop where
  tidy : g.circuit.Tidy
  numbers : g.numbers = List.range g.circuit.nodes.size
  nodes : g.nodes = List.range g.circuit.nodes.size
  nodemap : g.nodemap = g.nodes.map fun i => (g.circuit.nodeName i, i)
  branches : g.branches = g.circuit.listed
  pairs : g.pairs = g.circuit.index Branch.pair?
  names : g.names = g.circuit.index Branch.alias?

theorem agrees_empty : empty.Agrees := by
  refine ⟨tidy_empty, ?_, ?_, ?_, ?_, ?_, ?_⟩ <;> decide

namespace Agrees

variable {g : Registry}

theorem lookup_node (h : g.Agrees) (name : String) :
    g.nodemap.lookup name = g.circuit.findNode? name := by
  rw [h.nodemap, h.nodes, findNode?_eq]
  induction List.range g.circuit.nodes.size with
  | nil => rfl
  | cons i is ih =>
    by_cases same : name = g.circuit.nodeName i
    · simp [same]
    · simp [List.lookup_cons, beq_false_of_ne same, Ne.symm same, ih]

theorem lookup_pair (h : g.Agrees) (p n : NodeId) :
    g.pairs.lookup (p, n) = g.circuit.findPair? p n := by
  rw [h.pairs, findPair?_eq_lookup]

theorem lookup_name (h : g.Agrees) (name : String) :
    g.names.lookup name = g.circuit.lookup? name := by
  rw [h.names, lookup?_eq_lookup]

theorem pushNode (h : g.Agrees) {name : String} (fresh : g.circuit.findNode? name = none)
    (k : Nat) : Agrees { g with
      circuit := ⟨g.circuit.nodes.push ⟨name, none⟩, g.circuit.branches, k⟩
      numbers := g.numbers ++ [g.nodes.length]
      nodes := g.nodes ++ [g.circuit.nodes.size]
      nodemap := g.nodemap ++ [(name, g.circuit.nodes.size)] } where
  tidy := h.tidy.addNode fresh k
  numbers := by simp [h.numbers, h.nodes, List.range_succ]
  nodes := by simp [h.nodes, List.range_succ]
  nodemap := by
    have old : ∀ i ∈ List.range g.circuit.nodes.size,
        (nodeName ⟨g.circuit.nodes.push ⟨name, none⟩, g.circuit.branches, k⟩ i, i) =
          (g.circuit.nodeName i, i) := by
      intro i mem
      rw [nodeName, node, getD_push, if_neg (Nat.ne_of_lt (List.mem_range.mp mem))]
      rfl
    simp only [List.map_append, h.nodemap, h.nodes, List.map_congr_left old]
    simp [nodeName, node]
  branches := h.branches
  pairs := h.pairs
  names := h.names

theorem newNode (h : g.Agrees) (name : String) :
    ((g.newNode name).1, (g.newNode name).2.1, (g.newNode name).2.2.circuit) =
      g.circuit.addNode name ∧ (g.newNode name).2.2.Agrees := by
  unfold Registry.newNode addNode
  rw [h.lookup_node]
  cases found : g.circuit.findNode? name with
  | some i => exact ⟨rfl, h⟩
  | none => exact ⟨rfl, h.pushNode found g.circuit.filters⟩

section Enter

variable {new : Branch} (flag : new.listed = true) (tidy : (g.circuit.addBranch new).2.Tidy)

include flag tidy

theorem enter (h : g.Agrees) : Agrees { (g.enter new).2 with
      pairs := g.pairs ++ (new.pair?.map (·, g.circuit.branches.size)).toList
      names := g.names ++ (new.alias?.map (·, g.circuit.branches.size)).toList } where
  tidy := tidy
  numbers := h.numbers
  nodes := h.nodes
  nodemap := h.nodemap
  branches := by
    rw [Registry.enter, listed_addBranch flag, ← h.branches]
    rfl
  pairs := by
    rw [h.pairs]
    exact (index_addBranch flag).symm
  names := by
    rw [h.names]
    exact (index_addBranch flag).symm

theorem enterPair (h : g.Agrees) (own : new.isAlias = false) : Agrees { (g.enter new).2 with
      pairs := g.pairs ++ [((new.p, new.n), g.circuit.branches.size)] } := by
  simpa [Branch.pair?, Branch.alias?, own, Registry.enter] using h.enter flag tidy

theorem enterName (h : g.Agrees) (known : new.isAlias = true) : Agrees { (g.enter new).2 with
      names := g.names ++ [(new.name, g.circuit.branches.size)] } := by
  simpa [Branch.pair?, Branch.alias?, known, Registry.enter] using h.enter flag tidy

end Enter

/-- Two nodes are joined as the search of the circuit says. -/
theorem newBranch (h : g.Agrees) (p n : NodeId) :
    (g.newBranch p n).map (fun x => (x.1, x.2.circuit)) = g.circuit.connect p n ∧
      ∀ r g', g.newBranch p n = .ok (r, g') → p < g.circuit.nodes.size → n < g.circuit.nodes.size →
        g'.Agrees ∧ (g'.circuit = g.circuit → g' = g) := by
  have made : ∀ r c', p < g.circuit.nodes.size → n < g.circuit.nodes.size →
      g.circuit.connect p n = .ok (r, c') → c'.Tidy :=
    fun _ _ positive negative run => h.tidy.connect positive negative run
  unfold Registry.newBranch Circuit.connect at *
  simp only [h.lookup_pair]
  by_cases loop : (p == n) = true
  · simp only [loop, ↓reduceIte]
    refine ⟨rfl, ?_⟩
    rintro _ _ ⟨⟩
  simp only [loop, Bool.false_eq_true, ↓reduceIte] at made ⊢
  cases forward : g.circuit.findPair? p n with
  | some b =>
    refine ⟨rfl, ?_⟩
    rintro r g' ⟨⟩ - -
    exact ⟨h, fun _ => rfl⟩
  | none =>
    cases backward : g.circuit.findPair? n p with
    | some b =>
      refine ⟨rfl, ?_⟩
      rintro r g' ⟨⟩ - -
      exact ⟨h, fun _ => rfl⟩
    | none =>
      simp only [forward, backward] at made
      refine ⟨rfl, ?_⟩
      rintro r g' ⟨⟩ positive negative
      refine ⟨?_, fun same => ?_⟩
      · exact h.enterPair rfl (made _ _ positive negative rfl) rfl
      · have size := congrArg (·.branches.size) same
        simp [Registry.enter, addBranch] at size

theorem newNamedBranch (h : g.Agrees) (r : BranchRef) (name : String) :
    (g.newNamedBranch r name).map (fun x => (x.1, x.2.circuit)) = g.circuit.addAlias? r name ∧
      ∀ b g', g.newNamedBranch r name = some (b, g') → r.branch ∈ g.branches → g'.Agrees := by
  have made : ∀ b c', r.branch ∈ g.circuit.listed →
      g.circuit.addAlias? r name = some (b, c') → c'.Tidy :=
    fun _ _ stands run => h.tidy.addAlias stands run
  unfold Registry.newNamedBranch Circuit.addAlias? at *
  simp only [h.lookup_name]
  cases taken : g.circuit.lookup? name with
  | some b =>
    refine ⟨rfl, ?_⟩
    rintro _ _ ⟨⟩
  | none =>
    simp only [taken] at made
    refine ⟨rfl, ?_⟩
    rintro b g' ⟨⟩ stands
    rw [h.branches] at stands
    exact h.enterName rfl (made _ _ stands rfl) rfl

theorem nextFilter (h : g.Agrees) (k : Nat) : Agrees { g with circuit.filters := k } :=
  ⟨h.tidy.reframe rfl rfl (fun _ => rfl) (fun _ mem => mem) fun _ _ _ mem _ => mem, h.numbers,
    h.nodes, h.nodemap, h.branches, h.pairs, h.names⟩

theorem newFilterFuel (h : g.Agrees) {stem : String} {fuel j : Nat} (less : j < fuel)
    (taken : ∀ i < j, g.circuit.findNode? (filterName stem (g.circuit.filters + i)) ≠ none)
    (free : g.circuit.findNode? (filterName stem (g.circuit.filters + j)) = none) :
    ∃ g', newFilterFuel stem fuel g = some (g.circuit.branches.size, g') ∧ g'.Agrees ∧
      g'.circuit = (addBranch ⟨g.circuit.nodes.push ⟨filterName stem (g.circuit.filters + j), none⟩,
        g.circuit.branches, g.circuit.filters + j + 1⟩
        { Branch.plain g.circuit.nodes.size Analog.ground with filter := true }).2 := by
  induction fuel generalizing g j with
  | zero => cases less
  | succ fuel ih =>
    have next := h.nextFilter (g.circuit.filters + 1)
    rw [Registry.newFilterFuel]
    simp only [Registry.newNode, h.lookup_node]
    cases j with
    | zero =>
      rw [Nat.add_zero] at free
      simp only [free]
      refine ⟨_, rfl, ?_, rfl⟩
      exact (next.pushNode free _).enterPair rfl (h.tidy.addFilterNode free _) rfl
    | succ j =>
      obtain ⟨i, found⟩ := Option.ne_none_iff_exists'.mp (taken 0 (Nat.succ_pos j))
      rw [Nat.add_zero] at found
      simp only [found]
      have shift (i : Nat) : g.circuit.filters + 1 + i = g.circuit.filters + (i + 1) := by omega
      obtain ⟨g', run, agrees, made⟩ := ih next (Nat.lt_of_succ_lt_succ less)
        (fun i small => by rw [shift]; exact taken (i + 1) (Nat.succ_lt_succ small))
          (by rw [shift]; exact free)
      rw [shift] at made
      exact ⟨g', run, agrees, made⟩

theorem newFilter (h : g.Agrees) (stem : String) : ∃ g',
    g.newFilter stem = some ((g.circuit.addFilter stem).1, g') ∧
      g'.circuit = (g.circuit.addFilter stem).2 ∧ g'.Agrees := by
  obtain ⟨more, before⟩ := g.circuit.freeFilterFuel_first stem (g.circuit.nodes.size + 1)
    g.circuit.filters
  change g.circuit.filters ≤ g.circuit.freeFilter stem at more
  have free := findNode?_freeFilter g.circuit stem
  obtain ⟨j, sum⟩ := Nat.le.dest more
  rw [← sum] at free
  have early : j < g.nodes.length + 1 := by
    obtain ⟨i, small, unused⟩ := g.circuit.exists_freeName stem
    rw [h.nodes, List.length_range]
    by_contra late
    exact before (g.circuit.filters + i) (by omega) (by change _ < g.circuit.freeFilter stem; omega)
      unused
  obtain ⟨g', run, agrees, made⟩ := h.newFilterFuel early
    (fun i small => before _ (by omega) (by change _ < g.circuit.freeFilter stem; omega)) free
  rw [addFilter_eq, ← sum]
  exact ⟨g', run, made, agrees⟩

theorem counted (h : g.Agrees) {c : Circuit} (same : c.uncounted = g.circuit.uncounted) :
    Agrees { g with circuit := c } := by
  have listed := listed_eq_of_uncounted same
  have nodes := nodes_eq_of_uncounted same
  have frame : ∀ b, (c.branch b).frame = (g.circuit.branch b).frame := fun b =>
    congrArg ({ · with listed := true }) (branch_eq_of_uncounted same b)
  refine ⟨h.tidy.recounted same, ?_, ?_, ?_, ?_, ?_, ?_⟩
  · simpa only [nodes] using h.numbers
  · simpa only [nodes] using h.nodes
  · simpa only [nodeName, node, nodes] using h.nodemap
  · exact h.branches.trans listed.symm
  · exact h.pairs.trans (index_congr listed fun b => (Branch.entries_eq (frame b)).1).symm
  · exact h.names.trans (index_congr listed fun b => (Branch.entries_eq (frame b)).2).symm

theorem keeps_eq (h : g.Agrees) (b : BranchId) : g.keeps b = g.circuit.keeps b := by
  have aliased : g.hasAlias b = g.circuit.hasAlias b := by
    rw [Bool.eq_iff_iff, Registry.hasAlias, Circuit.hasAlias, h.names]
    simp only [List.any_eq_true, beq_iff_eq]
    constructor
    · rintro ⟨entry, mem, base⟩
      exact ⟨entry.2, (mem_index.mp mem).1, base⟩
    · rintro ⟨a, mem, base⟩
      refine ⟨((g.circuit.branch a).name, a),
        mem_index.mpr ⟨mem, Branch.alias?_eq_some.mpr ⟨?_, rfl⟩⟩, base⟩
      simp [Branch.isAlias, base]
  rw [Registry.keeps, Circuit.keeps, aliased]

theorem prune (h : g.Agrees) :
    (g.prune.1, g.prune.2.circuit) = g.circuit.prune ∧ g.prune.2.Agrees := by
  have keeps : g.keeps = g.circuit.keeps := funext h.keeps_eq
  let gone := g.circuit.listed.filter (!g.circuit.keeps ·)
  have pruned : g.prune = (gone.length, { g with
      circuit := g.circuit.unlistAll gone
      branches := g.circuit.listed.filter g.circuit.keeps
      pairs := g.pairs.filter fun x =>
        !(gone.map fun b => ((g.circuit.branch b).p, (g.circuit.branch b).n)).contains x.1 }) := by
    rw [Registry.prune, keeps, h.branches]
    rfl
  have own : ∀ b ∈ gone, b ∈ g.circuit.listed ∧ (g.circuit.branch b).isAlias = false := by
    intro b mem
    obtain ⟨listed, dropped⟩ := List.mem_filter.mp mem
    refine ⟨listed, ?_⟩
    by_contra known
    simp [Circuit.keeps, known] at dropped
  rw [pruned]
  refine ⟨rfl, ?_⟩
  have nodes := nodes_unlistAll (c := g.circuit) gone
  refine ⟨h.tidy.prune, ?_, ?_, ?_, ?_, ?_, ?_⟩
  · simpa only [nodes] using h.numbers
  · simpa only [nodes] using h.nodes
  · simpa only [nodeName, node, nodes] using h.nodemap
  · rw [listed_unlistAll]
    refine List.filter_congr fun b mem => ?_
    simp [gone, mem]
  · rw [index_unlistAll (fun _ => rfl), h.pairs]
    refine List.filter_congr fun x mem => ?_
    obtain ⟨listed, entry⟩ := mem_index.mp mem
    obtain ⟨plain, ends⟩ := Branch.pair?_eq_some.mp entry
    -- No other branch has the ends of one that goes.
    rw [Bool.eq_iff_iff]
    simp only [List.contains_eq_mem, List.mem_map, Bool.not_eq_true', decide_eq_false_iff_not,
      decide_eq_true_eq]
    refine not_congr ⟨?_, fun there => ⟨x.2, there, ends⟩⟩
    rintro ⟨a, there, same⟩
    obtain ⟨mem', plain'⟩ := own a there
    have joined : g.circuit.ends a = g.circuit.ends x.2 := by
      obtain ⟨positive, negative⟩ := Prod.mk.inj (same.trans ends.symm)
      rw [Circuit.ends, Circuit.ends, positive, negative]
    exact h.tidy.single a mem' x.2 listed plain' plain joined ▸ there
  · rw [index_unlistAll (fun _ => rfl), h.names]
    refine (List.filter_eq_self.mpr fun x mem => ?_).symm
    obtain ⟨_, entry⟩ := mem_index.mp mem
    refine decide_eq_true fun there => ?_
    have plain := (own x.2 there).2
    rw [(Branch.alias?_eq_some.mp entry).1] at plain
    cases plain

theorem perform (h : g.Agrees) (call : RegistryCall) : (g.perform call).Agrees := by
  cases call with
  | node name => exact (h.newNode name).2
  | branch p n =>
    have kept := (h.newBranch p n).2
    rw [Registry.perform]
    split
    · rename_i inside
      simp only [h.nodes, Bool.and_eq_true, List.contains_iff_mem, List.mem_range] at inside
      cases made : g.newBranch p n with
      | error e => exact h
      | ok x => exact (kept x.1 x.2 made inside.1 inside.2).1
    · exact h
  | named r name =>
    have kept := (h.newNamedBranch r name).2
    rw [Registry.perform]
    split
    · rename_i stands
      cases made : g.newNamedBranch r name with
      | none => exact h
      | some x => exact kept x.1 x.2 made (List.contains_iff_mem.mp stands)
    · exact h
  | filter stem =>
    obtain ⟨g', made, -, agrees⟩ := h.newFilter stem
    rw [Registry.perform, made]
    exact agrees
  | take b u => exact h.counted (uncounted_take g.circuit b u)
  | give b u =>
    rw [Registry.perform]
    cases run : Circuit.give b u g.circuit with
    | ok x c => exact h.counted (uncounted_give run)
    | error e c => exact h
  | prune => exact h.prune.2

theorem performAll (h : g.Agrees) (calls : List RegistryCall) : (g.performAll calls).Agrees := by
  induction calls generalizing g with
  | nil => exact h
  | cons call calls ih => exact ih (h.perform call)

end Agrees

/-- What the registers of a circuit promise. -/
structure Coherent (g : Registry) : Prop where
  /-- The number of a node is its place, and ground is the first one. -/
  numbers : ∀ (k : Nat) (i : NodeId), g.nodes[k]? = some i → g.numbers[i]? = some k
  ground : g.nodes.head? = some Analog.ground ∧ g.circuit.nodeName Analog.ground = groundName
  distinct : (g.nodes.map g.circuit.nodeName).Nodup
  nodemap : ∀ name i, g.nodemap.lookup name = some i ↔ i ∈ g.nodes ∧ g.circuit.nodeName i = name
  apart : ∀ b ∈ g.branches, (g.circuit.branch b).p ≠ (g.circuit.branch b).n
  /-- Besides aliases there is one branch between two nodes, and the map finds it from either
  side. -/
  single : ∀ a ∈ g.branches, ∀ b ∈ g.branches, (g.circuit.branch a).isAlias = false →
    (g.circuit.branch b).isAlias = false → g.circuit.ends a = g.circuit.ends b → a = b
  pairs : ∀ p n b, g.pairs.lookup (p, n) = some b ↔ b ∈ g.branches ∧
    (g.circuit.branch b).isAlias = false ∧
    (g.circuit.branch b).p = p ∧ (g.circuit.branch b).n = n
  found : ∀ b ∈ g.branches, (g.circuit.branch b).isAlias = false →
    ∀ p n, g.circuit.ends b = s(p, n) →
    (g.pairs.lookup (p, n)).or (g.pairs.lookup (n, p)) = some b
  /-- Two nodes can be joined from both sides, which gives the one branch between them. -/
  connected : ∀ p ∈ g.nodes, ∀ n ∈ g.nodes, p ≠ n → ∃ r g', g.newBranch p n = .ok (r, g') ∧
    g'.newBranch n p = .ok (⟨r.branch, !r.reversed⟩, g') ∧ r.branch ∈ g'.branches ∧
    g'.circuit.Joins r p n ∧ g'.circuit.Joins ⟨r.branch, !r.reversed⟩ n p ∧
    ∀ b ∈ g.branches, (g.circuit.branch b).isAlias = false → g.circuit.ends b = s(p, n) →
      r.branch = b ∧ g' = g
  /-- An alias is found by its name alone, and what it stands for is listed. -/
  names : ∀ name a, g.names.lookup name = some a ↔ a ∈ g.branches ∧
    (g.circuit.branch a).isAlias = true ∧
    (g.circuit.branch a).name = name
  based : ∀ a ∈ g.branches, (g.circuit.branch a).isAlias = true →
    ∃ b ∈ g.branches, (g.circuit.branch a).base = some b ∧ (g.circuit.branch b).isAlias = false
  /-- A probe is a pair of nodes, in either order, and a kind of access. -/
  probes : ∀ r s : BranchRef, r.branch ∈ g.branches → s.branch ∈ g.branches → ∀ x y,
    g.circuit.probe r.branch x = g.circuit.probe s.branch y ↔
      s(g.circuit.refP r, g.circuit.refN r) = s(g.circuit.refP s, g.circuit.refN s) ∧ x = y
  /-- A filter gets the first name from its counter on that no node has. -/
  filters : ∀ stem, ∃ k b g', g.newFilter stem = some (b, g') ∧ g.circuit.filters ≤ k ∧
    (∀ j, g.circuit.filters ≤ j → j < k → g.nodemap.lookup (filterName stem j) ≠ none) ∧
    g.nodemap.lookup (filterName stem k) = none ∧ g'.circuit.filters = k + 1 ∧
    g'.circuit.nodeName (g'.circuit.branch b).p = filterName stem k

namespace Agrees

variable {g : Registry}

theorem lookup_pair_iff (h : g.Agrees) {p n : NodeId} {b : BranchId} :
    g.pairs.lookup (p, n) = some b ↔
    b ∈ g.branches ∧ (g.circuit.branch b).isAlias = false ∧ (g.circuit.branch b).p = p ∧
      (g.circuit.branch b).n = n := by
  rw [h.lookup_pair, h.branches]
  refine ⟨mem_of_findPair?, ?_⟩
  rintro ⟨mem, own, rfl, rfl⟩
  cases found : g.circuit.findPair? (g.circuit.branch b).p (g.circuit.branch b).n with
  | none => exact absurd rfl (findPair?_eq_none.mp found b mem own rfl)
  | some a =>
    obtain ⟨memA, ownA, positive, negative⟩ := mem_of_findPair? found
    rw [h.tidy.single a memA b mem ownA own (by rw [ends, ends, positive, negative])]

theorem lookup_name_iff (h : g.Agrees) {name : String} {a : BranchId} :
    g.names.lookup name = some a ↔
    a ∈ g.branches ∧ (g.circuit.branch a).isAlias = true ∧ (g.circuit.branch a).name = name := by
  rw [h.lookup_name, h.branches]
  constructor
  · intro found
    have holds := List.find?_some found
    simp only [Bool.and_eq_true, beq_iff_eq] at holds
    exact ⟨List.mem_of_find?_eq_some found, holds⟩
  · rintro ⟨mem, known, rfl⟩
    exact (h.tidy.aliases mem known).1

theorem lookup_node_iff (h : g.Agrees) {name : String} {i : NodeId} :
    g.nodemap.lookup name = some i ↔ i ∈ g.nodes ∧ g.circuit.nodeName i = name := by
  rw [h.lookup_node, h.nodes]
  constructor
  · intro found
    rw [findNode?_eq] at found
    exact ⟨List.mem_of_find?_eq_some found, by simpa using List.find?_some found⟩
  · rintro ⟨mem, rfl⟩
    exact h.tidy.nodes i (List.mem_range.mp mem)

theorem newBranch_ok (h : g.Agrees) {p n : NodeId} {r : BranchRef} {c : Circuit}
    (positive : p < g.circuit.nodes.size) (negative : n < g.circuit.nodes.size)
    (made : g.circuit.connect p n = .ok (r, c)) :
    ∃ g', g.newBranch p n = .ok (r, g') ∧ g'.circuit = c ∧ g'.Agrees ∧
    (c = g.circuit → g' = g) := by
  obtain ⟨same, kept⟩ := h.newBranch p n
  rw [made] at same
  cases run : g.newBranch p n with
  | error e =>
    rw [run] at same
    cases same
  | ok x =>
    rw [run] at same
    cases same
    exact ⟨x.2, rfl, rfl, kept x.1 x.2 run positive negative⟩

theorem connected (h : g.Agrees) {p n : NodeId} (positive : p ∈ g.nodes) (negative : n ∈ g.nodes)
    (apart : p ≠ n) :
    ∃ r g', g.newBranch p n = .ok (r, g') ∧ g'.newBranch n p = .ok (⟨r.branch, !r.reversed⟩, g') ∧
      r.branch ∈ g'.branches ∧ g'.circuit.Joins r p n ∧
      g'.circuit.Joins ⟨r.branch, !r.reversed⟩ n p ∧
      ∀ b ∈ g.branches, (g.circuit.branch b).isAlias = false → g.circuit.ends b = s(p, n) →
        r.branch = b ∧ g' = g := by
  rw [h.nodes, List.mem_range] at positive negative
  obtain ⟨r, c, made, back, mem, joins, swapped, only⟩ := h.tidy.connected positive negative apart
  obtain ⟨g', run, rfl, agrees, same⟩ := h.newBranch_ok positive negative made
  have more := (connect_extends made).nodes
  obtain ⟨g'', again, _, _, unchanged⟩ := agrees.newBranch_ok (Nat.lt_of_lt_of_le negative more)
    (Nat.lt_of_lt_of_le positive more) back
  rw [unchanged rfl] at again
  refine ⟨r, g', run, again, agrees.branches ▸ mem, joins, swapped, fun b there own ends => ?_⟩
  rw [h.branches] at there
  exact ⟨(only b there own ends).1, same (only b there own ends).2⟩

end Agrees

/-- Whatever calls are made, the registers keep their promises. -/
theorem coherent_performAll (calls : List RegistryCall) : (empty.performAll calls).Coherent := by
  have h := agrees_empty.performAll calls
  generalize empty.performAll calls = g at h
  exact {
    numbers := by
      intro k i place
      obtain ⟨inside, rfl⟩ : k < g.circuit.nodes.size ∧ k = i := by
        simpa [h.nodes, List.getElem?_eq_some_iff] using place
      simp [h.numbers, inside]
    ground := by
      have first := h.lookup_node_iff.mp ((h.lookup_node groundName).trans h.tidy.ground)
      refine ⟨?_, first.2⟩
      rw [h.nodes, List.head?_range,
        if_neg (show g.circuit.nodes.size ≠ 0 from Nat.ne_of_gt h.tidy.ground_lt)]
      rfl
    distinct := by
      refine List.Nodup.map_on (fun i memI j memJ same => ?_) (h.nodes ▸ List.nodup_range)
      have found := h.lookup_node_iff.mpr ⟨memI, rfl⟩
      rw [h.lookup_node_iff.mpr ⟨memJ, same.symm⟩] at found
      exact (Option.some.inj found).symm
    nodemap := fun name i => h.lookup_node_iff
    apart := fun b mem => h.tidy.apart b (mem_listed.mp (h.branches ▸ mem)).1
    single := h.branches ▸ h.tidy.single
    pairs := fun p n b => h.lookup_pair_iff
    found := by
      intro b mem own p n ends
      rw [h.lookup_pair, h.lookup_pair]
      exact h.tidy.found (h.branches ▸ mem) own ends
    connected := fun p positive n negative apart => h.connected positive negative apart
    names := fun name a => h.lookup_name_iff
    based := by
      intro a mem known
      rw [h.branches] at mem ⊢
      exact (h.tidy.aliases mem known).2
    probes := by
      intro r s memR memS x y
      exact h.tidy.probes (h.branches ▸ memR) (h.branches ▸ memS) x y
    filters := by
      intro stem
      obtain ⟨g', run, same, -⟩ := h.newFilter stem
      obtain ⟨k, least, before, free, counter, named⟩ := g.circuit.addFilter_named stem
      refine ⟨k, _, g', run, least, fun j low high => ?_, ?_, ?_, ?_⟩
      · rw [h.lookup_node]
        exact before j low high
      · rw [h.lookup_node]
        exact free
      · rw [same]
        exact counter
      · rw [same]
        exact named }

end Registry
end Analog
