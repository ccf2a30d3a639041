import Analog.Proofs.Dataflow.SummaryOrigins

/-!
Marks have no part in resolving. Where they are left out, an expression resolves to the same tree,
so what a condition was found to be is not lost when a device is marked.
-/
namespace Analog

def Seen {ε σ α : Type} (view : σ → σ) : EStateM.Result ε σ α → EStateM.Result ε σ α
  | .ok a s => .ok a (view s)
  | .error e s => .error e (view s)

/-- What an operation does can be seen through `view`: it does not depend on the rest. -/
def Blind {ε σ α : Type} (view : σ → σ) (act : EStateM ε σ α) :
    Prop := ∀ s, act (view s) = Seen view (act s)

namespace Blind

variable {ε σ α β : Type} {view : σ → σ} {act : EStateM ε σ α} {next : α → EStateM ε σ β}

theorem pure (a : α) : Blind view (Pure.pure a : EStateM ε σ α) := fun _ => rfl

theorem bind (first : Blind view act) (rest : ∀ a, Blind view (next a)) :
    Blind view (act >>= next) := by
  intro s
  simp only [Bind.bind, EStateM.bind, first s]
  cases act s with
  | ok a s₁ => exact rest a s₁
  | error e s₁ => rfl

theorem read {next : σ → EStateM ε σ β}
    (rest : ∀ s, next (view s) (view s) = Seen view (next s s)) : Blind view (get >>= next) := rest

end Blind

namespace Tree

variable {c c' : Circuit}

mutual

theorem source_congr (nodes : ∀ i, c'.nodeName i = c.nodeName i)
    (refs : ∀ ref, c'.refText ref = c.refText ref) (t : Tree) : t.source c' = t.source c := by
  cases t with
  | literal | parameter | «variable» | marker | deferred => rfl
  | declaration v init => simp only [source, source_congr nodes refs init]
  | access q => simp only [source, Quantity.text, refs]
  | node i | port i => exact nodes i
  | unary op x s => simp only [source, source_congr nodes refs x]
  | binary op l r s => simp only [source, source_congr nodes refs l, source_congr nodes refs r]
  | ternary k t e s =>
    simp only [source, source_congr nodes refs k, source_congr nodes refs t,
      source_congr nodes refs e]
  | call f args filter s => simp only [source, sources_congr nodes refs args]
  | arguments items => simp only [source, sources_congr nodes refs items]

theorem sources_congr (nodes : ∀ i, c'.nodeName i = c.nodeName i)
    (refs : ∀ ref, c'.refText ref = c.refText ref)
    (ts : List Tree) : sources c' ts = sources c ts := by
  cases ts with
  | nil => rfl
  | cons t ts => simp only [sources, source_congr nodes refs t, sources_congr nodes refs ts]

end

end Tree

/-- A branch without its marks. -/
def Branch.bare (b : Branch) :
    Branch := { b with needed := .empty, potentialNeeded := .empty, flowNeeded := .empty }

namespace Circuit

variable {c c' : Circuit}

/-- A circuit without its marks. -/
def bare (c : Circuit) : Circuit := { c with branches := c.branches.map Branch.bare }

theorem size_bare (c : Circuit) : c.bare.branches.size = c.branches.size := Array.size_map

theorem branch_bare (c : Circuit) (b : BranchId) : c.bare.branch b = (c.branch b).bare := by
  unfold bare branch
  by_cases inside : b < c.branches.size
  · simp [Array.getD, inside]
  · simp [Array.getD, inside]
    rfl

theorem bare_eq_of_branches (nodes : c'.nodes = c.nodes) (size : c'.branches.size = c.branches.size)
    (branches : ∀ b, (c'.branch b).bare = (c.branch b).bare) (filters : c'.filters = c.filters) :
    c'.bare = c.bare := by
  have same : c'.branches.map Branch.bare = c.branches.map Branch.bare := by
    refine Array.ext (by simp [size]) fun b inside inside' => ?_
    rw [Array.size_map] at inside inside'
    simpa [branch, Array.getD, inside, inside'] using branches b
  rw [bare, bare, nodes, same, filters]

theorem unneeded_bare (c : Circuit) (b : BranchId) : (c.bare.branch b).Unneeded := by
  rw [branch_bare]
  exact ⟨rfl, rfl, rfl⟩

section Reading

variable (c : Circuit)

theorem base_bare (b : BranchId) : c.bare.base b = c.base b := by
  rw [base, base, branch_bare]
  rfl

theorem probe_bare (b : BranchId) (a : Access) : c.bare.probe b a = c.probe b a :=
    by rw [probe, probe, base_bare]

theorem refText_bare (ref : BranchRef) : c.bare.refText ref = c.refText ref := by
  simp only [refText, refP, refN, branch_bare]
  rfl

theorem branchText_bare (b : BranchId) : c.bare.branchText b = c.branchText b := by
  simp only [branchText, pairText, base_bare, branch_bare]
  rfl

theorem firstBranch?_bare {q : Branch → Bool} (blind : ∀ b : Branch, q b.bare = q b) :
    c.bare.firstBranch? q = c.firstBranch? q :=
  firstBranch?_congr c.size_bare fun b => by rw [branch_bare, blind]

theorem lookup?_bare (name : String) : c.bare.lookup? name = c.lookup? name := by
  rw [lookup?_eq, lookup?_eq]
  exact c.firstBranch?_bare fun _ => rfl

theorem findPair?_bare (p n : NodeId) : c.bare.findPair? p n = c.findPair? p n := by
  rw [findPair?_eq, findPair?_eq]
  exact c.firstBranch?_bare fun _ => rfl

theorem between?_bare (p n : NodeId) : c.bare.between? p n = c.between? p n := by
  rw [between?, between?, findPair?_bare, findPair?_bare]

end Reading

section Writing

variable (c : Circuit)

theorem modifyBranch_bare (b : BranchId) {f : Branch → Branch}
    (commutes : ∀ x : Branch, (f x).bare = f x.bare) :
    c.bare.modifyBranch b f = (c.modifyBranch b f).bare := by
  have same : (c.branches.map Branch.bare).modify b f = (c.branches.modify b f).map
      Branch.bare := by
    refine Array.ext (by simp) fun i inside inside' => ?_
    simp only [Array.getElem_modify, Array.getElem_map]
    split
    · exact (commutes _).symm
    · rfl
  simp only [modifyBranch, bare, same]

theorem addBranch_bare {new : Branch} (unmarked : new.bare = new) :
    c.bare.addBranch new = ((c.addBranch new).1, (c.addBranch new).2.bare) := by
  simp [addBranch, bare, Array.map_push, unmarked]

theorem raiseOne_bare (b : BranchId) (u : Usage) : c.bare.raiseOne b u = (c.raiseOne b u).bare := by
  have known : c.bare.count b u = c.count b u := by
    rw [count, count, branch_bare]
    rfl
  rw [raiseOne, raiseOne, known]
  exact c.modifyBranch_bare b fun _ => rfl

theorem take_bare (b : BranchId) (u : Usage) : c.bare.take b u = (c.take b u).bare := by
  unfold take
  rw [branch_bare, show (c.branch b).bare.base = (c.branch b).base from rfl]
  cases (c.branch b).base with
  | none => exact c.raiseOne_bare b u
  | some base => simp only [raiseOne_bare]

theorem connect_bare (p n : NodeId) : c.bare.connect p n = (c.connect p n).map fun x =>
    (x.1, x.2.bare) := by
  unfold connect
  rw [findPair?_bare, findPair?_bare, addBranch_bare c rfl]
  cases p == n with
  | true => rfl
  | false =>
    cases c.findPair? p n with
    | some b => rfl
    | none => cases c.findPair? n p <;> rfl

theorem addFilter_bare (stem : String) :
    c.bare.addFilter stem = ((c.addFilter stem).1, (c.addFilter stem).2.bare) := by
  have free : c.bare.freeFilter stem = c.freeFilter stem := by
    have each (fuel k : Nat) : c.bare.freeFilterFuel stem fuel k = c.freeFilterFuel
        stem fuel k := by
      induction fuel generalizing k with
      | zero => rfl
      | succ fuel ih => simp only [freeFilterFuel, ih, show c.bare.findNode? = c.findNode? from rfl]
    exact each _ _
  rw [addFilter_eq, addFilter_eq, free]
  refine Prod.ext c.size_bare (congrArg Prod.snd (addBranch_bare
    ⟨c.nodes.push ⟨filterName stem (c.freeFilter stem), none⟩, c.branches,
      c.freeFilter stem + 1⟩ ?_))
  rfl

theorem blind_lowerOne (b : BranchId) (u : Usage) : Blind bare (lowerOne b u) := by
  intro c
  have known : c.bare.count b u = c.count b u := by
    rw [count, count, branch_bare]
    rfl
  have set (n : Nat) : c.bare.setCount b u n = (c.setCount b u n).bare :=
    c.modifyBranch_bare b fun _ => rfl
  simp only [lowerOne, known, branchText_bare, set]
  cases c.count b u <;> rfl

theorem blind_giveAll (us : List (BranchId × Usage)) : Blind bare (giveAll us) := by
  induction us with
  | nil => exact .pure ()
  | cons x us ih =>
    refine .bind (.bind (blind_lowerOne x.1 x.2) fun _ => .read fun c => ?_) fun _ => ih
    rw [branch_bare, show (c.branch x.1).bare.base = (c.branch x.1).base from rfl]
    cases (c.branch x.1).base with
    | none => rfl
    | some base => exact blind_lowerOne base x.2 c

end Writing

theorem Remains.bare (h : c.Remains c') : c.bare.Remains c'.bare where
  nodes := h.nodes
  branches := by
    rw [size_bare, size_bare]
    exact h.branches
  kept b inside := by
    rw [size_bare] at inside
    have same := h.kept b inside
    rw [branch_bare, branch_bare]
    simpa [Branch.uncounted, Branch.bare] using congrArg (Branch.bare) same
  unneeded b _ := unneeded_bare c' b
  found p n ref insideP insideN found := by
    rw [between?_bare] at found ⊢
    exact h.found p n ref insideP insideN found

end Circuit

namespace Design

variable {d e : Design} {scope : ScopeId}

def bare (d : Design) : Design := { d with circuit := d.circuit.bare }

theorem lookup?_bare (d : Design) (name : String) :
    d.bare.circuit.lookup? name = d.circuit.lookup? name :=
  d.circuit.lookup?_bare name

theorem Remains.bare (h : d.Remains scope e) : d.bare.Remains scope e.bare where
  circuit := h.circuit.bare
  aliases name b found := by
    rw [lookup?_bare] at found ⊢
    exact h.aliases name b found
  filters := h.filters
  parameters := h.parameters
  given := h.given
  vars := h.vars
  bound := h.bound
  unbound name free known := by
    rw [lookup?_bare] at known
    exact h.unbound name free known

theorem WellFormed.bare (h : d.WellFormed) : d.bare.WellFormed where
  circuit := {
    ground := h.circuit.ground
    base a b based := by
      rw [show d.bare.circuit = d.circuit.bare from rfl, Circuit.branch_bare] at based ⊢
      rw [Circuit.size_bare]
      exact h.circuit.base a b based }
  filters x mem := by
    rw [show d.bare.circuit = d.circuit.bare from rfl, Circuit.branch_bare, Circuit.size_bare]
    exact h.filters x mem
  bindings s x mem := by
    have inside := h.bindings s x mem
    have nodes : d.circuit.nodes.size ≤ d.bare.circuit.nodes.size := Nat.le_refl _
    have branches : d.circuit.branches.size ≤ d.bare.circuit.branches.size :=
      Nat.le_of_eq (Circuit.size_bare d.circuit).symm
    exact inside.mono nodes branches (Nat.le_refl _) (Nat.le_refl _)
  summaries := h.summaries

end Design

namespace Resolve

open DesignM

theorem blind_releaseAll (ts : List Tree) : Blind Design.bare (onCircuit (Tree.releaseAll ts)) := by
  intro d
  unfold onCircuit Tree.releaseAll
  rw [show d.bare.circuit = d.circuit.bare from rfl, Circuit.blind_giveAll]
  cases Circuit.giveAll (Tree.allUses ts) d.circuit <;> rfl

theorem pervades_blind : Pervades (fun _ => True) fun act => Blind Design.bare act where
  pure := .pure
  fail _ _ := rfl
  bind := .bind
  read same rest := .read fun d => (congrFun (same d d.circuit.bare) d.bare).trans (rest d d)
  release := blind_releaseAll
  orRelease held act h d := by
    unfold DesignM.orRelease
    rw [h d]
    cases act d with
    | ok a d₁ => rfl
    | error f d₁ =>
      cases f with
      | underflow u => rfl
      | endless => rfl
      | problem p =>
        simp only [Seen, blind_releaseAll held d₁]
        cases onCircuit (Tree.releaseAll held) d₁ <;> rfl
  value t d := by
    have known : t.valueFault? d.bare.circuit = t.valueFault? d.circuit := by cases t <;> rfl
    rw [requireValue_eq, requireValue_eq, known]
    cases t.valueFault? d.circuit <;> rfl
  connect function p n d := by
    rw [connect_eq, connect_eq, show d.bare.circuit = d.circuit.bare from rfl, Circuit.connect_bare]
    cases d.circuit.connect p n <;> rfl
  named function name d := by
    rw [branch_named, branch_named, Design.lookup?_bare]
    cases d.circuit.lookup? name <;> rfl
  probe function a _ found := found.bind fun ref => .read fun d => by
    simp only [show d.bare.circuit = d.circuit.bare from rfl, Circuit.take_bare, Circuit.probe_bare]
    rfl
  given r function args d := by
    have texts : Tree.sources d.bare.circuit args = Tree.sources d.circuit args := by
      refine Tree.sources_congr ?_ d.circuit.refText_bare args
      exact fun _ => rfl
    rw [parameterGiven_eq, parameterGiven_eq, texts]
    cases asked args <;> rfl
  filter r site function args _ := by
    have found : Blind Design.bare (filterBranch site function) := by
      intro d
      rw [filterBranch_eq, filterBranch_eq, show d.bare.circuit = d.circuit.bare from rfl,
        Circuit.addFilter_bare, show d.bare.filters = d.filters from rfl]
      cases d.filters.lookup site <;> rfl
    unfold Resolve.filter
    split
    · exact .pure _
    · refine found.bind fun b => .read fun d => ?_
      simp only [show d.bare.circuit = d.circuit.bare from rfl, Circuit.takeFilter,
        Circuit.take_bare, Circuit.probe_bare]
      rfl

end Resolve

namespace Source

variable {r : Resolver} {scope : ScopeId} {s : Source} {t : Tree} {d d₁ e₁ : Design}

theorem blind_resolve (r : Resolver) (s : Source) (scope : ScopeId) :
    Blind Design.bare (s.resolve r scope) :=
  Resolve.pervades_blind.resolve (fun _ _ _ _ => trivial) scope

theorem resolve_of_bare (run : s.resolve r scope d.bare = .ok t e₁) :
    ∃ d₁, s.resolve r scope d = .ok t d₁ := by
  rw [blind_resolve] at run
  cases known : s.resolve r scope d with
  | error f d₁ =>
    rw [known] at run
    cases run
  | ok u d₁ =>
    rw [known] at run
    cases run
    exact ⟨d₁, rfl⟩

/-- The blocks of a conditional are reached as `arms` tells, as long as the meaning of names
remains. -/
def Decides (r : Resolver) (scope : ScopeId) (s : Source) (arms : Reach × Reach) (d : Design) :
    Prop :=
  ∀ e, d.bare.Remains scope e → e.WellFormed → ∃ t e₁, s.resolve r scope e = .ok t e₁ ∧
    Condition.arms t = arms

theorem Decides.mono {arms : Reach × Reach} {e : Design} (h : s.Decides r scope arms d)
    (later : d.bare.Remains scope e.bare) : s.Decides r scope arms e :=
  fun z after wf => h z (later.trans after) wf

theorem Decides.arms_eq {arms : Reach × Reach} (h : s.Decides r scope arms d) (wf : d.WellFormed)
    (run : s.resolve r scope d = .ok t d₁) : Condition.arms t = arms := by
  obtain ⟨u, e₁, again, same⟩ := h d.bare ((Design.Extends.refl _).remains scope) wf.bare
  obtain ⟨_, known⟩ := resolve_of_bare again
  cases run.symm.trans known
  exact same

theorem decides_of_resolve (wf : d.WellFormed) (run : s.resolve r scope d = .ok t d₁) :
    s.Decides r scope (Condition.arms t) d₁ := by
  intro e later wfLater
  have bare := blind_resolve r s scope d
  rw [run] at bare
  obtain ⟨e₂, known, -⟩ := resolve_remains wf.bare bare later wfLater
  exact ⟨_, _, known, Condition.arms_refresh _ t⟩

end Source
end Analog
