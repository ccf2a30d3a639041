import Analog.Proofs.Device.LateDeclarations

/-!
Devices while they are built. As long as no statement is added to a block that was settled, what was
resolved stays as it was traced: declarations do not reach it, and an update goes on from there.
-/
namespace Analog

namespace Statement

def Beneath (d : Design) (top : ScopeId) (all : List ScopeId) (scope : ScopeId) : Prop :=
  ∃ xs, d.chain scope = xs ++ d.chain top ∧ ∀ x ∈ xs, x ∈ all

theorem Beneath.inner {d : Design} {top outer scope : ScopeId} {all : List ScopeId}
    (h : Beneath d top all outer) (fits : (d.scopeOf scope).enclosing = d.chain outer)
    (mem : scope ∈ all) :
    Beneath d top all scope := by
  obtain ⟨xs, chain, inside⟩ := h
  refine ⟨scope :: xs, ?_, List.forall_mem_cons.mpr ⟨mem, inside⟩⟩
  rw [Design.chain, fits, chain]
  rfl

theorem Every.mono_beneath {d : Design} {top : ScopeId} {all : List ScopeId}
    {p q : ScopeId → Statement → Prop}
    (weaken : ∀ outer s, Beneath d top all outer → (∀ x ∈ s.ownScopes, x ∈ all) →
      p outer s → q outer s) (s : Statement) {outer : ScopeId} (fits : s.Every (Fits d) outer)
    (within : ∀ x ∈ s.scopes, x ∈ all)
    (beneath : Beneath d top all outer) (h : s.Every p outer) : s.Every q outer :=
  Every.imp (fun scope s (near : Beneath d top all scope) own h => weaken scope s near own h.own)
    (fun _ _ near own fits scope mem => near.inner (fits.enclosing mem) (own scope mem)) s
      beneath within fits h

theorem Every.traced_of_untouched {r : Resolver} {d : Design} {s : Statement} {outer : ScopeId}
    (h : s.Every (fun _ => Untouched) outer) : s.Every (Traced r d) outer := by
  refine Every.imp (fun _ s (_ : True) (_ : ∀ x ∈ ([] : List Unit), True) h => ?_)
    (fun _ _ _ _ _ _ _ => trivial) s
    trivial (fun _ _ => trivial) h h
  cases s with
  | declare s =>
    intro u held
    rw [show s.value = none from h] at held
    cases held
  | assign s =>
    intro t held
    rw [show s.value = none from h] at held
    cases held
  | contribute s =>
    refine ⟨fun _ => h.2, fun t held => ?_⟩
    rw [h.1] at held
    cases held
  | conditional c thnScope thn elsScope els =>
    obtain ⟨⟨value, summary⟩, first, second⟩ := h
    refine ⟨⟨fun _ => summary, fun t held => ?_⟩, fun t held => ?_, fun _ => first, fun _ => second⟩
    · rw [value] at held
      cases held
    · rw [value] at held
      cases held
  | block inner body => trivial

theorem shallow_untouched : Shallow fun _ => Untouched := by
  intro outer arm new s h
  cases s <;> cases arm <;> exact h

theorem blind_ownGives : Blind ownGives := by
  intro arm new s
  cases s <;> cases arm <;> rfl

theorem gatherAll_eq_flatMap {α : Type} (own : Statement → List α) (ss : List Statement) :
    gatherAll own ss = ss.flatMap (gather own) := by
  induction ss with
  | nil => rfl
  | cons s ss ih => rw [gatherAll, ih, List.flatMap_cons]

theorem scopes_apart {body : List Statement} (distinct : (scopesAll body).Nodup) {i j : Nat}
    {s t : Statement} (at_i : body[i]? = some s) (at_j : body[j]? = some t) (other : i ≠ j) :
    ∀ x ∈ s.scopes, x ∉ t.scopes := by
  rw [scopesAll, gatherAll_eq_flatMap, List.nodup_flatMap] at distinct
  obtain ⟨inside_i, rfl⟩ := List.getElem?_eq_some_iff.mp at_i
  obtain ⟨inside_j, rfl⟩ := List.getElem?_eq_some_iff.mp at_j
  have apart := List.pairwise_iff_getElem.mp distinct.2
  intro x mem mem'
  rcases Nat.lt_or_gt_of_ne other with before | after
  · exact apart i j inside_i inside_j before mem mem'
  · exact apart j i inside_j inside_i after mem' mem

theorem block_of_blockAt {scope inner : ScopeId} {body old : List Statement} {i : Nat} {arm : Arm}
    {rest : Address} (found : blockAt? scope body ((i, arm) :: rest) = some (inner, old)) :
    ∃ s, body[i]? = some s ∧ inner ∈ s.scopes := by
  obtain ⟨s, next, inside, at_i, into, deeper, -⟩ := blockAt?_cons found
  exact ⟨s, at_i, mem_scopes_of_arm into (scope_blockAt deeper)⟩

end Statement

namespace Device

variable {m m' : Device} {done : Nat → Prop}

/-- A device that was built in order: the blocks of which `done` does not hold were never
settled. -/
structure Tracks (m : Device) (done : Nat → Prop) : Prop where
  traceable : Statement.Traceable m.resolver analogScope m.body m.design
  titled : m.design.Titled
  blank : ∀ j s, m.body[j]? = some s → ¬ done j → s.Every (fun _ => Statement.Untouched) analogScope
  waits : ∀ w ∈ m.waiting, done w.block

theorem Tracks.mono (h : m.Tracks done) {more : Nat → Prop} (grown : ∀ i, done i → more i) :
    m.Tracks more where
  traceable := h.traceable
  titled := h.titled
  blank j s at_j idle := h.blank j s at_j fun settled => idle (grown j settled)
  waits w mem := grown _ (h.waits w mem)

theorem Sound.chain_analog (h : m.Sound) :
    m.design.chain analogScope = [analogScope, Design.rootScope] := by
  rw [Design.chain, h.outer.2]

theorem Sound.nested_of_mem (h : m.Sound) {s : Statement} (mem : s ∈ m.body) :
    s.Nested m.design analogScope := by
  have inside : ∀ x ∈ s.scopes, x ∈ Statement.scopesAll m.body := by
    intro x own
    rw [Statement.scopesAll, Statement.gatherAll_eq_flatMap]
    exact List.mem_flatMap.mpr ⟨s, mem, own⟩
  refine ⟨Statement.everyAll_iff.mp h.nested.fits s mem, ?_,
    fun x own => h.nested.apart x (inside x own)⟩
  have distinct := h.nested.distinct
  rw [Statement.scopesAll, Statement.gatherAll_eq_flatMap, List.nodup_flatMap] at distinct
  exact distinct.1 s mem

theorem Sound.beneath (h : m.Sound) {s : Statement} (mem : s ∈ m.body) {scope : ScopeId}
    (beneath : Statement.Beneath m.design analogScope s.scopes scope) : m.design.Rooted scope ∧
      ∀ x ∈ m.design.chain scope, x ∈ s.scopes ∨ x ∈ m.design.chain analogScope := by
  obtain ⟨xs, chain, inside⟩ := beneath
  have own : ∀ x ∈ s.scopes, 2 ≤ x ∧ x < m.design.scopes.size := by
    intro x inScopes
    refine h.scopes x ?_
    rw [Statement.scopesAll, Statement.gatherAll_eq_flatMap]
    exact List.mem_flatMap.mpr ⟨s, mem, inScopes⟩
  have split : ∀ x ∈ m.design.chain scope, x ∈ s.scopes ∨ x ∈ m.design.chain analogScope := by
    rw [chain]
    intro x here
    exact (List.mem_append.mp here).imp_left (inside x)
  refine ⟨⟨?_, xs ++ [analogScope], ?_, ?_⟩, split⟩
  · rcases split scope List.mem_cons_self with inScopes | around
    · exact (own scope inScopes).2
    · rw [h.chain_analog] at around
      rcases List.mem_pair.mp around with rfl | rfl
      · exact h.analog_lt
      · exact Nat.lt_of_lt_of_le (by decide) h.outer.1
  · rw [chain, h.chain_analog, List.append_assoc]
    rfl
  · intro root
    rcases List.mem_append.mp root with inXs | last
    · exact absurd (own _ (inside _ inXs)).1 (by decide)
    · cases List.mem_singleton.mp last

theorem Tracks.declares (h : m.Tracks done) (sound : m.Sound) {into : ScopeId → Prop} {d : Design}
    (declares : Design.Declares into m.design d) (plain : d.Plain)
    (outer : ∀ x ∈ m.design.chain analogScope, ¬ into x)
    (away : ∀ j s, m.body[j]? = some s → done j → ∀ x ∈ s.scopes, ¬ into x) :
    Tracks { m with design := d } done := by
  refine ⟨⟨?_, ?_, ?_, ?_⟩, declares.titled h.titled, h.blank, h.waits⟩
  · refine Statement.everyAll_iff.mpr fun s mem => ?_
    obtain ⟨j, at_j⟩ := List.mem_iff_getElem?.mp mem
    by_cases settled : done j
    · have fits := Statement.everyAll_iff.mp sound.nested.fits s mem
      refine Statement.Every.mono_beneath (fun scope t beneath own traced => ?_) s fits
        (fun _ own => own)
        ⟨[], rfl, nofun⟩ (Statement.everyAll_iff.mp h.traceable.traced s mem)
      obtain ⟨rooted, around⟩ := sound.beneath mem beneath
      have remains := declares.remains h.titled plain scope rooted fun x here =>
        (around x here).elim (away j s at_j settled x) (outer x)
      exact traced.mono remains (fun v => declares.env v ▸ .refl _) fun x _ => declares.reach x
    · exact (h.blank j s at_j settled).traced_of_untouched
  · intro v w mentioned
    rw [declares.env] at mentioned
    exact h.traceable.fed v w mentioned
  · intro v x mentioned
    rw [declares.env] at mentioned
    exact (h.traceable.grounded v x mentioned).mono declares.circuit.branches declares.vars
  · exact h.traceable.unmarked.remains declares.circuit declares.needed

theorem Tracks.setBlock (h : m.Tracks done) {i : Nat} {arm : Arm} {rest : Address} {inner : ScopeId}
    {old : List Statement}
    (found : Statement.blockAt? analogScope m.body ((i, arm) :: rest) = some (inner, old))
    (idle : ¬ done i) {s : Statement} (new : s.Every (fun _ => Statement.Untouched) inner) :
    Tracks { m with body := Statement.setBlockAt (old ++ [s]) m.body ((i, arm) :: rest) } done := by
  have self := Statement.setBlockAt_self found
  obtain ⟨before, after, gives⟩ := Statement.gatherAll_setBlockAt Statement.blind_ownGives found
  obtain ⟨t, next, inside, at_i, into, deeper, body⟩ := Statement.blockAt?_cons found
  have untouched := h.blank i t at_i idle
  have within := untouched.arm into
  have more : Statement.EveryAll (fun _ => Statement.Untouched) inner (old ++ [s]) := by
    refine Statement.everyAll_iff.mpr fun u mem => ?_
    rcases List.mem_append.mp mem with known | last
    · exact Statement.everyAll_iff.mp (within.blockAt deeper) u known
    · cases List.mem_singleton.mp last
      exact new
  have changed := untouched.setArm Statement.shallow_untouched into
    (within.setBlockAt Statement.shallow_untouched deeper more)
  have blocks : ∀ j u, (Statement.setBlockAt (old ++ [s]) m.body ((i, arm) :: rest))[j]? = some u →
      m.body[j]? = some u ∨ j = i ∧ u.Every (fun _ => Statement.Untouched) analogScope := by
    intro j u at_j
    rw [body, List.getElem?_modify] at at_j
    by_cases same : i = j
    · subst same
      simp only [↓reduceIte, at_i, Option.map_eq_map, Option.map_some, Option.some.injEq] at at_j
      exact .inr ⟨rfl, at_j ▸ changed⟩
    · exact .inl (by simpa [same] using at_j)
  refine ⟨⟨?_, ?_, h.traceable.grounded, h.traceable.unmarked⟩, h.titled, ?_, h.waits⟩
  · refine Statement.everyAll_iff.mpr fun u mem => ?_
    obtain ⟨j, at_j⟩ := List.mem_iff_getElem?.mp mem
    rcases blocks j u at_j with same | ⟨_, blank⟩
    · exact Statement.everyAll_iff.mp h.traceable.traced u (List.mem_of_getElem? same)
    · exact blank.traced_of_untouched
  · refine h.traceable.fed.mono fun w v fed => ?_
    rw [← self, Statement.givesAll, gives] at fed
    refine fed.mono fun x mem => ?_
    rw [Statement.givesAll, gives, Statement.gatherAll_append]
    simp only [List.mem_append] at mem ⊢
    exact mem.imp_left (Or.imp_right .inl)
  · intro j u at_j settled
    rcases blocks j u at_j with same | ⟨_, blank⟩
    · exact h.blank j u same settled
    · exact blank

theorem Tracks.newBlock (h : m.Tracks done) (inner : ScopeId) :
    Tracks { m with body := m.body ++ [.block inner []] } done := by
  have blank : (Statement.block inner []).Every (fun _ => Statement.Untouched) analogScope :=
    ⟨trivial, trivial⟩
  refine ⟨⟨?_, ?_, h.traceable.grounded, h.traceable.unmarked⟩, h.titled, ?_, h.waits⟩
  · refine Statement.everyAll_iff.mpr fun u mem => ?_
    rcases List.mem_append.mp mem with known | new
    · exact Statement.everyAll_iff.mp h.traceable.traced u known
    · cases List.mem_singleton.mp new
      exact blank.traced_of_untouched
  · refine h.traceable.fed.mono fun w v fed => ?_
    rw [Statement.givesAll, Statement.gatherAll_append]
    exact fed.mono fun x mem => List.mem_append_left _ mem
  · intro j u at_j settled
    rcases List.mem_append.mp (List.mem_of_getElem? at_j) with _ | new
    · rw [List.getElem?_append] at at_j
      split at at_j
      · exact h.blank j u at_j settled
      · cases List.mem_singleton.mp (List.mem_of_getElem? at_j)
        exact blank
    · cases List.mem_singleton.mp new
      exact blank

theorem Tracks.updateBlock (h : m.Tracks done) (sound : m.Sound) {i : Nat} {s : Statement}
    (at_i : m.body[i]? = some s) (settled : done i) :
    Tracks { m with
      design := (s.update m.resolver analogScope m.design).design
      body := m.body.set i (s.update m.resolver analogScope m.design).value } done := by
  have mem := List.mem_of_getElem? at_i
  have traces := Statement.update_traces m.resolver sound.wellFormed s (sound.nested_of_mem mem)
    (Statement.everyAll_iff.mp h.traceable.traced s mem)
  obtain ⟨before, after, whole, gives⟩ := Statement.gatherAll_modify Statement.ownGives at_i
  have others : ∀ j t, (m.body.set i (s.update m.resolver analogScope m.design).value)[j]? =
      some t →
      j ≠ i ∧ m.body[j]? = some t ∨ j = i ∧
        t = (s.update m.resolver analogScope m.design).value := by
    intro j t at_j
    rw [List.getElem?_set] at at_j
    split at at_j
    · rename_i same
      split at at_j
      · cases at_j
        exact .inr ⟨same.symm, rfl⟩
      · cases at_j
    · rename_i other
      exact .inl ⟨fun same => other same.symm, at_j⟩
  refine ⟨⟨?_, ?_, traces.flows.grounded h.traceable.grounded,
    traces.flows.unmarked h.traceable.unmarked⟩, ?_, ?_, h.waits⟩
  · refine Statement.everyAll_iff.mpr fun t memSet => ?_
    obtain ⟨j, at_j⟩ := List.mem_iff_getElem?.mp memSet
    rcases others j t at_j with ⟨other, same⟩ | ⟨_, rfl⟩
    · exact Statement.every_traced_of_flows traces.flows t
        (Statement.scopes_apart sound.distinct same at_i other)
        (Statement.everyAll_iff.mp h.traceable.traced t (List.mem_of_getElem? same))
    · exact traces.traced
  · refine (traces.flows.fed _ h.traceable.fed).mono fun w v known => ?_
    rw [Statement.givesAll, List.set_eq_modify, gives, Statement.feeds_append,
      Statement.feeds_append]
    rcases known with old | now
    · rw [Statement.givesAll, whole, Statement.feeds_append, Statement.feeds_append] at old
      exact old.imp_left (Or.imp_right (traces.feeds w v))
    · exact .inl (.inr now)
  · intro name b found
    rw [traces.flows.grown.bindings]
    rw [Circuit.lookup?_extends traces.flows.grown.circuit] at found
    exact h.titled name b found
  · intro j t at_j idle
    rcases others j t at_j with ⟨_, same⟩ | ⟨rfl, _⟩
    · exact h.blank j t same idle
    · exact absurd settled idle

structure Goes (m : Device) (done : Nat → Prop) (m' : Device) : Prop where
  sound : m'.Sound
  bindings : ∀ s, ∀ x ∈ (m.design.scopeOf s).bindings, x ∈ (m'.design.scopeOf s).bindings
  tracks : m.Tracks done → m'.design.Plain → m'.Tracks done

theorem Goes.refl (h : m.Sound) : m.Goes done m := ⟨h, fun _ _ mem => mem, fun tracks _ => tracks⟩

theorem Goes.congr {m'' : Device} (h : m.Goes done m') (design : m''.design = m'.design)
    (body : m''.body = m'.body) (resolver : m''.resolver = m'.resolver)
    (waits : m.Tracks done → (∀ w ∈ m'.waiting, done w.block) → ∀ w ∈ m''.waiting, done w.block) :
    m.Goes done m'' where
  sound := h.sound.congr design body
  bindings := by
    rw [design]
    exact h.bindings
  tracks before plain := by
    rw [design] at plain
    have after := h.tracks before plain
    refine ⟨?_, ?_, ?_, waits before after.waits⟩
    · rw [resolver, body, design]
      exact after.traceable
    · rw [design]
      exact after.titled
    · rw [body]
      exact after.blank

structure Adds (m m' : Device) : Prop where
  declares : Design.Declares (fun _ => False) m.design m'.design
  body : m'.body = m.body
  resolver : m'.resolver = m.resolver
  waiting : m'.waiting = m.waiting

theorem Adds.trans {a b c : Device} (ab : a.Adds b) (bc : b.Adds c) : a.Adds c :=
  ⟨ab.declares.trans bc.declares, bc.body.trans ab.body, bc.resolver.trans ab.resolver,
    bc.waiting.trans ab.waiting⟩

theorem Adds.refl (h : m.Sound) : m.Adds m := ⟨.refl h.wellFormed, rfl, rfl, rfl⟩

theorem Adds.ofDesign {d : Design} (declares : Design.Declares (fun _ => False) m.design d) :
    m.Adds { m with design := d } := ⟨declares, rfl, rfl, rfl⟩

theorem Adds.modifyParameter (h : m.Adds m') {p : ParameterId} (new : m.design.parameters.size ≤ p)
    (f : Parameter → Parameter) : m.Adds { m' with design := m'.design.modifyParameter p f } :=
  ⟨h.declares.modifyParameter new f, h.body, h.resolver, h.waiting⟩

theorem Adds.goes (h : m.Adds m') (before : m.Sound) (after : m'.Sound) : m.Goes done m' where
  sound := after
  bindings := h.declares.bindings
  tracks tracks plain := by
    have moved := tracks.declares before h.declares plain (fun _ _ h => h) fun _ _ _ _ _ _ h => h
    refine ⟨?_, moved.titled, ?_, ?_⟩
    · rw [h.resolver, h.body]
      exact moved.traceable
    · rw [h.body]
      exact moved.blank
    · rw [h.waiting]
      exact moved.waits

end Device

namespace DeviceM

open Device

abbrev Leads {α : Type} (act : DeviceM α) (m : Device) (p : Device → Prop) : Prop :=
  Meets act m (fun _ => p) fun _ => p

variable {m m' : Device} {done : Nat → Prop}

theorem Leads.mono {α : Type} {act : DeviceM α} {p q : Device → Prop} (h : Leads act m p)
    (weaken : ∀ m', p m' → q m') : Leads act m q := Meets.mono h (fun _ => weaken) fun _ => weaken

section Declarations

theorem root_lt (h : m.Sound) : Design.rootScope < m.design.scopes.size :=
  Nat.lt_of_lt_of_le (by decide) h.outer.1

theorem newNode_adds (h : m.Sound) (item : Item) (name : String) :
    Leads (newNode item name) m m.Adds := by
  have added : m.Adds { m with
    design := { m.design with circuit := (m.design.circuit.addNode name).2.2 } } :=
    .ofDesign (Design.declares_addNode h.wellFormed name)
  refine Meets.get ?_
  unfold Meets
  simp only [bind, EStateM.bind, set, MonadStateOf.set, EStateM.set]
  split
  · rename_i run
    split at run <;> cases run
    exact added
  · rename_i run
    split at run <;> cases run
    exact added

theorem define_adds (h : m.Sound) (item : Item) (name : String) (b : Binding) :
    Leads (define item name b) m m.Adds := by
  refine Meets.get ?_
  split
  · rename_i d made
    exact .ofDesign (Design.declares_define? (root_lt h) made)
  · exact .refl h

theorem defineBranch_adds (h : m.Sound) {ref : BranchRef} {name : String} {b : BranchId}
    {c : Circuit} (made : m.design.circuit.addAlias? ref name = some (b, c)) :
    Leads (define .branch name (.branch b)) { m with design := { m.design with circuit := c } }
    m.Adds := by
  refine Meets.get ?_
  split
  · rename_i d defined
    exact .ofDesign (Design.declares_branch (root_lt h) made defined)
  · rename_i taken
    refine .ofDesign (Design.declares_alias made fun free => ?_)
    have empty : (Design.scopeOf { m.design with circuit := c } Design.rootScope).bindings.lookup
      name = none :=
      free
    simp only [Design.define?, empty] at taken
    cases taken

theorem declarePort_adds (h : m.Sound) (name : String) : Leads (declarePort name) m m.Adds := by
  refine Meets.bind ((newNode_meets h .port name).and (newNode_adds h .port name) |>.mono
    (fun _ _ h => h) fun _ _ h => h.2) ?_
  rintro i m₁ ⟨⟨sound, inside, named⟩, adds⟩
  refine Meets.bind ((define_adds sound .port name (.port i)).mono fun _ more => adds.trans more) ?_
  intro _ m₂ adds
  exact ⟨adds.declares, adds.body, adds.resolver, adds.waiting⟩

theorem declareNode_adds (h : m.Sound) (name : String) : Leads (declareNode name) m m.Adds := by
  refine Meets.get ?_
  split
  · exact Meets.pure (.refl h)
  · refine Meets.bind ((newNode_meets h .node name).and (newNode_adds h .node name) |>.mono
      (fun _ _ h => h) fun _ _ h => h.2) ?_
    rintro i m₁ ⟨⟨sound, inside, named⟩, adds⟩
    exact (define_adds sound .node name (.net i)).mono fun _ more => adds.trans more

theorem declareVariable_adds (h : m.Sound) (name : String) (type : DataType) :
    Leads (declareVariable name type) m m.Adds := by
  have added : m.Adds { m with design := (m.design.addVariable (.ofType name type)).2 } :=
    .ofDesign (Design.declares_addVariable h.wellFormed name type)
  have sound := h.widen (Design.widens_addVariable h.wellFormed name type)
  exact (define_adds sound .variable name (.variable _)).mono fun _ more => added.trans more

theorem settleParameter_adds (h : m.Adds m') {p : ParameterId} (new : m.design.parameters.size ≤ p)
    (name : String) (isLocal : Bool) (default : Tree) :
    Leads (settleParameter p name isLocal default) m' m.Adds := by
  have given := h.modifyParameter new ({ · with default := some default })
  refine Meets.modify (Meets.get ?_)
  split
  · exact given
  · exact given.modifyParameter new _
  · split
    · exact given.modifyParameter new _
    · exact given

theorem resolve_adds (h : m.Sound) (r : Resolver) (source : Source) (context : String) :
    Leads (onDesign fun d =>
      match source.resolve r Design.rootScope d with
      | .error f d => .error (f.inside context) d
      | .ok t d => .ok t d) m m.Adds := by
  unfold Leads Meets onDesign
  cases run : source.resolve r Design.rootScope m.design with
  | error f d =>
    simp only [run]
    exact .ofDesign (.ofKept (Source.kept_of_error h.wellFormed run))
  | ok t d =>
    simp only [run]
    exact .ofDesign (.ofKept (Source.kept_of_ok h.wellFormed run))

theorem release_adds (wf : m.design.WellFormed) (t : Tree) :
    Leads (onDesign (DesignM.onCircuit t.release)) m m.Adds := by
  unfold Leads Meets onDesign DesignM.onCircuit
  cases run : t.release m.design.circuit with
  | error u c =>
    exact .ofDesign (.ofKept (.ofUncounted wf ((Circuit.recounts_giveAll _ _).2 _ _ run)))
  | ok x c =>
    exact .ofDesign (.ofKept (.ofUncounted wf ((Circuit.recounts_giveAll _ _).1 _ _ run)))

theorem declareParameter_adds (h : m.Sound) (name : String) (type : DataType) (default : Raw)
    (isLocal : Bool) : Leads (declareParameter name type default isLocal) m m.Adds := by
  have told := Parameter.told_ofType name type isLocal
  have widens := Design.widens_addParameter h.wellFormed told
  have sound := h.widen (widens.trans (Design.widens_addSource widens.wellFormed default))
  have added : m.Adds { m with
      design := ((m.design.addParameter (.ofType name type isLocal)).2.addSource default).2 } :=
    .ofDesign ((Design.declares_addParameter h.wellFormed told).trans
      (Design.declares_addSource widens.wellFormed default))
  have inside : m.design.parameters.size <
      (m.design.addParameter (.ofType name type isLocal)).2.parameters.size := by
    simp [Design.addParameter]
  refine Meets.get (Meets.set ?_)
  refine Meets.bind ((define_meets sound .parameter name (.parameter _) inside trivial).and
    (define_adds sound .parameter name (.parameter _)) |>.mono (fun _ _ h => h)
      fun _ _ more => added.trans more.2) ?_
  rintro _ m₁ ⟨⟨sound₁, _⟩, more⟩
  refine Meets.modify ?_
  have sound₂ : Device.Sound { m₁ with parameters := m₁.parameters ++
    [m.design.parameters.size] } :=
    sound₁.congr rfl rfl
  have adds₂ : m.Adds { m₁ with parameters := m₁.parameters ++ [m.design.parameters.size] } :=
    ⟨(added.trans more).declares, (added.trans more).body, (added.trans more).resolver,
      (added.trans more).waiting⟩
  refine Meets.bind ((resolve_meets sound₂ m.resolver _ ("parameter " ++ name)).and
    (resolve_adds sound₂ m.resolver _ ("parameter " ++ name)) |>.mono (fun _ _ h => h)
      fun _ _ more => adds₂.trans more.2) ?_
  rintro t m₃ ⟨loose, more⟩
  have adds₃ := adds₂.trans more
  split
  · refine Meets.bind ((release_adds loose.ledger.wellFormed t).mono fun _ more
      => adds₃.trans more) ?_
    intro _ m₄ adds₄
    exact Meets.stop adds₄
  · exact settleParameter_adds adds₃ (Nat.le_refl _) name isLocal t

end Declarations

section Updates

variable {m₁ : Device}

theorem nodeNamed_stays (m : Device) (name : String) : Leads (nodeNamed name) m (· = m) := by
  refine Meets.get ?_
  split
  · exact Meets.pure rfl
  · exact Meets.pure rfl
  · rfl
  · rfl

end Updates

end DeviceM

end Analog
