import Analog.Device.Editor
import Analog.Proofs.Design.Widening

/-!
What holds of a device between two calls: its design is well formed, its blocks are nested, and the
counters of its circuit tell the uses that its statements hold. Each call on a device keeps it,
whether the call succeeds or fails.
-/
namespace Analog

/-- What holds of a device between two calls. -/
structure Device.Sound (m : Device) : Prop where
  wellFormed : m.design.WellFormed
  faithful : m.design.Faithful
  holds : m.design.circuit.Holds (fun _ _ => 0) (Statement.heldAll m.body)
  every : Statement.EveryAll (Statement.Sound m.design) Device.analogScope m.body
  scopes : ∀ s ∈ Statement.scopesAll m.body, 2 ≤ s ∧ s < m.design.scopes.size
  distinct : (Statement.scopesAll m.body).Nodup
  outer : 2 ≤ m.design.scopes.size ∧
    (m.design.scopeOf Device.analogScope).enclosing = [Design.rootScope]
  reach : ∀ s, s ∉ Statement.guardedAll m.body → m.design.reachOf s = .always

namespace Device.Sound

variable {m : Device}

theorem analog_lt (h : m.Sound) : analogScope < m.design.scopes.size := h.outer.1

theorem widen (h : m.Sound) {d : Design} (w : m.design.Widens d) :
    Sound { m with design := d } where
  wellFormed := w.wellFormed
  faithful := w.faithful h.faithful
  holds := w.holds _ _ h.holds
  every := Statement.everyAll_spared w.toSpares h.analog_lt m.body h.every
  scopes s mem := ⟨(h.scopes s mem).1, Nat.lt_of_lt_of_le (h.scopes s mem).2 w.scopes⟩
  distinct := h.distinct
  outer := ⟨Nat.le_trans h.outer.1 w.scopes, by rw [w.enclosing _ h.analog_lt]; exact h.outer.2⟩
  reach s out := (w.reach s).trans (h.reach s out)

theorem ledger (h : m.Sound) :
    Ledger m.design (fun _ _ => 0) (Statement.heldAll m.body ++ []) m.design :=
  ⟨.refl _, h.wellFormed, by rw [List.append_nil]; exact h.holds⟩

theorem ofLedger (h : m.Sound) {d : Design} {body : List Statement}
    (ledger : Ledger m.design (fun _ _ => 0) (Statement.heldAll body ++ []) d)
    (every : Statement.EveryAll (Statement.Sound m.design) analogScope body)
    (scopes : Statement.scopesAll body = Statement.scopesAll m.body)
    (guarded : Statement.guardedAll body = Statement.guardedAll m.body)
    (reach : ∀ s, s ∉ Statement.guardedAll m.body → d.reachOf s = m.design.reachOf s) :
    Sound { m with design := d, body := body } := by
  have w := ledger.grown.spares
  refine ⟨ledger.wellFormed, h.faithful.extends h.wellFormed ledger.grown, ?_,
    Statement.everyAll_spared w h.analog_lt body every, ?_, ?_, ?_, ?_⟩
  · simpa only [List.append_nil] using ledger.holds
  · intro s mem
    rw [scopes] at mem
    exact ⟨(h.scopes s mem).1, Nat.lt_of_lt_of_le (h.scopes s mem).2 w.scopes⟩
  · rw [scopes]
    exact h.distinct
  · refine ⟨Nat.le_trans h.outer.1 w.scopes, ?_⟩
    rw [w.enclosing _ h.analog_lt]
    exact h.outer.2
  · intro s out
    rw [guarded] at out
    exact (reach s out).trans (h.reach s out)

theorem congr {m' : Device} (h : m.Sound) (design : m'.design = m.design)
    (body : m'.body = m.body) : m'.Sound := by
  obtain ⟨wf, faithful, holds, every, scopes, distinct, outer, reach⟩ := h
  rw [← design, ← body] at holds every
  rw [← design] at wf faithful outer
  rw [← design, ← body] at scopes reach
  rw [← body] at distinct
  exact ⟨wf, faithful, holds, every, scopes, distinct, outer, reach⟩

end Device.Sound

/-- A new statement for a scope, which holds nothing and has scopes of its own. -/
structure Design.Makes (d : Design) (outer : ScopeId) (s : Statement) (d' : Design) : Prop where
  widens : d.Widens d'
  held : s.held = []
  fits : s.Every (Statement.Sound d') outer
  fresh : ∀ t ∈ s.scopes, d.scopes.size ≤ t ∧ t < d'.scopes.size
  distinct : s.scopes.Nodup

namespace Design

variable {d : Design}

theorem makes_newAssignment (wf : d.WellFormed) (outer : ScopeId) (name : String) (raw : Raw) :
    d.Makes outer (d.newAssignment name raw).1 (d.newAssignment name raw).2 where
  widens := widens_addSource wf raw
  held := rfl
  fits := ⟨nofun, trivial⟩
  fresh := nofun
  distinct := List.nodup_nil

theorem makes_newContribution (wf : d.WellFormed) (outer : ScopeId) (target raw : Raw) :
    d.Makes outer (d.newContribution target raw).1 (d.newContribution target raw).2 where
  widens := (widens_addSource wf target).trans
    (widens_addSource (widens_addSource wf target).wellFormed raw)
  held := rfl
  fits := ⟨trivial, nofun⟩
  fresh := nofun
  distinct := List.nodup_nil

theorem makes_newDeclaration (wf : d.WellFormed) {outer : ScopeId} {name : String} {type : DataType}
    {init : Option Raw} {s : Statement} {d' : Design}
    (made : d.newDeclaration outer name type init = .ok (s, d')) : d.Makes outer s d' := by
  have added := widens_addVariable wf name type
  have inside : (Binding.variable d.vars.size).Inside (d.addVariable (.ofType name type)).2 := by
    simp [Binding.Inside, addVariable]
  unfold newDeclaration at made
  dsimp only at made
  split at made
  · cases made
  · rename_i e defined
    have known := widens_define? added.wellFormed inside trivial defined
    have below : d.vars.size < e.vars.size := Nat.lt_of_lt_of_le inside known.vars
    split at made
    · cases made
      exact ⟨added.trans known, rfl, ⟨below, trivial⟩, fun _ mem => absurd mem List.not_mem_nil,
        List.nodup_nil⟩
    · cases made
      exact ⟨added.trans (known.trans (widens_addSource known.wellFormed _)), rfl, ⟨below, trivial⟩,
        fun _ mem => absurd mem List.not_mem_nil, List.nodup_nil⟩

theorem chain_widens {d' : Design} (w : d.Spares d') {s : ScopeId} (inside : s < d.scopes.size) :
    d'.chain s = d.chain s := by
  rw [chain, chain, w.enclosing s inside]

theorem enclosing_addScope (d : Design) (parent : ScopeId) :
    ((d.addScope parent).2.scopeOf d.scopes.size).enclosing = d.chain parent := by
  rw [scopeOf_addScope, if_pos rfl]
  rfl

theorem makes_newBlock (wf : d.WellFormed) {outer : ScopeId} (inside : outer < d.scopes.size) :
    d.Makes outer (d.newBlock outer).1 (d.newBlock outer).2 := by
  have added := widens_addScope wf outer
  refine ⟨added, rfl, ⟨⟨?_, trivial⟩, trivial⟩, ?_, List.nodup_singleton _⟩
  · exact (enclosing_addScope d outer).trans (chain_widens added.toSpares inside).symm
  · intro t mem
    cases List.mem_singleton.mp mem
    exact ⟨Nat.le_refl _, by simp [newBlock, addScope]⟩

theorem makes_newConditional (wf : d.WellFormed) {outer : ScopeId} (inside : outer < d.scopes.size)
    (cond : Raw) : d.Makes outer (d.newConditional outer cond).1
    (d.newConditional outer cond).2 := by
  have written := widens_addSource wf cond
  have first := widens_addScope written.wellFormed outer
  have second := widens_addScope first.wellFormed outer
  have inside₁ : outer < ((d.addSource cond).2.addScope outer).2.scopes.size :=
    Nat.lt_of_lt_of_le inside (written.trans first).scopes
  have chain₁ := chain_widens (written.trans first).toSpares inside
  have chain₂ := chain_widens second.toSpares inside₁
  refine ⟨written.trans (first.trans second), rfl, ⟨⟨⟨?_, ?_⟩, trivial⟩, trivial, trivial⟩, ?_, ?_⟩
  · have here : d.scopes.size < ((d.addSource cond).2.addScope outer).2.scopes.size := by
      simp [addScope, addSource]
    have made := enclosing_addScope (d.addSource cond).2 outer
    exact (second.enclosing _ here).trans (made.trans (chain₂.trans chain₁).symm)
  · exact (enclosing_addScope _ outer).trans chain₂.symm
  · intro t mem
    have ids : t = d.scopes.size ∨ t = d.scopes.size + 1 := by
      simpa [newConditional, Statement.scopes, Statement.gather, Statement.gatherAll,
        Statement.ownScopes, addScope, addSource] using mem
    have size : (d.newConditional outer cond).2.scopes.size = d.scopes.size + 2 := by
      simp [newConditional, addScope, addSource]
    rw [size]
    rcases ids with rfl | rfl
    · exact ⟨Nat.le_refl _, Nat.lt_add_of_pos_right (by decide)⟩
    · exact ⟨Nat.le_succ _, Nat.lt_succ_self _⟩
  · simp [newConditional, Statement.scopes, Statement.gather, Statement.gatherAll,
      Statement.ownScopes, addScope, addSource]

end Design

theorem Device.Sound.append {m : Device} (h : m.Sound) {a : Address} {inner : ScopeId}
    {old : List Statement} (found : Statement.blockAt? analogScope m.body a = some (inner, old))
    {s : Statement} {d : Design} (made : m.design.Makes inner s d) :
    Sound { m with design := d, body := Statement.setBlockAt (old ++ [s]) m.body a } := by
  obtain ⟨before, after, held⟩ := Statement.gatherAll_setBlockAt Statement.blind_ownHeld found
  obtain ⟨left, right, scopes⟩ := Statement.gatherAll_setBlockAt Statement.blind_ownScopes found
  obtain ⟨front, back, guarded⟩ := Statement.gatherAll_setBlockAt Statement.blind_ownGuarded found
  have self := Statement.setBlockAt_self found
  have sameHeld : Statement.heldAll (Statement.setBlockAt (old ++ [s]) m.body a) =
      Statement.heldAll m.body := by
    have none : Statement.gather Statement.ownHeld s = [] := made.held
    conv_rhs => rw [← self]
    simp only [Statement.heldAll, held, Statement.gatherAll_append, Statement.gatherAll, none,
      List.append_nil]
  have moreScopes : (Statement.scopesAll (Statement.setBlockAt (old ++ [s]) m.body a)).Perm
      (Statement.scopesAll m.body ++ s.scopes) := by
    conv_rhs => rw [← self]
    simp only [Statement.scopesAll, Statement.scopes, scopes, Statement.gatherAll_append,
      Statement.gatherAll, List.append_nil, List.perm_iff_count, List.count_append]
    omega
  have moreGuarded : Statement.guardedAll m.body ⊆
      Statement.guardedAll (Statement.setBlockAt (old ++ [s]) m.body a) := by
    conv_lhs => rw [← self]
    simp only [Statement.guardedAll, guarded, Statement.gatherAll_append]
    intro t mem
    simp only [List.mem_append] at mem ⊢
    exact mem.imp_left (Or.imp_right .inl)
  have w := made.widens
  refine ⟨w.wellFormed, w.faithful h.faithful, ?_, ?_, ?_, ?_, ?_,
    fun t out => (w.reach t).trans (h.reach t fun known => out (moreGuarded known))⟩
  · rw [sameHeld]
    exact w.holds _ _ h.holds
  · have every := Statement.everyAll_spared w.toSpares h.analog_lt m.body h.every
    refine every.setBlockAt (Statement.shallow_sound d) found (Statement.everyAll_iff.mpr ?_)
    intro t mem
    rcases List.mem_append.mp mem with known | new
    · exact Statement.everyAll_iff.mp (every.blockAt found) t known
    · cases List.mem_singleton.mp new
      exact made.fits
  · intro t mem
    rcases List.mem_append.mp (moreScopes.mem_iff.mp mem) with known | new
    · exact ⟨(h.scopes t known).1, Nat.lt_of_lt_of_le (h.scopes t known).2 w.scopes⟩
    · exact ⟨Nat.le_trans h.outer.1 (made.fresh t new).1, (made.fresh t new).2⟩
  · rw [moreScopes.nodup_iff, List.nodup_append]
    refine ⟨h.distinct, made.distinct, ?_⟩
    rintro t known _ new rfl
    exact Nat.lt_irrefl _ (Nat.lt_of_lt_of_le (h.scopes t known).2 (made.fresh t new).1)
  · refine ⟨Nat.le_trans h.outer.1 w.scopes, ?_⟩
    rw [w.enclosing _ h.analog_lt]
    exact h.outer.2

def Device.Reports (f : Failure) (m : Device) : Prop := f.Reported ∧ m.Sound

theorem Device.Reports.ofCause {m : Device} (h : m.Sound) (c : Cause) : Reports (.ofCause c) m :=
  ⟨.inl ⟨.ofCause c, rfl⟩, h⟩

namespace DeviceM

variable {m : Device}

theorem define_meets (h : m.Sound) (item : Item) (name : String) (b : Binding)
    (inside : b.Inside m.design)
    (named : b.Named m.design.circuit name) : Meets (define item name b) m
      (fun _ m' => m'.Sound ∧ m'.design.parameters = m.design.parameters) Device.Reports := by
  refine Meets.get ?_
  split
  · rename_i d made
    refine ⟨h.widen (Design.widens_define? h.wellFormed inside named made), ?_⟩
    rw [Design.frame_define? made]
  · exact Device.Reports.ofCause h _

theorem newNode_meets (h : m.Sound) (item : Item) (name : String) :
    Meets (newNode item name) m (fun i m' => m'.Sound ∧ i < m'.design.circuit.nodes.size ∧
      m'.design.circuit.nodeName i = name ∧ i ≠ ground) Device.Reports := by
  obtain ⟨w, inside⟩ := Design.widens_addNode h.wellFormed name
  have sound := h.widen w
  have named := Circuit.nodeName_addNode h.wellFormed.circuit name
  refine Meets.get ?_
  unfold Meets
  simp only [bind, EStateM.bind, set, MonadStateOf.set, EStateM.set]
  split
  · rename_i run
    split at run
    · rename_i created
      cases run
      exact ⟨sound, inside, named created⟩
    · cases run
  · rename_i run
    split at run
    · cases run
    · cases run
      exact Device.Reports.ofCause sound _

theorem declarePort_meets (h : m.Sound) (name : String) :
    Meets (declarePort name) m (fun _ => Device.Sound) Device.Reports := by
  refine Meets.bind (newNode_meets h .port name) ?_
  rintro i m₁ ⟨sound, inside, named⟩
  refine Meets.bind (define_meets sound .port name (.port i) inside named) ?_
  rintro _ m₂ ⟨sound, _⟩
  exact sound.congr rfl rfl

theorem declareNode_meets (h : m.Sound) (name : String) :
    Meets (declareNode name) m (fun _ => Device.Sound) Device.Reports := by
  refine Meets.get ?_
  split
  · exact Meets.pure h
  · refine Meets.bind (newNode_meets h .node name) ?_
    rintro i m₁ ⟨sound, inside, named⟩
    exact (define_meets sound .node name (.net i) inside named).mono (fun _ _ h => h.1)
      fun _ _ h => h

theorem declareVariable_meets (h : m.Sound) (name : String) (type : DataType) :
    Meets (declareVariable name type) m (fun _ => Device.Sound) Device.Reports := by
  have sound := h.widen (Design.widens_addVariable h.wellFormed name type)
  have inside : m.design.vars.size < (m.design.addVariable (.ofType name type)).2.vars.size := by
    simp [Design.addVariable]
  exact (define_meets sound .variable name (.variable _) inside trivial).mono (fun _ _ h => h.1)
    fun _ _ h => h

theorem nodeNamed_meets (h : m.Sound) (name : String) :
    Meets (nodeNamed name) m (fun _ m' => m' = m) Device.Reports := by
  refine Meets.get ?_
  split
  · exact Meets.pure rfl
  · exact Meets.pure rfl
  · exact Device.Reports.ofCause h _
  · exact Device.Reports.ofCause h _

theorem settleParameter_meets (h : m.Sound) (p : ParameterId) (name : String) {isLocal : Bool}
    (default : Tree) (same : isLocal = true → (m.design.parameterOf p).isLocal = true) :
    Meets (settleParameter p name isLocal default) m (fun _ => Device.Sound) Device.Reports := by
  have changed : ∀ {m : Device} {f : Parameter → Parameter}, m.Sound →
      ((m.design.parameterOf p).Told → (f (m.design.parameterOf p)).Told) →
      Device.Sound { m with design := m.design.modifyParameter p f } := fun h told =>
    h.widen (Design.widens_modifyParameter h.wellFormed told)
  have given : Meets (modify fun m : Device =>
      { m with design := m.design.modifyParameter p ({ · with default := some default }) }) m
      (fun _ m' => m'.Sound ∧ (m'.design.parameterOf p).isLocal = (m.design.parameterOf p).isLocal)
      Device.Reports := by
    refine ⟨changed h fun told => told, ?_⟩
    dsimp only
    rw [Design.parameterOf_modifyParameter]
    split <;> rfl
  refine Meets.bind given ?_
  rintro _ m₁ ⟨sound, kept⟩
  refine Meets.get ?_
  split
  · rename_i problem _
    exact ⟨.inl ⟨problem, rfl⟩, sound⟩
  · exact changed sound fun _ _ => rfl
  · split
    · exact changed sound fun told _ => told (.inr (kept.trans (same rfl)))
    · exact sound

structure Loose (m : Device) (t : Tree) (m' : Device) : Prop where
  ledger : Ledger m.design (fun _ _ => 0) (t.uses ++ (Statement.heldAll m.body ++ [])) m'.design
  built : Resolve.BuiltIn m.design t
  body : m'.body = m.body
  scopes : m'.design.scopes = m.design.scopes

theorem Loose.sound {m' : Device} {t : Tree} (h : m.Sound) (loose : Loose m t m')
    (unused : t.uses = []) : m'.Sound := by
  have ledger := loose.ledger
  rw [unused, List.nil_append] at ledger
  exact (h.ofLedger ledger h.every rfl rfl fun s _ => Design.reachOf_eq loose.scopes s).congr
    rfl loose.body

theorem resolve_meets (h : m.Sound) (r : Resolver) (source : Source) (context : String) :
    Meets (onDesign fun d =>
      match source.resolve r Design.rootScope d with
      | .error f d => .error (f.inside context) d
      | .ok t d => .ok t d) m (Loose m) Device.Reports := by
  have resolved := source.resolve_meets h.ledger.tally r Design.rootScope
  unfold Meets at resolved ⊢
  unfold onDesign
  cases run : source.resolve r Design.rootScope m.design with
  | error f d =>
    simp only [run] at resolved ⊢
    obtain ⟨p, problem, _⟩ := resolved.1.inside context
    exact ⟨.inl ⟨p, problem⟩, h.ofLedger (h.ledger.ofTally resolved.2) h.every rfl rfl fun s _ =>
      Design.reachOf_eq resolved.2.scopes s⟩
  | ok t d =>
    simp only [run] at resolved ⊢
    exact ⟨h.ledger.ofTally resolved.1, resolved.2, rfl, resolved.1.scopes⟩

theorem release_meets {m' : Device} {t : Tree} (h : m.Sound) (loose : Loose m t m') :
    Meets (onDesign (DesignM.onCircuit t.release)) m' (fun _ => Device.Sound) Device.Reports := by
  obtain ⟨c, run, _, after⟩ := loose.ledger.tally.release
  unfold Meets
  simp only [onDesign, DesignM.onCircuit, Tree.release, run]
  exact (h.ofLedger (loose.ledger.ofTally after) h.every rfl rfl fun s _ =>
    Design.reachOf_eq loose.scopes s).congr rfl loose.body

theorem declareParameter_meets (h : m.Sound) (name : String) (type : DataType) (default : Raw)
    (isLocal : Bool) :
    Meets (declareParameter name type default isLocal) m (fun _ => Device.Sound)
    Device.Reports := by
  have added := Design.widens_addParameter h.wellFormed (Parameter.told_ofType name type isLocal)
  have sound := h.widen (added.trans (Design.widens_addSource added.wellFormed default))
  have inside : m.design.parameters.size <
      (m.design.addParameter (.ofType name type isLocal)).2.parameters.size := by
    simp [Design.addParameter]
  refine Meets.get (Meets.set ?_)
  refine Meets.bind (define_meets sound .parameter name (.parameter _) inside trivial) ?_
  rintro _ m₁ ⟨sound₁, same₁⟩
  refine Meets.modify ?_
  have sound₂ : Device.Sound { m₁ with parameters := m₁.parameters ++
    [m.design.parameters.size] } :=
    sound₁.congr rfl rfl
  refine Meets.bind (resolve_meets sound₂ m.resolver _ ("parameter " ++ name)) ?_
  intro t m₃ loose
  split
  · refine Meets.bind (release_meets sound₂ loose) ?_
    intro _ m₄ sound₄
    exact Meets.stop (Device.Reports.ofCause sound₄ _)
  · rename_i free
    have unused := Tree.uses_of_no_deps t loose.built (by simpa using free)
    refine settleParameter_meets (loose.sound sound₂ unused) _ name t fun isLocal => ?_
    rw [Design.parameterOf, loose.ledger.grown.parameters, same₁]
    exact (congrArg Parameter.isLocal (Design.parameterOf_addParameter m.design _ _)).trans
      (by rw [if_pos rfl]; exact isLocal)

theorem updateBlock_meets (h : m.Sound) (i : Nat) : Meets (updateBlock i) m
      (fun result m' => m'.Sound ∧ m.design.Extends m'.design ∧
        ∀ f, result = .error f → f.Reported) Device.Reports := by
  refine Meets.get ?_
  split
  · exact Meets.pure ⟨h, .refl _, by simp⟩
  · rename_i s at_i
    obtain ⟨before, after, wholeHeld, held⟩ := Statement.gatherAll_modify Statement.ownHeld at_i
    obtain ⟨left, right, wholeScopes, scopes⟩ := Statement.gatherAll_modify Statement.ownScopes at_i
    obtain ⟨front, back, wholeGuarded, guarded⟩ :=
      Statement.gatherAll_modify Statement.ownGuarded at_i
    have sound := Statement.everyAll_iff.mp h.every s (List.mem_of_getElem? at_i)
    have ledger : Ledger m.design (fun _ _ => 0) (s.held ++ (before ++ after)) m.design := by
      refine h.ledger.perm ?_
      rw [Statement.heldAll, wholeHeld, List.append_nil, List.append_assoc]
      exact List.perm_append_comm_assoc _ _ _
    obtain ⟨kept, every⟩ := Statement.update_keeps m.resolver Device.analogScope s sound ledger
    refine Meets.set (Meets.pure ⟨h.ofLedger (kept.ledger.perm ?_) ?_ ?_ ?_ ?_,
      kept.ledger.grown, ?_⟩)
    · rw [Statement.heldAll, List.set_eq_modify, held, List.append_nil, List.append_assoc]
      exact List.perm_append_comm_assoc _ _ _
    · refine Statement.everyAll_iff.mpr fun t mem => ?_
      rcases List.mem_or_eq_of_mem_set mem with old | rfl
      · exact Statement.everyAll_iff.mp h.every t old
      · exact every
    · rw [Statement.scopesAll, List.set_eq_modify, scopes, wholeScopes]
      exact congrArg (left ++ · ++ right)
        (Statement.scopes_update m.resolver Device.analogScope s m.design)
    · rw [Statement.guardedAll, List.set_eq_modify, guarded, wholeGuarded,
        Statement.gather_update Statement.outlined_ownGuarded]
    · intro x out
      refine kept.reach x fun mem => out ?_
      rw [Statement.guardedAll, wholeGuarded]
      exact List.mem_append_left _ (List.mem_append_right _ mem)
    · exact fun f failed => (kept.failure f failed).reported

theorem retry_meets (ws : List Waiting) (h : m.Sound) :
    Meets (retry ws) m (fun _ => Device.Sound) Device.Reports := by
  induction ws generalizing m with
  | nil => exact Meets.pure h
  | cons w ws ih =>
    rw [retry]
    refine Meets.bind (updateBlock_meets h w.block) ?_
    rintro result m₁ ⟨sound, -, failure⟩
    split
    · exact ih sound
    · split
      · exact Meets.bind (ih sound) fun _ _ after => Meets.pure after
      · exact Meets.modify (ih (sound.congr rfl rfl))
    · exact ⟨failure _ rfl, sound⟩

theorem settle_meets (h : m.Sound) (i : Nat) :
    Meets (settle i) m (fun _ => Device.Sound) Device.Reports := by
  refine Meets.bind (updateBlock_meets h i) ?_
  rintro result m₁ ⟨sound, -, failure⟩
  split
  · exact Meets.pure sound
  · rename_i p
    split
    · exact sound.congr rfl rfl
    · exact ⟨.inl ⟨p, rfl⟩, sound⟩
  · exact ⟨failure _ rfl, sound⟩

theorem declareBranch_meets (h : m.Sound) (name p : String) (n : Option String) :
    Meets (declareBranch name p n) m (fun _ => Device.Sound) Device.Reports := by
  refine Meets.bind (nodeNamed_meets h p) ?_
  rintro pos m rfl
  extract_lets join
  have joined : ∀ neg, Meets (join neg) m (fun _ => Device.Sound) Device.Reports := by
    intro neg
    refine Meets.get ?_
    split
    · exact Device.Reports.ofCause h _
    · rename_i ref c run
      have connected := h.widen (Design.widens_connect h.wellFormed run)
      have joins := Circuit.joins_of_between? (Circuit.between?_of_connect run)
      refine Meets.set ?_
      split
      · exact Device.Reports.ofCause connected _
      · rename_i b c' made
        obtain ⟨w, inside⟩ := Design.widens_addAlias? connected.wellFormed joins made
        refine Meets.set (Meets.bind
          (define_meets (connected.widen w) .branch name (.branch b) inside trivial) ?_)
        rintro _ m₁ ⟨sound, _⟩
        exact Meets.bind (retry_meets _ sound) fun _ _ after => after.congr rfl rfl
  split
  · refine Meets.bind (nodeNamed_meets h _) ?_
    rintro neg _ rfl
    exact joined neg
  · exact joined ground

theorem newAnalog_meets (h : m.Sound) : Meets newAnalog m (fun _ => Device.Sound) Device.Reports :=
  h.append (a := []) rfl (Design.makes_newBlock h.wellFormed h.analog_lt)

theorem runDataflow_meets (h : m.Sound) (r : Resolver) :
    Meets (runDataflow r) m (fun _ => Device.Sound) Device.Reports := by
  obtain ⟨ledger, every, ⟨scopes, guarded, reach⟩, failure⟩ :=
    Statement.rounds_keeps r Device.analogScope
    (Statement.roundBound r m.body) (Statement.roundBound r m.body) 1 m.body h.every h.ledger
  have sound := h.ofLedger ledger every scopes guarded reach
  refine Meets.get (Meets.set ?_)
  split
  · exact Meets.pure sound
  · rename_i f failed
    exact ⟨failure f failed, sound⟩

theorem markBody_meets (h : m.Sound) : Meets markBody m (fun _ => Device.Sound) Device.Reports :=
  h.widen (Design.markKept_widens.statements Device.analogScope m.body m.design h.wellFormed)

theorem finish_meets (h : m.Sound) : Meets finish m (fun _ => Device.Sound) Device.Reports := by
  refine Meets.modify (Meets.get ?_)
  have told : Device.Sound { m with
      problems := m.problems ++ m.waiting.map (missing m.name), waiting := [] } := h.congr rfl rfl
  split
  · exact Meets.pure told
  · have run := runDataflow_meets told m.resolver
    unfold Meets at run
    split
    · rename_i p m₁ failed
      rw [failed] at run
      exact run.2.congr rfl rfl
    · rename_i f m₁ other failed
      rw [failed] at run
      exact ⟨run.1, run.2.congr rfl rfl⟩
    · rename_i n m₁ done
      rw [done] at run
      exact Meets.set (Meets.bind (markBody_meets run) fun _ _ after => after.congr rfl rfl)

end DeviceM

end Analog
