import Analog.Proofs.Device.ShortUpdates

/-!
Devices whose shorts are untangled. Calls that declare names lay no shorts, and what was decided
stays decided as long as no name of a function is declared and no name inside of a block whose
conditions were resolved already.
-/
namespace Analog

theorem Circuit.bare_need (c : Circuit) (q : Probe) (m : Markers) : (c.need q m).bare = c.bare := by
  refine bare_eq_of_branches rfl (size_modifyBranch _ _ _) (fun b => ?_) rfl
  rw [branch_need]
  split
  · cases q.access <;> rfl
  · rfl

namespace Design

variable {d d' : Design}

structure Remarked (d d' : Design) : Prop where
  circuit : d'.circuit.bare = d.circuit.bare
  scopes : d'.scopes = d.scopes
  parameters : d'.parameters = d.parameters
  filters : d'.filters = d.filters
  vars : d'.vars.size = d.vars.size

theorem markKept_remarked : MarkKept Remarked where
  refl _ := ⟨rfl, rfl, rfl, rfl, rfl⟩
  trans ab bc := ⟨bc.circuit.trans ab.circuit, bc.scopes.trans ab.scopes,
    bc.parameters.trans ab.parameters, bc.filters.trans ab.filters, bc.vars.trans ab.vars⟩
  ofVariable d v m := ⟨rfl, rfl, rfl, rfl, by simp [markVariable, modifyVariable]⟩
  ofProbe d q m := ⟨Circuit.bare_need d.circuit q m, rfl, rfl, rfl, rfl⟩

namespace Remarked

variable (h : d.Remarked d')

include h

theorem scopeOf (s : ScopeId) : d'.scopeOf s = d.scopeOf s :=
    by rw [Design.scopeOf, Design.scopeOf, h.scopes]

theorem remains (scope : ScopeId) : d.bare.Remains scope d'.bare := by
  have parameters : d'.bare.parameters = d.bare.parameters := h.parameters
  refine .ofLookup h.circuit h.filters (by rw [parameters]) (fun p _ => ?_)
    (Nat.le_of_eq h.vars.symm)
    fun name => ?_
  · rw [parameterOf, parameterOf, parameters]
  · have scopes : ∀ s, d'.bare.scopeOf s = d.bare.scopeOf s := h.scopeOf
    simp only [Design.lookup?, chain, scopes]

theorem sameShorts : d.SameShorts d' := by
  have nodes : d'.circuit.bare.nodes = d.circuit.bare.nodes := by rw [h.circuit]
  intro i
  rw [Circuit.node, show d'.circuit.nodes = d.circuit.nodes from nodes]
  rfl

theorem titled (titled : d.Titled) : d'.Titled := by
  intro name b found
  rw [h.scopeOf]
  refine titled name b ?_
  rwa [← lookup?_bare, bare, ← h.circuit, ← show d'.bare.circuit = d'.circuit.bare from rfl,
    lookup?_bare]

end Remarked
end Design

namespace Statement

mutual

def decidedIn (scope : ScopeId) : Statement → List ScopeId
  | .conditional c thnScope thn elsScope els =>
    (if c.value.isSome then [scope] else []) ++ allDecidedIn thnScope thn ++
      allDecidedIn elsScope els
  | .block inner body => allDecidedIn inner body
  | _ => []

def allDecidedIn (scope : ScopeId) : List Statement → List ScopeId
  | [] => []
  | s :: ss => s.decidedIn scope ++ allDecidedIn scope ss

end

def DecidedOnlyIn (all : List ScopeId) (outer : ScopeId) : Statement → Prop
  | .conditional c _ _ _ _ => c.value ≠ none → outer ∈ all
  | _ => True

mutual

theorem Every.decidedOnlyIn {p : ScopeId → Statement → Prop} {all : List ScopeId} (s : Statement)
    {scope : ScopeId} (within : ∀ x ∈ s.decidedIn scope, x ∈ all) (h : s.Every p scope) :
    s.Every (fun outer t => p outer t ∧ DecidedOnlyIn all outer t) scope := by
  cases s with
  | declare | assign | contribute => exact ⟨h, trivial⟩
  | block inner body => exact ⟨⟨h.1, trivial⟩, EveryAll.decidedOnlyIn body within h.2⟩
  | conditional c thnScope thn elsScope els =>
    obtain ⟨known, thnKnown, elsKnown⟩ := h
    rw [decidedIn] at within
    obtain ⟨front, elsWithin⟩ := List.forall_mem_append.mp within
    obtain ⟨own, thnWithin⟩ := List.forall_mem_append.mp front
    refine ⟨⟨known, fun held => own scope ?_⟩, EveryAll.decidedOnlyIn thn thnWithin thnKnown,
      EveryAll.decidedOnlyIn els elsWithin elsKnown⟩
    rw [if_pos (Option.isSome_iff_ne_none.mpr held)]
    exact List.mem_singleton_self scope

theorem EveryAll.decidedOnlyIn {p : ScopeId → Statement → Prop} {all : List ScopeId}
    (ss : List Statement)
    {scope : ScopeId} (within : ∀ x ∈ allDecidedIn scope ss, x ∈ all) (h : EveryAll p scope ss) :
    EveryAll (fun outer t => p outer t ∧ DecidedOnlyIn all outer t) scope ss := by
  cases ss with
  | nil => trivial
  | cons s ss =>
    rw [allDecidedIn] at within
    obtain ⟨first, rest⟩ := List.forall_mem_append.mp within
    exact ⟨Every.decidedOnlyIn s first h.1, EveryAll.decidedOnlyIn ss rest h.2⟩

end

end Statement

namespace Device

open Statement

variable {m m' : Device}

structure Clear (m : Device) : Prop where
  decided : EveryAll (Decided m.resolver m.design) analogScope m.body
  titled : m.design.Titled
  untangled : m.design.Untangled

theorem Clear.declares (h : m.Clear) (sound : m.Sound) {into : ScopeId → Prop} {d : Design}
    (declares : Design.Declares into m.design d) (shorts : m.design.SameShorts d) (plain : d.Plain)
    (away : ∀ x ∈ allDecidedIn analogScope m.body, ∀ y ∈ m.design.chain x, ¬ into y) :
    Clear { m with design := d } := by
  refine ⟨everyAll_iff.mpr fun s mem => ?_, declares.titled h.titled,
    h.untangled.mono shorts ⟨declares.toSpares, fun x always => declares.reach x ▸ always⟩⟩
  have fits := everyAll_iff.mp sound.nested.fits s mem
  have both := everyAll_iff.mp (h.decided.decidedOnlyIn m.body fun _ mem => mem) s mem
  refine Every.mono_beneath (fun scope t beneath own known => ?_) s fits (fun _ own => own)
    ⟨[], rfl, fun _ mem => absurd mem List.not_mem_nil⟩ both
  obtain ⟨rooted, -⟩ := sound.beneath mem beneath
  refine known.1.mono (fun c thnScope thn elsScope els is held => ?_) fun x _ => declares.reach x
  subst is
  exact (declares.remains h.titled plain scope rooted (away scope (known.2 held))).bare

theorem Clear.append (h : m.Clear) {a : Address} {inner : ScopeId} {old : List Statement}
    (found : blockAt? analogScope m.body a = some (inner, old)) {s : Statement}
    (decided : s.Every (Decided m.resolver m.design) inner) :
    Clear { m with body := setBlockAt (old ++ [s]) m.body a } := by
  refine ⟨h.decided.setBlockAt shallow_decided found (everyAll_iff.mpr fun t mem => ?_),
    h.titled, h.untangled⟩
  rcases List.mem_append.mp mem with known | new
  · exact everyAll_iff.mp (h.decided.blockAt found) t known
  · cases List.mem_singleton.mp new
    exact decided

theorem Clear.turns (h : m.Clear) {d : Design} {touched : List ScopeId}
    (narrows : Narrows m.design touched d)
    {body : List Statement} (decided : EveryAll (Decided m.resolver d) analogScope body) :
    Clear { m with design := d, body := body } := by
  refine ⟨decided, fun name b found => ?_, narrows.untangled h.untangled⟩
  rw [narrows.grown.bindings]
  rw [Circuit.lookup?_extends narrows.grown.circuit] at found
  exact h.titled name b found

theorem Clear.updateBlock (h : m.Clear) (sound : m.Sound) {i : Nat} {s : Statement}
    (at_i : m.body[i]? = some s) : Clear { m with
      design := (s.update m.resolver analogScope m.design).design
      body := m.body.set i (s.update m.resolver analogScope m.design).value } := by
  have mem := List.mem_of_getElem? at_i
  have turns := update_turns m.resolver sound.wellFormed s sound.analog_lt (sound.nested_of_mem mem)
    (everyAll_iff.mp h.decided s mem)
  refine h.turns turns.narrows (everyAll_iff.mpr fun t memSet => ?_)
  obtain ⟨j, at_j⟩ := List.mem_iff_getElem?.mp memSet
  rw [List.getElem?_set] at at_j
  split at at_j
  · split at at_j
    · cases at_j
      exact turns.decided
    · cases at_j
  · rename_i other
    exact every_decided turns.narrows t (scopes_apart sound.distinct at_j at_i fun same
      => other same.symm)
      (everyAll_iff.mp h.decided t (List.mem_of_getElem? at_j))

theorem Clear.remarked (h : m.Clear) {d : Design} (remarked : m.design.Remarked d) :
    Clear { m with design := d } := by
  have reach : ∀ x, d.reachOf x = m.design.reachOf x := fun x => by
    rw [Design.reachOf, remarked.scopeOf]
    rfl
  refine ⟨?_, remarked.titled h.titled, h.untangled.mono remarked.sameShorts
    ⟨⟨fun s _ => ?_, ?_, ?_⟩, ?_⟩⟩
  · have weaken : ∀ outer s, True → Decided m.resolver m.design outer s →
      Decided m.resolver d outer s :=
      fun outer s _ known => known.mono (fun _ _ _ _ _ _ _ => remarked.remains outer) fun x _ =>
        reach x
    exact EveryAll.mono weaken (fun _ _ _ _ _ => trivial) trivial _ h.decided
  · rw [remarked.scopeOf]
  · rw [remarked.scopes]
  · rw [remarked.vars]
  · exact fun x always => reach x ▸ always

structure Moves (m m' : Device) : Prop where
  sound : m'.Sound
  bindings : ∀ s, ∀ x ∈ (m.design.scopeOf s).bindings, x ∈ (m'.design.scopeOf s).bindings
  clear : m.Clear → m'.design.Plain → m'.Clear

theorem Moves.refl (h : m.Sound) : m.Moves m := ⟨h, fun _ _ mem => mem, fun clear _ => clear⟩

theorem Moves.trans {m'' : Device} (first : m.Moves m') (second : m'.Moves m'') : m.Moves m'' where
  sound := second.sound
  bindings s x mem := second.bindings s x (first.bindings s x mem)
  clear before plain := second.clear (first.clear before (plain.before second.bindings)) plain

theorem Moves.congr {m'' : Device} (h : m.Moves m') (design : m''.design = m'.design)
    (body : m''.body = m'.body) (resolver : m''.resolver = m'.resolver) : m.Moves m'' where
  sound := h.sound.congr design body
  bindings := by
    rw [design]
    exact h.bindings
  clear before plain := by
    rw [design] at plain
    obtain ⟨decided, titled, untangled⟩ := h.clear before plain
    refine ⟨?_, ?_, ?_⟩
    · rw [resolver, body, design]
      exact decided
    · rwa [design]
    · rwa [design]

theorem Adds.moves (h : m.Adds m') (shorts : m.design.SameShorts m'.design) (before : m.Sound)
    (after : m'.Sound) : m.Moves m' where
  sound := after
  bindings := h.declares.bindings
  clear clear plain := by
    obtain ⟨decided, titled, untangled⟩ := clear.declares before h.declares shorts plain fun _ _ _
      _ into => into
    refine ⟨?_, titled, untangled⟩
    rw [h.resolver, h.body]
    exact decided

end Device

namespace DeviceM

open Device

variable {m m₁ : Device}

section Shorts

abbrev Bystands {α : Type} (act : DeviceM α) (m : Device) : Prop :=
  Leads act m fun m' => m.design.SameShorts m'.design

theorem Bystands.bind {α β : Type} {act : DeviceM α} {next : α → DeviceM β} (first : Bystands act m)
    (rest : ∀ a m₁, Bystands (next a) m₁) : Bystands (act >>= next) m :=
  Meets.bind first fun a m₁ same => (rest a m₁).mono fun _ => same.trans

theorem newNode_bystands (item : Item) (name : String) (m : Device) :
    Bystands (newNode item name) m := by
  have same : m.design.SameShorts
      { m.design with circuit := (m.design.circuit.addNode name).2.2 } := by
    intro i
    unfold Circuit.addNode
    split
    · rfl
    · exact Design.short_push m.design.circuit name m.design.circuit.filters i
  refine Meets.get ?_
  unfold Meets
  simp only [bind, EStateM.bind, set, MonadStateOf.set, EStateM.set]
  split
  · rename_i run
    split at run <;> cases run
    exact same
  · rename_i run
    split at run <;> cases run
    exact same

theorem define_bystands (item : Item) (name : String) (b : Binding) (m : Device) :
    Bystands (define item name b) m := by
  refine Meets.get ?_
  split
  · rename_i d made
    intro i
    show (d.circuit.node i).short = _
    rw [Design.frame_define? made]
  · exact Meets.fail fun _ => rfl

theorem declarePort_bystands (name : String) (m : Device) : Bystands (declarePort name) m :=
  (newNode_bystands .port name m).bind fun _ m₁ => (define_bystands .port name _ m₁).bind
    fun _ _ _ => rfl

theorem declareNode_bystands (name : String) (m : Device) : Bystands (declareNode name) m := by
  refine Meets.get ?_
  split
  · exact Meets.pure fun _ => rfl
  · exact (newNode_bystands .node name m).bind fun _ m₁ => define_bystands .node name _ m₁

theorem declareVariable_bystands (name : String) (type : DataType) (m : Device) :
    Bystands (declareVariable name type) m :=
  Meets.get (Meets.set ((define_bystands .variable name _ _).mono fun _ same => same))

theorem onDesign_bystands {α : Type} {act : DesignM α}
    (h : DesignM.Stays Design.SameShorts act m.design) : Bystands (onDesign act) m := by
  unfold Bystands Leads Meets onDesign
  cases run : act m.design with
  | ok a d => exact h.ok run
  | error f d => exact h.error run

theorem settleParameter_bystands (p : ParameterId) (name : String) (isLocal : Bool) (default : Tree)
    (m : Device) : Bystands (settleParameter p name isLocal default) m := by
  refine Meets.modify (Meets.get ?_)
  split
  · exact Meets.fail fun _ => rfl
  · exact fun _ => rfl
  · split
    · exact fun _ => rfl
    · exact Meets.pure fun _ => rfl

theorem declareParameter_bystands (name : String) (type : DataType) (default : Raw) (isLocal : Bool)
    (m : Device) : Bystands (declareParameter name type default isLocal) m := by
  refine Meets.get (Meets.set ?_)
  refine Leads.mono (Bystands.bind (define_bystands .parameter name _ _) fun _ m₁
    => Meets.modify ?_)
    fun _ same => same
  refine Leads.mono (Bystands.bind (onDesign_bystands ?_) fun t m₂ => ?_) fun _ same => same
  · have stays := Source.resolve_stays Design.upheld_sameShorts (r := m.resolver)
      (s := ⟨default, m.design.expressions⟩) (fun _ _ _ _ => trivial) Design.rootScope m₁.design
    unfold DesignM.Stays Meets at stays ⊢
    simp only
    cases run : Source.resolve m.resolver ⟨default, m.design.expressions⟩
      Design.rootScope m₁.design <;>
      rw [run] at stays <;> exact stays
  · split
    · have released : Bystands (onDesign (DesignM.onCircuit t.release)) m₂ :=
        onDesign_bystands (Design.upheld_sameShorts.giveAll t.uses m₂.design)
      exact released.bind fun _ _ => Meets.fail fun _ => rfl
    · exact settleParameter_bystands _ name isLocal t m₂

end Shorts

theorem Leads.moves {α : Type} {act : DeviceM α} (h : m.Sound)
    (sound : Meets act m (fun _ => Device.Sound) Device.Reports) (adds : Leads act m m.Adds)
    (bystands : Bystands act m) : Leads act m m.Moves :=
  (sound.and (adds.and bystands)).mono (fun _ _ known => known.2.1.moves known.2.2 h known.1)
    fun _ _ known => known.2.1.moves known.2.2 h known.1.2

section Updates

theorem updateBlock_moves (h : m.Moves m₁) (i : Nat) : Leads (updateBlock i) m₁ m.Moves := by
  have clear : Leads (updateBlock i) m₁ fun m' => m₁.Clear → m'.Clear := by
    refine Meets.get ?_
    split
    · exact Meets.pure fun before => before
    · rename_i s at_i
      exact Meets.set (Meets.pure fun before => before.updateBlock h.sound at_i)
  have never : Meets (updateBlock i) m₁ (fun _ _ => True) fun _ _ => False := by
    refine Meets.get ?_
    split
    · exact Meets.pure trivial
    · exact Meets.set (Meets.pure trivial)
  refine ((updateBlock_meets h.sound i).and (clear.and never)).mono ?_ ?_
  · rintro result m₂ ⟨⟨sound, grown, _⟩, moved, _⟩
    exact h.trans ⟨sound, fun s x mem => by rwa [grown.bindings], fun before _ => moved before⟩
  · rintro f m₂ ⟨_, _, impossible⟩
    exact impossible.elim

theorem retry_moves (ws : List Waiting) (h : m.Moves m₁) : Leads (retry ws) m₁ m.Moves := by
  induction ws generalizing m₁ with
  | nil => exact Meets.pure h
  | cons w ws ih =>
    rw [retry]
    refine Meets.bind (updateBlock_moves h w.block) ?_
    intro result m₂ moves
    split
    · exact ih moves
    · split
      · exact Meets.bind (ih moves) fun _ _ moves => Meets.pure moves
      · exact Meets.modify (ih (moves.congr rfl rfl rfl))
    · exact moves

theorem settle_moves (h : m.Sound) (i : Nat) : Leads (settle i) m m.Moves := by
  refine Meets.bind (updateBlock_moves (.refl h) i) ?_
  intro result m₁ moves
  split
  · exact Meets.pure moves
  · split
    · exact moves.congr rfl rfl rfl
    · exact moves
  · exact moves

theorem declareBranch_moves (h : m.Sound) (name p : String) (n : Option String) :
    Leads (declareBranch name p n) m m.Moves := by
  have stay : ∀ name, Meets (nodeNamed name) m (fun _ m' => m' = m) fun _ => m.Moves := fun name =>
    Meets.mono (nodeNamed_stays m name) (fun _ _ h => h) fun _ _ same => by
      rw [same]
      exact .refl h
  refine Meets.bind (stay p) ?_
  rintro pos m rfl
  extract_lets join
  have joined : ∀ neg, Leads (join neg) m m.Moves := by
    intro neg
    refine Meets.get ?_
    split
    · exact .refl h
    · rename_i ref c run
      have connected := h.widen (Design.widens_connect h.wellFormed run)
      have first : m.Adds { m with design := { m.design with circuit := c } } :=
        .ofDesign (Design.declares_connect h.wellFormed run)
      have shorts := Design.sameShorts_connect run
      have joins := Circuit.joins_of_between? (Circuit.between?_of_connect run)
      refine Meets.set ?_
      split
      · exact first.moves shorts h connected
      · rename_i b c' made
        obtain ⟨w, inside⟩ := Design.widens_addAlias? connected.wellFormed joins made
        have sound := connected.widen w
        have aliased : m.design.SameShorts { m.design with circuit := c' } := by
          obtain ⟨_, new, -, -, -, rfl⟩ :=
            Design.addAlias?_cases (d := { m.design with circuit := c }) made
          exact shorts
        have named := (define_meets sound .branch name (.branch b) inside trivial).and
          ((defineBranch_adds connected made).and (define_bystands .branch name (.branch b) _))
        refine Meets.set (Meets.bind (named.mono (fun _ _ h => h) fun _ _ failed =>
          (first.trans failed.2.1).moves (aliased.trans failed.2.2) h failed.1.2) ?_)
        rintro _ m₁ ⟨⟨sound₁, _⟩, adds, same⟩
        have moves : m.Moves m₁ := (first.trans adds).moves (aliased.trans same) h sound₁
        exact Meets.bind (retry_moves m.waiting moves) fun _ _ moves => moves.congr rfl rfl rfl
  split
  · refine Meets.bind (stay _) ?_
    rintro neg _ rfl
    exact joined neg
  · exact joined ground

theorem runDataflow_moves (h : m.Sound) : Leads (runDataflow m.resolver) m m.Moves := by
  let u := Statement.fixpoint m.resolver analogScope m.body m.design
  let bound := Statement.roundBound m.resolver m.body
  have grown : m.design.Extends u.design :=
    (Statement.rounds_keeps m.resolver analogScope bound bound 1 m.body h.every h.ledger).1.grown
  have clear : m.Clear → Clear { m with design := u.design, body := u.value } := fun before =>
    have turns := Statement.rounds_turns m.resolver h.wellFormed m.body h.analog_lt h.nested
      before.decided
      bound bound 1
    before.turns turns.narrows turns.decided
  have leaves : Leads (runDataflow m.resolver) m fun m' => m.design.Extends m'.design ∧
      (m.Clear → m'.Clear) := by
    refine Meets.get (Meets.set ?_)
    split
    · exact Meets.pure ⟨grown, clear⟩
    · exact Meets.fail ⟨grown, clear⟩
  exact ((runDataflow_meets h m.resolver).and leaves).mono
    (fun _ _ known => ⟨known.1,
      fun s x mem => by rwa [known.2.1.bindings], fun before _ => known.2.2 before⟩)
    fun _ _ known => ⟨known.1.2,
      fun s x mem => by rwa [known.2.1.bindings], fun before _ => known.2.2 before⟩

theorem markBody_moves (h : m.Sound) : Leads markBody m m.Moves := by
  have remarked := Design.markKept_remarked.statements analogScope m.body m.design
  exact ⟨markBody_meets h,
    fun s x mem => by rwa [remarked.scopeOf], fun before _ => before.remarked remarked⟩

theorem finish_moves (h : m.Sound) : Leads finish m m.Moves := by
  refine Meets.modify (Meets.get ?_)
  have told : m.Moves { m with
      problems := m.problems ++ m.waiting.map (missing m.name), waiting := [] } :=
    (Moves.refl h).congr rfl rfl rfl
  split
  · exact Meets.pure told
  · have run := runDataflow_moves told.sound
    unfold Leads Meets at run
    split
    · rename_i p m₁ failed
      rw [failed] at run
      exact (told.trans run).congr rfl rfl rfl
    · rename_i f m₁ other failed
      rw [failed] at run
      exact told.trans run
    · rename_i n m₁ done
      rw [done] at run
      have marked := (markBody_moves run.sound).mono fun _ => (told.trans run).trans
      exact Meets.set (Meets.bind marked fun _ _ moves => moves.congr rfl rfl rfl)

end Updates

end DeviceM

/-- A new statement for a scope, which brings no names there and leaves its own blocks open. -/
structure Design.Plants (d : Design) (scope : ScopeId) (s : Statement) (d' : Design) : Prop
    extends d.Makes scope s d' where
  declares : Declares (fun _ => False) d d'
  circuit : d'.circuit = d.circuit
  decided : ∀ r, s.Every (Statement.Decided r d') scope

namespace Design

variable {d d' : Design} {scope : ScopeId}

theorem sameShorts_of_circuit (circuit : d'.circuit = d.circuit) : d.SameShorts d' := fun i =>
    by rw [circuit]

theorem plants_newAssignment (wf : d.WellFormed) (scope : ScopeId) (name : String) (raw : Raw) :
    d.Plants scope (d.newAssignment name raw).1 (d.newAssignment name raw).2 :=
  ⟨makes_newAssignment wf scope name raw, declares_addSource wf raw, rfl, fun _ => trivial⟩

theorem plants_newContribution (wf : d.WellFormed) (scope : ScopeId) (target raw : Raw) :
    d.Plants scope (d.newContribution target raw).1 (d.newContribution target raw).2 :=
  ⟨makes_newContribution wf scope target raw,
    (declares_addSource wf target).trans
      (declares_addSource (widens_addSource wf target).wellFormed raw), rfl,
    fun _ => trivial⟩

theorem plants_newBlock (wf : d.WellFormed) (inside : scope < d.scopes.size) :
    d.Plants scope (d.newBlock scope).1 (d.newBlock scope).2 :=
  ⟨makes_newBlock wf inside, declares_addScope wf scope, rfl, fun _ => ⟨trivial, trivial⟩⟩

theorem reachOf_of_size_le {x : ScopeId} (outside : d.scopes.size ≤ x) : d.reachOf x = .always := by
  rw [reachOf, scopeOf, getD_of_size_le _ _ outside]
  rfl

theorem plants_newConditional (wf : d.WellFormed) (inside : scope < d.scopes.size) (cond : Raw) :
    d.Plants scope (d.newConditional scope cond).1 (d.newConditional scope cond).2 := by
  have wf₁ := (widens_addSource wf cond).wellFormed
  have wf₂ := (widens_addScope wf₁ scope).wellFormed
  have makes := makes_newConditional wf inside cond
  have declares : Declares (fun _ => False) d (d.newConditional scope cond).2 :=
    ((declares_addSource wf cond).trans (declares_addScope wf₁ scope)).trans
      (declares_addScope wf₂ scope)
  have opened : ∀ x ∈ (d.newConditional scope cond).1.scopes,
      (d.newConditional scope cond).2.reachOf x = .always := fun x mem =>
    (declares.reach x).trans (reachOf_of_size_le (makes.fresh x mem).1)
  refine ⟨makes, declares, rfl, fun r => ⟨⟨fun _ => ⟨?_, ?_⟩, fun held => absurd rfl held⟩,
    trivial, trivial⟩⟩
  · exact opened _ (Statement.mem_scopes_of_own List.mem_cons_self)
  · exact opened _ (Statement.mem_scopes_of_own (List.mem_cons_of_mem _ List.mem_cons_self))

theorem newDeclaration_cases {name : String} {type : DataType} {init : Option Raw} {s : Statement}
    (made : d.newDeclaration scope name type init = .ok (s, d')) :
    d'.circuit = d.circuit ∧ ∃ declaration, s = .declare declaration := by
  unfold newDeclaration at made
  dsimp only at made
  split at made
  · cases made
  · rename_i e defined
    have circuit : e.circuit = d.circuit := by rw [frame_define? defined]; rfl
    split at made <;> cases made <;> exact ⟨circuit, _, rfl⟩

end Design

/-- The calls of which a device is built and finished. -/
def Operation.elaborates : Operation → Bool
  | .update _ | .dataflow _ => false
  | _ => true

def Operation.declaresInside : Operation → Bool
  | .declare .. => true
  | _ => false

namespace Editor

variable {e : Editor}

theorem append_moves (h : e.device.Sound) {make : Design → Statement × Design}
    (plants : ∀ a scope body, e.innermost? = .ok (a, scope, body) →
      e.device.design.Plants scope (make e.device.design).1 (make e.device.design).2) :
    ∀ e', e.append make = .ok e' → e.device.Moves e'.device := by
  intro e' run
  unfold append at run
  cases inner : e.innermost? with
  | error f =>
    rw [inner] at run
    cases run
  | ok found =>
    obtain ⟨a, scope, body⟩ := found
    rw [inner] at run
    cases run
    have at_a := blockAt_of_innermost? inner
    obtain ⟨makes, declares, circuit, decided⟩ := plants a scope body inner
    refine ⟨h.append at_a makes, declares.bindings, fun before plain => ?_⟩
    have moved := before.declares h declares (Design.sameShorts_of_circuit circuit) plain fun _ _ _
      _ into => into
    exact moved.append at_a (decided _)

theorem appendOpen_moves (h : e.device.Sound) {make : Design → ScopeId → Statement × Design}
    (plants : ∀ scope < e.device.design.scopes.size,
      e.device.design.Plants scope (make e.device.design scope).1 (make e.device.design scope).2) :
    ∀ e', e.appendOpen make = .ok e' → e.device.Moves e'.device := by
  intro e' run
  unfold appendOpen at run
  cases inner : e.innermost? with
  | error f =>
    rw [inner] at run
    cases run
  | ok found =>
    obtain ⟨a, scope, body⟩ := found
    rw [inner] at run
    simp only [bind, Except.bind] at run
    have made : ∀ e₁, e.append (make · scope) = .ok e₁ → e.device.Moves e₁.device := by
      refine append_moves h fun a' scope' body' again => ?_
      rw [inner] at again
      cases again
      exact plants scope (scope_lt_of_innermost? h inner)
    cases appended : e.append (make · scope) with
    | error f =>
      rw [appended] at run
      cases run
    | ok e₁ =>
      rw [appended] at run
      cases run
      exact made e₁ appended

theorem openAnalog_moves (h : e.device.Sound) : e.device.Moves e.openAnalog.device := by
  have plants := Design.plants_newBlock h.wellFormed h.analog_lt
  refine ⟨DeviceM.newAnalog_meets h, plants.declares.bindings, fun before plain => ?_⟩
  have moved := before.declares h plants.declares
    (Design.sameShorts_of_circuit plants.circuit) plain
    fun _ _ _ _ into => into
  exact moved.append (a := []) rfl (plants.decided _)

def Undecided (e : Editor) : Prop :=
  match e.innermost? with
  | .ok (_, scope, _) =>
    ∀ x ∈ Statement.allDecidedIn Device.analogScope e.device.body, scope ∉ e.device.design.chain x
  | .error _ => True

theorem inner_of_innermost? (h : e.device.Sound) {a : Address} {scope : ScopeId}
    {body : List Statement}
    (inner : e.innermost? = .ok (a, scope, body)) : scope ≠ Design.rootScope := by
  have found := blockAt_of_innermost? inner
  rintro rfl
  cases a with
  | nil => cases found
  | cons step rest =>
    obtain ⟨t, at_i, mem⟩ := Statement.block_of_blockAt found
    refine absurd (h.scopes Design.rootScope ?_).1 (by decide)
    rw [Statement.scopesAll, Statement.gatherAll_eq_flatMap]
    exact List.mem_flatMap.mpr ⟨t, List.mem_of_getElem? at_i, mem⟩

theorem declare_moves (h : e.device.Sound) (undecided : e.Undecided) (name : String)
    (type : DataType)
    (init : Option Raw) : e.device.Moves (e.perform (.declare name type init)).1.device := by
  unfold perform declare
  unfold Undecided at undecided
  cases inner : e.innermost? with
  | error f => exact .refl h
  | ok found =>
    obtain ⟨a, scope, body⟩ := found
    simp only [inner] at undecided
    simp only [bind, Except.bind, pure, Except.pure]
    cases made : e.device.design.newDeclaration scope name type init with
    | error cause => exact .refl h
    | ok x =>
      obtain ⟨s, d⟩ := x
      have at_a := blockAt_of_innermost? inner
      have drafts := Design.drafts_newDeclaration h.wellFormed (inner_of_innermost? h inner) made
      obtain ⟨circuit, declaration, rfl⟩ := Design.newDeclaration_cases made
      refine ⟨h.append at_a drafts.toMakes, drafts.declares.bindings, fun before plain => ?_⟩
      have moved := before.declares h drafts.declares (Design.sameShorts_of_circuit circuit) plain
        fun x mem y around same => undecided x mem (same ▸ around)
      exact moved.append at_a trivial

theorem device_openElse {e' : Editor} (run : e.openElse = .ok e') : e'.device = e.device := by
  unfold openElse at run
  cases inner : e.innermost? with
  | error f =>
    rw [inner] at run
    cases run
  | ok found =>
    rw [inner] at run
    simp only [bind, Except.bind] at run
    split at run
    · cases run
      rfl
    · cases run

theorem device_close {e' : Editor} (run : e.close = .ok e') : e'.device = e.device := by
  unfold close at run
  cases inner : e.innermost? with
  | error f =>
    rw [inner] at run
    cases run
  | ok found =>
    rw [inner] at run
    cases run
    rfl

theorem onDevice_moves {α : Type} {act : DeviceM α}
    (h : DeviceM.Leads act e.device e.device.Moves) : e.device.Moves (e.onDevice act).1.device := by
  unfold DeviceM.Leads Meets at h
  unfold onDevice
  cases run : act e.device with
  | ok a m =>
    rw [run] at h
    exact h
  | error f m =>
    rw [run] at h
    exact h

theorem attempt_moves (h : e.device.Sound) {x : Except EditorFault Editor}
    (made : ∀ e', x = .ok e' → e.device.Moves e'.device) :
    e.device.Moves (e.attempt x).1.device := by
  cases x with
  | ok e' => exact made e' rfl
  | error f => exact .refl h

theorem perform_moves (h : e.device.Sound) {op : Operation} (elaborates : op.elaborates = true)
    (undecided : op.declaresInside = true → e.Undecided) :
    e.device.Moves (e.perform op).1.device := by
  have wf := h.wellFormed
  cases op with
  | port name =>
    exact onDevice_moves (.moves h (DeviceM.declarePort_meets h name)
      (DeviceM.declarePort_adds h name) (DeviceM.declarePort_bystands name _))
  | node name =>
    exact onDevice_moves (.moves h (DeviceM.declareNode_meets h name)
      (DeviceM.declareNode_adds h name) (DeviceM.declareNode_bystands name _))
  | «variable» name type =>
    exact onDevice_moves (.moves h (DeviceM.declareVariable_meets h name type)
      (DeviceM.declareVariable_adds h name type) (DeviceM.declareVariable_bystands name type _))
  | parameter name type default isLocal =>
    exact onDevice_moves (.moves h (DeviceM.declareParameter_meets h name type default isLocal)
      (DeviceM.declareParameter_adds h name type default isLocal)
      (DeviceM.declareParameter_bystands name type default isLocal _))
  | branch name p n => exact onDevice_moves (DeviceM.declareBranch_moves h name p n)
  | analog => exact openAnalog_moves h
  | declare name type init => exact declare_moves h (undecided rfl) name type init
  | assign name value =>
    exact attempt_moves h (append_moves h fun _ scope _ _ => Design.plants_newAssignment wf
      scope name value)
  | contribute target value =>
    exact attempt_moves h (append_moves h fun _ scope _ _ => Design.plants_newContribution wf
      scope target value)
  | openBlock =>
    exact attempt_moves h (appendOpen_moves h fun _ inside => Design.plants_newBlock wf inside)
  | openConditional cond =>
    exact attempt_moves h (appendOpen_moves h fun _ inside => Design.plants_newConditional
      wf inside cond)
  | openElse =>
    refine attempt_moves h fun e' run => ?_
    rw [device_openElse run]
    exact .refl h
  | close =>
    refine attempt_moves h fun e' run => ?_
    rw [device_close run]
    exact .refl h
  | focus a =>
    refine attempt_moves h fun e' run => ?_
    rw [device_focus run]
    exact .refl h
  | settle block => exact onDevice_moves (DeviceM.settle_moves h block)
  | mark => exact onDevice_moves (DeviceM.markBody_moves h)
  | finish => exact onDevice_moves (DeviceM.finish_moves h)
  | update | dataflow => cases elaborates

instance (e : Editor) : Decidable e.Undecided :=
  match inner : e.innermost? with
  | .ok (_, scope, _) =>
    decidable_of_iff
      (∀ x ∈ Statement.allDecidedIn Device.analogScope e.device.body,
        scope ∉ e.device.design.chain x)
      (by rw [Undecided, inner])
  | .error _ => isTrue (by rw [Undecided, inner]; trivial)

/-- No name is declared in a block in which a condition was resolved before. -/
def Timely (e : Editor) (ops : List Operation) : Prop :=
  ∀ k (inside : k < ops.length), ops[k].declaresInside = true →
    (e.performAll (ops.take k)).Undecided

instance (e : Editor) (ops : List Operation) : Decidable (e.Timely ops) :=
  inferInstanceAs (Decidable (∀ k (inside : k < ops.length), ops[k].declaresInside = true →
    (e.performAll (ops.take k)).Undecided))

theorem Timely.initial {ops : List Operation} {op : Operation} (h : e.Timely (ops ++ [op])) :
    e.Timely ops := by
  intro k inside declares
  have before := h k (by rw [List.length_append]; omega)
  rw [List.getElem_append_left inside, List.take_append_of_le_length (Nat.le_of_lt inside)]
    at before
  exact before declares

theorem Timely.last {ops : List Operation} {op : Operation} (h : e.Timely (ops ++ [op]))
    (declares : op.declaresInside = true) : (e.performAll ops).Undecided := by
  have before := h ops.length (by simp)
  rw [List.getElem_append_right (Nat.le_refl _), List.take_left] at before
  simp only [Nat.sub_self, List.getElem_cons_zero] at before
  exact before declares

/-- Whatever calls are made, what was decided lasts and the shorts are untangled, as long as the
names of functions are not declared. -/
theorem clear_performAll (ops : List Operation) (sound : e.device.Sound) (start : e.device.Clear)
    (elaborates : ∀ op ∈ ops, op.elaborates = true) (timely : e.Timely ops) :
    (e.performAll ops).device.design.Plain → (e.performAll ops).device.Clear := by
  induction ops using List.reverseRecOn with
  | nil => exact fun _ => start
  | append_singleton ops op ih =>
    obtain ⟨before, last⟩ := List.forall_mem_append.mp elaborates
    have step := perform_moves (sound_performAll ops sound) (last op (List.mem_singleton_self _))
      timely.last
    have run : e.performAll (ops ++ [op]) = ((e.performAll ops).perform op).1 := by
      simp only [performAll, List.foldl_append, List.foldl_cons, List.foldl_nil]
    rw [run]
    exact fun plain => step.clear (ih before timely.initial (plain.before step.bindings)) plain

end Editor

theorem Device.clear_create (name : String) (config : Config) :
    (Device.create name config).Clear := by
  have none : ∀ i, ((create name config).design.circuit.node i).short = none := by
    intro i
    cases i with
    | zero => rfl
    | succ i =>
      rw [Circuit.node_of_size_le (Nat.succ_le_succ (Nat.zero_le i))]
      rfl
  refine ⟨trivial, fun name b found => ?_, fun i target g short => ?_, fun i cycle => ?_⟩
  · cases found
  · rw [none] at short
    cases short
  · obtain ⟨j, first, -⟩ := Relation.TransGen.head'_iff.mp cycle
    rw [Circuit.Lays, Circuit.activeTarget?, none] at first
    cases first

namespace Editor

/-- In every state that calls lead to, the shorts that hold lead from no node back to itself, and
following them ends at a node that is not laid onto another. The names of functions must not be
declared, and no name in a block in which a condition was resolved before. -/
theorem shorts_never_cycle (name : String) (config : Config) (ops : List Operation)
    (elaborates : ∀ op ∈ ops, op.elaborates = true)
    (timely : (Editor.ofDevice (Device.create name config)).Timely ops)
    (plain : ((Editor.ofDevice (Device.create name config)).performAll ops).device.design.Plain) :
    let d := ((Editor.ofDevice (Device.create name config)).performAll ops).device.design
    (∀ i, ¬ Relation.TransGen (d.circuit.Lays d.always) i i) ∧
      ∀ i, ∃ r, d.followNode i = some r ∧ Relation.ReflTransGen (d.circuit.Lays d.always) i r ∧
        d.circuit.activeTarget? d.always r = none := by
  intro d
  have clear := clear_performAll ops (Device.sound_create name config)
    (Device.clear_create name config)
    elaborates timely plain
  refine ⟨clear.untangled.acyclic, fun i => ?_⟩
  obtain ⟨r, found⟩ := clear.untangled.acyclic.ends i
  exact ⟨r, found, Circuit.reaches_of_followFuel found⟩

def shortCall (p n : String) : Operation :=
  .contribute [.marker, .identifier p, .identifier n, .arguments, .identifier "V"]
    [.literal (.int 0)]

/-- Nodes that are laid onto each other in a ring, two of the three under a condition on a parameter
that is declared last. -/
def ringOfShorts : List Operation :=
  [.port "a", .port "b", .node "c", .analog, .declare "x" .real (some [.literal (.int 1)]),
    .openConditional [.identifier "x"], shortCall "a" "b", shortCall "b" "c", .close,
      .settle 0, .openBlock,
    .declare "y" .real none, .close, shortCall "c" "a", .parameter "k" .real [.literal (.int 1)]
      true, .finish]

theorem shorts_never_cycle_ring :
    let e := Editor.ofDevice (Device.create "ring" .default)
    (∀ op ∈ ringOfShorts, op.elaborates = true) ∧ e.Timely ringOfShorts ∧
      (e.performAll ringOfShorts).device.design.Plain ∧
      let d := (e.performAll ringOfShorts).device.design
      (∀ i, ¬ Relation.TransGen (d.circuit.Lays d.always) i i) ∧
        ∀ i, ∃ r, d.followNode i = some r ∧ Relation.ReflTransGen (d.circuit.Lays d.always) i r ∧
          d.circuit.activeTarget? d.always r = none :=
  have elaborates : ∀ op ∈ ringOfShorts, op.elaborates = true := by decide
  have timely : (Editor.ofDevice (Device.create "ring" .default)).Timely ringOfShorts := by
    decide +kernel
  have plain : ((Editor.ofDevice (Device.create "ring" .default)).performAll
      ringOfShorts).device.design.Plain := by
    decide +kernel
  ⟨elaborates, timely, plain, shorts_never_cycle "ring" .default ringOfShorts
    elaborates timely plain⟩

/-- A short under a condition on a function, and one back; then a parameter of that name is
declared. -/
def lateParameter : List Operation :=
  [.port "a", .port "b", .analog, .openConditional [.identifier "$vt"], shortCall "a" "b", .close,
    shortCall "b" "a", .settle 0, .parameter "$vt" .real [.literal (.int 1)] true, .finish]

/-- A parameter that takes the name of a function makes a guard hold, and two nodes lie onto each
other. -/
theorem shorts_cycle_under_late_parameter :
    let d := ((Editor.ofDevice (Device.create "m" .default)).performAll lateParameter).device.design
    Relation.TransGen (d.circuit.Lays d.always) 1 1 := by
  intro d
  have there : d.circuit.activeTarget? d.always 1 = some 2 := by decide +kernel
  have back : d.circuit.activeTarget? d.always 2 = some 1 := by decide +kernel
  exact .tail (.single there) back

end Editor
end Analog
