import Analog.Guarded.Elaborate
import Analog.Proofs.Device.CallCounters
import Analog.Proofs.Guarded.Program

/-!
Elaboration with a guard on what could break it off: a device that is placed twice, a use of a
branch that is given back but was never taken, and, at the end, a block that waits for no name.
Together with the guarded readers this gives the devices of a text and the expression of a text
without any access that could go wrong, and it gives what the library gives, for every text.
-/
namespace Analog

namespace Design

variable {d d₁ d₂ : Design} {outer : ScopeId}

structure MakesAll (d : Design) (outer : ScopeId) (ss : List Statement) (d' : Design) : Prop where
  widens : d.Widens d'
  held : Statement.heldAll ss = []
  fits : Statement.EveryAll (Statement.Sound d') outer ss
  fresh : ∀ t ∈ Statement.scopesAll ss, d.scopes.size ≤ t ∧ t < d'.scopes.size
  distinct : (Statement.scopesAll ss).Nodup

theorem MakesAll.nil (wf : d.WellFormed) (outer : ScopeId) : d.MakesAll outer [] d :=
  ⟨widens_refl wf, rfl, trivial, List.forall_mem_nil _, List.nodup_nil⟩

theorem MakesAll.cons {s : Statement} {ss : List Statement} (first : d.Makes outer s d₁)
    (rest : d₁.MakesAll outer ss d₂) (inside : outer < d.scopes.size) :
    d.MakesAll outer (s :: ss) d₂ := by
  have more := first.widens.scopes
  have fits := Statement.everyAll_spared rest.widens.toSpares (Nat.lt_of_lt_of_le inside more) [s]
    ⟨first.fits, trivial⟩
  have split : Statement.scopesAll (s :: ss) = s.scopes ++ Statement.scopesAll ss := rfl
  refine ⟨first.widens.trans rest.widens, ?_, ⟨fits.1, rest.fits⟩, fun t mem => ?_, ?_⟩
  · have early : Statement.gather Statement.ownHeld s = [] := first.held
    have late : Statement.gatherAll Statement.ownHeld ss = [] := rest.held
    rw [Statement.heldAll, Statement.gatherAll, early, late, List.append_nil]
  · rw [split] at mem
    rcases List.mem_append.mp mem with early | late
    · exact ⟨(first.fresh t early).1, Nat.lt_of_lt_of_le (first.fresh t early).2 rest.widens.scopes⟩
    · exact ⟨Nat.le_trans more (rest.fresh t late).1, (rest.fresh t late).2⟩
  · rw [split, List.nodup_append]
    refine ⟨first.distinct, rest.distinct, ?_⟩
    rintro t early _ late rfl
    exact Nat.lt_irrefl _ (Nat.lt_of_lt_of_le (first.fresh t early).2 (rest.fresh t late).1)

theorem Makes.block {ss : List Statement} (wf : d.WellFormed) (inside : outer < d.scopes.size)
    (inner : (d.addScope outer).2.MakesAll d.scopes.size ss d₁) :
    d.Makes outer (.block d.scopes.size ss) d₁ := by
  have added := widens_addScope wf outer
  have here : d.scopes.size < (d.addScope outer).2.scopes.size := by simp [addScope]
  have split : (Statement.block d.scopes.size ss).scopes = d.scopes.size ::
    Statement.scopesAll ss := rfl
  refine ⟨added.trans inner.widens, inner.held, ⟨⟨?_, trivial⟩, inner.fits⟩, fun t mem => ?_, ?_⟩
  · exact (inner.widens.enclosing _ here).trans
      ((enclosing_addScope d outer).trans
        (chain_widens (added.trans inner.widens).toSpares inside).symm)
  · rw [split] at mem
    rcases List.mem_cons.mp mem with rfl | further
    · exact ⟨Nat.le_refl _, Nat.lt_of_lt_of_le here inner.widens.scopes⟩
    · exact ⟨Nat.le_trans (Nat.le_of_lt here) (inner.fresh t further).1, (inner.fresh t further).2⟩
  · rw [split, List.nodup_cons]
    exact ⟨fun again => Nat.lt_irrefl _ (Nat.lt_of_lt_of_le here (inner.fresh _ again).1),
      inner.distinct⟩

theorem Makes.conditional (wf : d.WellFormed) (inside : outer < d.scopes.size) {raw : Raw}
    {thn els : List Statement}
    (first : (d.newConditional outer raw).2.MakesAll d.scopes.size thn d₁)
    (second : d₁.MakesAll (d.scopes.size + 1) els d₂) :
    d.Makes outer (.conditional ⟨(d.addSource raw).1, none, none⟩ d.scopes.size thn
      (d.scopes.size + 1) els) d₂ := by
  have empty := makes_newConditional wf inside raw
  have size : (d.newConditional outer raw).2.scopes.size = d.scopes.size + 2 := by
    simp [newConditional, addScope, addSource]
  have made : (d.newConditional outer raw).1 =
      .conditional ⟨(d.addSource raw).1, none, none⟩ d.scopes.size [] (d.scopes.size + 1) [] := by
    simp [newConditional, addScope, addSource]
  have more : d.scopes.size + 2 ≤ d₁.scopes.size := size ▸ first.widens.scopes
  have last := second.widens.scopes
  have later := first.widens.trans second.widens
  have fits := Statement.everyAll_spared later.toSpares
    (Nat.lt_of_lt_of_le inside empty.widens.scopes)
    [(d.newConditional outer raw).1] ⟨empty.fits, trivial⟩
  have split : (Statement.conditional ⟨(d.addSource raw).1, none, none⟩ d.scopes.size thn
      (d.scopes.size + 1) els).scopes =
      [d.scopes.size, d.scopes.size + 1] ++
        (Statement.scopesAll thn ++ Statement.scopesAll els) := by
    simp [Statement.scopes, Statement.scopesAll, Statement.gather, Statement.ownScopes]
  have own : ∀ t ∈ [d.scopes.size, d.scopes.size + 1], d.scopes.size ≤ t ∧
    t < d.scopes.size + 2 := by simp
  have inner : ∀ t ∈ Statement.scopesAll thn ++ Statement.scopesAll els,
      d.scopes.size + 2 ≤ t ∧ t < d₂.scopes.size := by
    intro t mem
    rcases List.mem_append.mp mem with early | late
    · exact ⟨size ▸ (first.fresh t early).1, Nat.lt_of_lt_of_le (first.fresh t early).2 last⟩
    · exact ⟨Nat.le_trans more (second.fresh t late).1, (second.fresh t late).2⟩
  refine ⟨empty.widens.trans later, ?_, ⟨?_, ?_, second.fits⟩, fun t mem => ?_, ?_⟩
  · have early : Statement.gatherAll Statement.ownHeld thn = [] := first.held
    have late : Statement.gatherAll Statement.ownHeld els = [] := second.held
    rw [Statement.held, Statement.gather, early, late]
    rfl
  · rw [made] at fits
    exact fits.1.1
  · exact Statement.everyAll_spared second.widens.toSpares
      (Nat.lt_of_lt_of_le (Nat.lt_add_of_pos_right (by decide)) more) thn first.fits
  · rw [split] at mem
    rcases List.mem_append.mp mem with here | further
    · obtain ⟨low, high⟩ := own t here
      exact ⟨low, Nat.lt_of_lt_of_le high (Nat.le_trans more last)⟩
    · obtain ⟨low, high⟩ := inner t further
      exact ⟨Nat.le_trans (Nat.le_add_right _ 2) low, high⟩
  · rw [split, List.nodup_append, List.nodup_append]
    refine ⟨by simp, ⟨first.distinct, second.distinct, ?_⟩, ?_⟩
    · rintro t early _ late rfl
      exact Nat.lt_irrefl _ (Nat.lt_of_lt_of_le (first.fresh t early).2 (second.fresh t late).1)
    · rintro t here _ further rfl
      exact Nat.lt_irrefl _ (Nat.lt_of_lt_of_le (own t here).2 (inner t further).1)

end Design

namespace Clause

mutual

theorem makes_build (c : Clause) {scope : ScopeId} {d d' : Design} {s : Statement}
    (wf : d.WellFormed) (inside : scope < d.scopes.size) (made : build scope c d = .ok (s, d')) :
    d.Makes scope s d' := by
  cases c with
  | declare name type init => exact Design.makes_newDeclaration wf made
  | assign name value =>
    cases made
    exact Design.makes_newAssignment wf scope name value
  | contribute target value =>
    cases made
    exact Design.makes_newContribution wf scope target value
  | conditional cond thn els =>
    have size : (d.newConditional scope cond).2.scopes.size = d.scopes.size + 2 := by
      simp [Design.newConditional, Design.addScope, Design.addSource]
    have second : (((d.addSource cond).2.addScope scope).2.addScope scope).1 =
        d.scopes.size + 1 := by
      simp [Design.addScope, Design.addSource]
    simp only [build] at made
    split at made
    · cases made
    · rename_i thn d₁ madeThn
      split at made
      · cases made
      · rename_i els d₂ madeEls
        cases made
        rw [second] at madeEls ⊢
        have early := makesAll_build _
          (Design.makes_newConditional wf inside cond).widens.wellFormed
          (by rw [size]; exact Nat.lt_add_of_pos_right (by decide)) madeThn
        have more := early.widens.scopes
        rw [size] at more
        exact .conditional wf inside early (makesAll_build _ early.widens.wellFormed more madeEls)
  | block body =>
    simp only [build] at made
    split at made
    · cases made
    · rename_i ss d₁ madeBody
      cases made
      exact .block wf inside (makesAll_build body (Design.widens_addScope wf scope).wellFormed
        (by simp [Design.addScope]) madeBody)

theorem makesAll_build (cs : List Clause) {scope : ScopeId} {d d' : Design} {ss : List Statement}
    (wf : d.WellFormed) (inside : scope < d.scopes.size)
    (made : buildAll scope cs d = .ok (ss, d')) :
    d.MakesAll scope ss d' := by
  cases cs with
  | nil =>
    cases made
    exact .nil wf scope
  | cons c cs =>
    simp only [buildAll] at made
    split at made
    · cases made
    · rename_i s d₁ madeFirst
      split at made
      · cases made
      · rename_i ss d₂ madeRest
        cases made
        have first := makes_build c wf inside madeFirst
        exact .cons first (makesAll_build cs first.widens.wellFormed
          (Nat.lt_of_lt_of_le inside first.widens.scopes) madeRest) inside

end

end Clause

namespace DeviceM

variable {m : Device} {waits : List Waiting}

theorem addAnalog_meets (h : m.Sound) (body : List Clause) :
    Meets (addAnalog body) m (fun _ => Device.Sound) Device.Reports := by
  refine Meets.get ?_
  split
  · exact Device.Reports.ofCause h _
  · rename_i s d made
    exact Meets.set (settle_meets
      (h.append (a := []) rfl (Clause.makes_build _ h.wellFormed h.analog_lt made)) _)

theorem checkPort_meets (h : m.Sound) (name : String) :
    Meets (checkPort name) m (fun _ => Device.Sound) Device.Reports := by
  refine Meets.get ?_
  split
  · exact Meets.pure h
  · exact Device.Reports.ofCause h _

theorem newNode_waits (h : m.waiting = waits) (item : Item) (name : String) :
    Ensures (newNode item name) m fun _ m' => m'.waiting = waits := by
  refine Meets.get ?_
  obtain ⟨i, created, c⟩ := m.design.circuit.addNode name
  cases created with
  | true => exact h
  | false => trivial

theorem define_waits (h : m.waiting = waits) (item : Item) (name : String) (b : Binding) :
    Ensures (define item name b) m fun _ m' => m'.waiting = waits := by
  refine Meets.get ?_
  split
  · exact h
  · trivial

theorem onDesign_waits (h : m.waiting = waits) {α : Type} (act : DesignM α) :
    Ensures (onDesign act) m fun _ m' => m'.waiting = waits := by
  unfold Ensures Meets onDesign
  cases act m.design with
  | ok a d => exact h
  | error f d => trivial

theorem nodeNamed_waits (h : m.waiting = waits) (name : String) :
    Ensures (nodeNamed name) m fun _ m' => m'.waiting = waits := by
  refine Meets.get ?_
  split
  · exact h
  · exact h
  · trivial
  · trivial

theorem settleParameter_waits (h : m.waiting = waits) (p : ParameterId) (name : String)
    (isLocal : Bool)
    (default : Tree) : Ensures (settleParameter p name isLocal default) m fun _ m' =>
    m'.waiting = waits := by
  refine Meets.modify (Meets.get ?_)
  split
  · trivial
  · exact h
  · split
    · exact h
    · exact h

theorem declareParameter_waits (h : m.waiting = waits) (name : String) (type : DataType)
    (default : Raw)
    (isLocal : Bool) : Ensures (declareParameter name type default isLocal) m fun _ m' =>
    m'.waiting = waits := by
  refine Meets.get (Meets.set (Meets.bind (define_waits (by exact h) ..) fun _ m₁ h₁
    => Meets.modify ?_))
  refine Meets.bind (onDesign_waits (by exact h₁) _) fun t m₂ h₂ => ?_
  split
  · exact Meets.bind (onDesign_waits h₂ _) fun _ _ _ => trivial
  · exact settleParameter_waits h₂ ..

theorem updateBlock_waits (h : m.waiting = waits) (i : Nat) :
    Ensures (updateBlock i) m fun _ m' => m'.waiting = waits := by
  refine Meets.get ?_
  split
  · exact h
  · exact h

theorem retry_waits (ws : List Waiting) :
    Ensures (retry ws) m fun rest _ => ∀ w ∈ rest, w.problem.isDeferred = true := by
  induction ws generalizing m with
  | nil => exact List.forall_mem_nil _
  | cons w ws ih =>
    rw [retry]
    refine Meets.bind (updateBlock_waits rfl w.block) fun result m₁ _ => ?_
    split
    · exact ih
    · rename_i p
      split
      · rename_i deferred
        exact Meets.bind ih fun rest _ all => List.forall_mem_cons.mpr ⟨deferred, all⟩
      · exact Meets.modify ih
    · trivial

theorem declareBranch_waits (name p : String) (n : Option String) :
    Ensures (declareBranch name p n) m fun _ m' =>
    ∀ w ∈ m'.waiting, w.problem.isDeferred = true := by
  refine Meets.bind (nodeNamed_waits rfl p) fun pos m₁ _ => ?_
  extract_lets join
  have joined : ∀ m neg, Ensures (join neg) m fun _ m' => ∀ w ∈ m'.waiting,
      w.problem.isDeferred = true := by
    intro m neg
    refine Meets.get ?_
    split
    · trivial
    · refine Meets.set ?_
      split
      · trivial
      · refine Meets.set (Meets.bind (define_waits rfl ..) fun _ m₂ _ => ?_)
        exact Meets.bind (retry_waits m.waiting) fun rest m₃ all => all
  split
  · exact Meets.bind (nodeNamed_waits rfl _) fun neg m₂ _ => joined m₂ neg
  · exact joined m₁ ground

theorem settle_waits (h : ∀ w ∈ m.waiting, w.problem.isDeferred = true) (i : Nat) :
    Ensures (settle i) m fun _ m' => ∀ w ∈ m'.waiting, w.problem.isDeferred = true := by
  refine Meets.bind (updateBlock_waits rfl i) fun result m₁ same => ?_
  rw [← same] at h
  split
  · exact h
  · rename_i p
    split
    · rename_i deferred
      exact List.forall_mem_append.mpr ⟨h, List.forall_mem_singleton.mpr deferred⟩
    · trivial
  · trivial

end DeviceM

/-- A device on which the next item can be worked off: all that waits in it waits for a branch. -/
structure Device.Ready (m : Device) : Prop where
  sound : m.Sound
  deferred : ∀ w ∈ m.waiting, w.problem.isDeferred = true

theorem Device.ready_create (name : String) (config : Config) : (Device.create name config).Ready :=
  ⟨sound_create name config, List.forall_mem_nil _⟩

theorem ProgramItem.apply_meets (item : ProgramItem) {m : Device} (h : m.Ready) :
    Meets item.apply m (fun _ => Device.Ready) Device.Reports := by
  have join : ∀ {act : DeviceM Unit}, Meets act m (fun _ => Device.Sound) Device.Reports →
      Ensures act m (fun _ m' => ∀ w ∈ m'.waiting, w.problem.isDeferred = true) →
      Meets act m (fun _ => Device.Ready) Device.Reports := fun sound deferred =>
    (sound.and deferred).mono (fun _ _ both => ⟨both.1, both.2⟩) fun _ _ both => both.1
  have kept : ∀ {act : DeviceM Unit}, Meets act m (fun _ => Device.Sound) Device.Reports →
      Ensures act m (fun _ m' => m'.waiting = m.waiting) →
      Meets act m (fun _ => Device.Ready) Device.Reports := fun sound same =>
    join sound (same.mono (fun _ _ same => by rw [same]; exact h.deferred) fun _ _ _ => trivial)
  cases item with
  | device name => exact h
  | port name =>
    refine kept (DeviceM.declarePort_meets h.sound _) ?_
    exact Meets.bind (DeviceM.newNode_waits rfl ..) fun i m₁ h₁ =>
      Meets.bind (DeviceM.define_waits h₁ ..) fun _ m₂ h₂ => h₂
  | direction name =>
    refine kept (DeviceM.checkPort_meets h.sound _) (Meets.get ?_)
    split
    · exact rfl
    · trivial
  | node name =>
    refine kept (DeviceM.declareNode_meets h.sound _) (Meets.get ?_)
    split
    · exact rfl
    · exact Meets.bind (DeviceM.newNode_waits rfl ..) fun i m₁ h₁ => DeviceM.define_waits h₁ ..
  | parameter name type default isLocal =>
    exact kept (DeviceM.declareParameter_meets h.sound ..) (DeviceM.declareParameter_waits rfl ..)
  | «variable» name type =>
    exact kept (DeviceM.declareVariable_meets h.sound ..)
      (Meets.get (Meets.set (DeviceM.define_waits rfl ..)))
  | branch name p n =>
    exact join (DeviceM.declareBranch_meets h.sound ..) (DeviceM.declareBranch_waits ..)
  | analog keyword body =>
    refine join (DeviceM.addAnalog_meets h.sound body) (Meets.get ?_)
    split
    · trivial
    · exact Meets.set (DeviceM.settle_waits (by exact h.deferred) _)

namespace Guarded

def placesOf : List PlacedDevice → SpanTable Nat
  | [] => .empty
  | m :: ms => ⟨(placesOf ms).entries ++ [(ms.length, m.span)]⟩

theorem get?_placesOf (ms : List PlacedDevice) (i : Nat) :
    (placesOf ms).get? i = ms.reverse[i]?.map (·.span) := by
  induction ms with
  | nil => rfl
  | cons m ms ih =>
    have last : (placesOf (m :: ms)).get? i = ((placesOf ms).get? i).or
        (if ms.length = i then some m.span else none) := by
      simp only [placesOf, SpanTable.get?, List.find?_append, Option.map_or]
      by_cases same : ms.length = i
      · simp [same]
      · simp [same]
    rw [last, ih, List.reverse_cons, List.getElem?_append, List.length_reverse]
    rcases Nat.lt_trichotomy i ms.length with before | rfl | beyond
    · rw [if_pos before, if_neg (Nat.ne_of_gt before), Option.or_none]
    · simp
    · rw [if_neg (Nat.ne_of_lt beyond), if_neg (Nat.not_lt_of_gt beyond), Option.or_none,
        List.getElem?_eq_none (by rw [List.length_reverse]; exact Nat.le_of_lt beyond),
        List.getElem?_eq_none (by rw [List.length_singleton]; omega)]

theorem put_placesOf (ms : List PlacedDevice) (m : PlacedDevice) :
    (placesOf ms).put ms.length m.span = .ok (placesOf (m :: ms)) := by
  have free : (placesOf ms).get? ms.length = none := by
    rw [get?_placesOf, List.getElem?_eq_none (by rw [List.length_reverse]), Option.map_none]
  rw [SpanTable.put, free]
  rfl

section

variable (config : Config) {item : ProgramItem} (other : ∀ name, item ≠ .device name)
    (items : List ProgramItem)
include other

theorem elaborate_item (places : SpanTable Nat) (m : Device) (done : List Device) :
    elaborate config (item :: items) places (m :: done) =
      match item.apply m with
      | .ok _ m => elaborate config items places (m :: done)
      | .error (.underflow u) _ => crash (.underflow u)
      | .error f _ => throw ⟨item.span, f.message⟩ := by
  cases item with
  | device name => exact absurd rfl (other name)
  | _ => rfl

theorem elaborateItems_item (m : PlacedDevice) (done : List PlacedDevice) :
    Program.elaborateItems config (item :: items) (m :: done) =
      match item.apply m.device with
      | .ok _ device => Program.elaborateItems config items ({ m with device := device } :: done)
      | .error f _ => .error ⟨item.span, f.message⟩ := by
  cases item with
  | device name => exact absurd rfl (other name)
  | _ => rfl

theorem elaborate_idle :
      elaborate config (item :: items) .empty [] = elaborate config items .empty [] ∧
      Program.elaborateItems config (item :: items) [] = Program.elaborateItems config
      items [] := by
  cases item with
  | device name => exact absurd rfl (other name)
  | _ => exact ⟨rfl, rfl⟩

end

/-- Items that are worked off under guard give the devices of the library, and their places. -/
theorem elaborate_eq (config : Config) (items : List ProgramItem) (ms : List PlacedDevice)
    (ready : ∀ m ∈ ms, m.device.Ready) : elaborate config items (placesOf ms) (ms.map (·.device)) =
        sure ((Program.elaborateItems config items ms).map fun done
        => (placesOf done, done.map (·.device))) ∧
      ∀ done, Program.elaborateItems config items ms = .ok done → ∀ m ∈ done, m.device.Ready := by
  induction items generalizing ms with
  | nil =>
    refine ⟨rfl, fun done made => ?_⟩
    cases made
    exact ready
  | cons item items ih =>
    by_cases starts : ∃ name, item = .device name
    · obtain ⟨name, rfl⟩ := starts
      have more := ih (⟨name.span, .create name.text config⟩ :: ms)
        (List.forall_mem_cons.mpr ⟨Device.ready_create name.text config, ready⟩)
      rw [elaborate, List.length_map, put_placesOf ms ⟨name.span, .create name.text config⟩]
      exact more
    · have other : ∀ name, item ≠ .device name := fun name same => starts ⟨name, same⟩
      cases ms with
      | nil =>
        obtain ⟨guarded, plain⟩ := elaborate_idle config other items
        rw [placesOf, List.map_nil, guarded, plain]
        exact ih [] ready
      | cons m ms =>
        obtain ⟨first, rest⟩ := List.forall_mem_cons.mp ready
        have step := item.apply_meets first
        unfold Meets at step
        rw [List.map_cons, elaborate_item config other, elaborateItems_item config other]
        cases run : item.apply m.device with
        | ok _ device =>
          rw [run] at step
          exact ih ({ m with device := device } :: ms) (List.forall_mem_cons.mpr ⟨step, rest⟩)
        | error f device =>
          rw [run] at step
          obtain ⟨⟨p, rfl⟩ | rfl, -⟩ := step
          · exact ⟨rfl, fun done made => by cases made⟩
          · exact ⟨rfl, fun done made => by cases made⟩

theorem finish_eq {m : PlacedDevice} (ready : m.device.Ready) :
    finish m.span m.device = .ok (Program.finishDevice m) := by
  have named : m.device.waiting.all (·.problem.cause.fault?.isSome) = true := by
    refine List.all_eq_true.mpr fun w mem => ?_
    have deferred := ready.deferred w mem
    rw [Problem.isDeferred, Cause.isDeferred, beq_iff_eq] at deferred
    rw [deferred]
    rfl
  have ends := DeviceM.finish_meets ready.sound
  unfold Meets at ends
  rw [finish, if_pos named, Program.finishDevice]
  cases run : DeviceM.finish m.device with
  | ok problems device => rfl
  | error f device =>
    rw [run] at ends
    obtain ⟨⟨p, rfl⟩ | rfl, -⟩ := ends
    · rfl
    · rfl

theorem finishAll_eq (places : SpanTable Nat) (ms : List PlacedDevice) (i : Nat)
    (placed : ∀ j, places.get? (i + j) = ms[j]?.map (·.span)) (ready : ∀ m ∈ ms, m.device.Ready) :
    finishAll places i (ms.map (·.device)) = .ok (ms.map Program.finishDevice) := by
  induction ms generalizing i with
  | nil => rfl
  | cons m ms ih =>
    obtain ⟨first, rest⟩ := List.forall_mem_cons.mp ready
    have here : places.place i = m.span := by
      rw [SpanTable.place, show places.get? i = some m.span from placed 0]
      rfl
    have further := ih (i + 1)
      (fun j => by rw [Nat.add_assoc, Nat.add_comm 1 j]; exact placed (j + 1)) rest
    rw [List.map_cons, finishAll, here, finish_eq first, further]
    rfl

theorem devicesOf_eq (s : SourceText) (config : Config) :
    devicesOf s config = .ok (s.devices config) := by
  rw [devicesOf, Crash.lex_eq, SourceText.devices]
  cases found : Lexeme.ofText s with
  | error d => rfl
  | ok ws =>
    obtain ⟨same, ready⟩ := elaborate_eq config (Program.ofWords ws).items []
      (List.forall_mem_nil _)
    rw [placesOf, List.map_nil] at same
    simp only [bind, Except.bind, program_eq (Lexeme.ended_of_ofText found), same,
      Program.elaborate]
    cases worked : Program.elaborateItems config (Program.ofWords ws).items [] with
    | error d => rfl
    | ok done =>
      cases (Program.ofWords ws).error with
      | some d => rfl
      | none =>
        have finished := finishAll_eq (placesOf done) done.reverse 0
          (fun j => by rw [Nat.zero_add]; exact get?_placesOf done j)
          fun m mem => ready done worked m (List.mem_reverse.mp mem)
        rw [List.map_reverse] at finished
        simp only [sure, ExceptT.run, ExceptT.mk, Except.map, finished, Program.finishAll]
        rfl

theorem expressionOf_eq (s : SourceText) : expressionOf s = sure (Raw.ofText s) := by
  rw [expressionOf, Crash.lex_eq, Raw.ofText]
  cases found : Lexeme.ofText s with
  | error d => rfl
  | ok ws =>
    have ended := Lexeme.ended_of_ofText found
    obtain ⟨same, rest⟩ := agrees_read ended (Nat.le_succ ws.length)
    change wholeOf ws = sure (Raw.ofWords ws)
    rw [wholeOf, same, Raw.ofWords]
    cases first : Raw.read ws with
    | error d => rfl
    | ok x =>
      obtain ⟨raw, after⟩ := x
      have left := (rest raw after first).1
      change (do if ← follows after .finish then return raw else refuse after "unknown token" :
        Guarded Raw) =
        sure (if Words.follows after .finish = true then pure raw else Words.fail after
          "unknown token")
      rw [follows_eq left, pure_bind]
      split
      · rfl
      · rw [refuse, look_eq left]
        rfl

end Guarded

/-- The devices and the expression of any text are found without a crash: no access goes beyond the
characters or the words that there are, each word that is taken is of the kind that was seen, each
round of a loop takes a word or ends, no device is placed twice, no use of a branch is given back
that was not taken, and what waits at the end waits for a name. The end of the text is its last word
and no other. -/
theorem SourceText.reading_never_crashes (s : SourceText) (config : Config) :
    Guarded.devicesOf s config = .ok (s.devices config) ∧
      Guarded.expressionOf s = .sure (Raw.ofText s) ∧
      ∀ ws, Lexeme.ofText s = .ok ws → Words.Ended ws :=
  ⟨Guarded.devicesOf_eq s config, Guarded.expressionOf_eq s, fun _ h => Lexeme.ended_of_ofText h⟩

/-- A number that stops before its exponent, and a comment without an end. -/
theorem SourceText.reading_never_crashes_unfinished :
    Lexeme.ofText ⟨"cut.va", ['1', 'e', '+', '/', '*']⟩ =
        .ok [⟨.number, "1", ⟨0, 1⟩⟩, ⟨.identifier, "e", ⟨1, 2⟩⟩,
        ⟨.plus, "+", ⟨2, 3⟩⟩, ⟨.finish, "", ⟨5, 5⟩⟩] ∧
      Words.Ended [⟨.number, "1", ⟨0, 1⟩⟩, ⟨.identifier, "e", ⟨1, 2⟩⟩, ⟨.plus, "+", ⟨2, 3⟩⟩,
      ⟨.finish, "", ⟨5, 5⟩⟩] := by
  have words : Lexeme.ofText ⟨"cut.va", ['1', 'e', '+', '/', '*']⟩ = .ok [⟨.number, "1", ⟨0, 1⟩⟩,
      ⟨.identifier, "e", ⟨1, 2⟩⟩, ⟨.plus, "+", ⟨2, 3⟩⟩, ⟨.finish, "", ⟨5, 5⟩⟩] := by rfl
  exact ⟨words, (reading_never_crashes ⟨"cut.va", ['1', 'e', '+', '/', '*']⟩ .default).2.2 _ words⟩

end Analog
