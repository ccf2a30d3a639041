import Analog.Proofs.Device.CallCounters
import Analog.Proofs.Resolver.Lockstep

/-!
What a declaration leaves behind that fails. The names that are bound, the ports and the blocks that
wait are as before. But a node or a branch is made before its name is bound, and stays in the
circuit if the name is taken.
-/
namespace Analog

namespace Device

/-- The node that a name means. -/
def node? (m : Device) (name : String) : Option NodeId :=
  match m.lookup? name with
  | some (.port i) => some i
  | some (.net i) => some i
  | _ => none

/-- The nodes of a branch, if both are declared; without a second name it goes to ground. -/
def ends? (m : Device) (p : String) (n : Option String) : Option (NodeId × NodeId) := do
  return (← m.node? p, ← n.elim (some ground) m.node?)

/-- A device that differs from `m` in its circuit, which is `c`, and in variables that nothing
names. -/
structure Leaves (m : Device) (c : Circuit) (m' : Device) : Prop where
  scopes : m'.design.scopes = m.design.scopes
  ports : m'.ports = m.ports
  waiting : m'.waiting = m.waiting
  circuit : m'.design.circuit = c

end Device

namespace Operation

/-- Ports, nodes, variables and branches. -/
def declares : Operation → Bool
  | port _ | node _ | «variable» _ _ | branch _ _ _ => true
  | _ => false

/-- The circuit that a declaration leaves if it fails. -/
def left (m : Device) : Operation → Circuit
  | port name | node name => (m.design.circuit.addNode name).2.2
  | branch name p n =>
    match m.ends? p n with
    | none => m.design.circuit
    | some (i, j) =>
      match m.design.circuit.connect i j with
      | .error _ => m.design.circuit
      | .ok (ref, c) =>
        match c.addAlias? ref name with
        | none => c
        | some (_, c) => c
  | _ => m.design.circuit

/-- Something is left that was not there before: a node of the name, or a branch between two nodes
or of the name. -/
def Strays (m : Device) : Operation → Prop
  | port name | node name => m.design.circuit.findNode? name = none
  | branch name p n => ∃ i j, m.ends? p n = some (i, j) ∧ i ≠ j ∧
    (m.design.circuit.between? i j = none ∨ m.design.circuit.lookup? name = none)
  | _ => False

end Operation

namespace Circuit

variable {c c' : Circuit} {p n : NodeId} {r : BranchRef}

theorem addNode_eq_iff {name : String} : (c.addNode name).2.2 = c ↔ c.findNode? name ≠ none := by
  unfold addNode
  cases found : c.findNode? name with
  | some i => simp
  | none =>
    refine iff_of_false (fun same => ?_) (by simp)
    have size := congrArg (·.nodes.size) same
    simp at size

theorem addBranch_ne (b : Branch) (fewer : c'.branches.size ≤ c.branches.size) :
    (c.addBranch b).2 ≠ c' := by
  rintro rfl
  simp [addBranch] at fewer

theorem connect_eq_iff (made : c.connect p n = .ok (r, c')) : c' = c ↔ c.between? p n ≠ none := by
  obtain ⟨-, ⟨found, rfl⟩ | ⟨absent, -, rfl⟩⟩ := connect_cases made
  · simp [found]
  · simp [absent, addBranch_ne]

theorem addAlias?_of_connect (made : c.connect p n = .ok (r, c')) (name : String) :
    c'.addAlias? r name = none ∧ c.lookup? name ≠ none ∨
      ∃ b, c'.addAlias? r name = some (c'.addBranch b) ∧ c.lookup? name = none := by
  rw [← lookup?_extends (connect_extends made), addAlias?]
  cases c'.lookup? name with
  | none => exact .inr ⟨_, rfl, rfl⟩
  | some b => exact .inl ⟨rfl, by simp⟩

end Circuit

namespace DeviceM

variable {m : Device}

/-- What a problem leaves. -/
def Fails (m : Device) (c : Circuit) (f : Failure) (m' : Device) :
    Prop := ∀ p, f = .problem p → m.Leaves c m'

theorem newNode_leaves (item : Item) (name : String) : Meets (newNode item name) m
    (fun _ => m.Leaves (m.design.circuit.addNode name).2.2)
    (Fails m (m.design.circuit.addNode name).2.2) := by
  refine Meets.get ?_
  cases made : m.design.circuit.addNode name with
  | mk i rest =>
    refine Meets.set ?_
    split
    · exact Meets.pure ⟨rfl, rfl, rfl, rfl⟩
    · exact Meets.fail fun _ _ => ⟨rfl, rfl, rfl, rfl⟩

theorem define_leaves {m₁ : Device} {c : Circuit} (h : m.Leaves c m₁) (item : Item) (name : String)
    (b : Binding) : Meets (define item name b) m₁ (fun _ _ => True) (Fails m c) := by
  refine Meets.get ?_
  split
  · trivial
  · exact Meets.fail fun _ _ => h

theorem nodeNamed_finds (name : String) :
    Meets (nodeNamed name) m (fun i m' => m' = m ∧ m.node? name = some i)
    fun _ m' => m' = m ∧ m.node? name = none := by
  refine Meets.get ?_
  unfold Device.node?
  cases m.lookup? name with
  | none => exact ⟨rfl, rfl⟩
  | some b => cases b <;> exact ⟨rfl, rfl⟩

/-- A block that fails again waits, or its problem is noted: the declaration does not fail with
it. -/
theorem retry_fails (ws : List Waiting) : Meets (retry ws) m (fun _ _ => True) fun f _ =>
    ∀ p, f ≠ .problem p := by
  induction ws generalizing m with
  | nil => trivial
  | cons w ws ih =>
    have updated : Meets (updateBlock w.block) m (fun _ _ => True) fun f _ =>
        ∀ p, f ≠ .problem p := by
      refine Meets.get ?_
      split <;> trivial
    rw [retry]
    refine Meets.bind updated fun result m₁ _ => ?_
    split
    · exact ih
    · split
      · exact Meets.bind ih fun _ _ _ => trivial
      · exact Meets.modify ih
    · rename_i f other
      exact Meets.fail other

theorem declarePort_leaves (name : String) : Meets (declarePort name) m (fun _ _ => True)
    (Fails m ((Operation.port name).left m)) := by
  refine Meets.bind (newNode_leaves .port name) fun i m₁ made => ?_
  exact Meets.bind (define_leaves made .port name (.port i)) fun _ _ _ => trivial

theorem declareNode_leaves (name : String) : Meets (declareNode name) m (fun _ _ => True)
    (Fails m ((Operation.node name).left m)) := by
  refine Meets.get ?_
  split
  · trivial
  · exact Meets.bind (newNode_leaves .node name) fun i m₁ made =>
      define_leaves made .node name (.net i)

theorem declareVariable_leaves (name : String) (type : DataType) :
    Meets (declareVariable name type) m
    (fun _ _ => True) (Fails m ((Operation.variable name type).left m)) := by
  refine Meets.get (Meets.set (define_leaves ?_ .variable name _))
  exact ⟨rfl, rfl, rfl, rfl⟩

theorem declareBranch_leaves (name p : String) (n : Option String) :
    Meets (declareBranch name p n) m
    (fun _ _ => True) (Fails m ((Operation.branch name p n).left m)) := by
  have absent (none : m.ends? p n = none) : m.Leaves ((Operation.branch name p n).left m) m :=
    ⟨rfl, rfl, rfl, by simp only [Operation.left, none]⟩
  refine Meets.bind ((nodeNamed_finds p).mono (fun _ _ h => h) ?_) ?_
  · rintro _ _ ⟨rfl, none⟩ _ _
    exact absent (by simp [Device.ends?, none])
  rintro i m ⟨rfl, first⟩
  extract_lets join
  have joined (j : NodeId) (second : n.elim (some ground) m.node? = some j) :
      Meets (join j) m (fun _ _ => True)
      (Fails m ((Operation.branch name p n).left m)) := by
    have ends : m.ends? p n = some (i, j) := by simp [Device.ends?, first, second]
    refine Meets.get ?_
    split
    · rename_i e looped
      exact Meets.fail fun _ _ => ⟨rfl, rfl, rfl, by simp only [Operation.left, ends, looped]⟩
    · rename_i ref c made
      refine Meets.set ?_
      split
      · rename_i taken
        exact Meets.fail fun _ _ =>
          ⟨rfl, rfl, rfl, by simp only [Operation.left, ends, made, taken]⟩
      · rename_i b c' added
        refine Meets.set (Meets.bind (define_leaves ?_ .branch name _) fun _ m₁ _ => ?_)
        · exact ⟨rfl, rfl, rfl, by simp only [Operation.left, ends, made, added]⟩
        · exact Meets.bind ((retry_fails m.waiting).mono (fun _ _ h => h) fun _ _ other p same
            => absurd same (other p))
            fun _ _ _ => trivial
  split
  · rename_i n
    refine Meets.bind ((nodeNamed_finds n).mono (fun _ _ h => h) ?_) ?_
    · rintro _ _ ⟨rfl, none⟩ _ _
      exact absent (by simp [Device.ends?, none])
    · rintro j m ⟨rfl, found⟩
      exact joined j found
  · exact joined ground rfl

end DeviceM

theorem Operation.left_eq_iff {m : Device} (op : Operation) :
    op.left m = m.design.circuit ↔ ¬ op.Strays m := by
  cases op with
  | port name | node name => exact Circuit.addNode_eq_iff
  | branch name p n =>
    cases ends : m.ends? p n with
    | none => simp [left, Strays, ends]
    | some pair =>
      obtain ⟨i, j⟩ := pair
      cases made : m.design.circuit.connect i j with
      | error e =>
        have loop : i = j := by
          by_contra apart
          obtain ⟨r, c, made'⟩ := m.design.circuit.connect_ok apart
          rw [made] at made'
          cases made'
        subst loop
        simp [left, Strays, ends, made]
      | ok joined =>
        obtain ⟨ref, c⟩ := joined
        have apart := (Circuit.connect_cases made).1
        have pair := Circuit.connect_eq_iff made
        rcases Circuit.addAlias?_of_connect made name with ⟨taken, some⟩ | ⟨b, added, none⟩
        · simp [left, Strays, ends, made, taken, apart, pair, some]
        · have more : m.design.circuit.branches.size ≤ c.branches.size :=
            (Circuit.connect_extends made).branches
          simp [left, Strays, ends, made, added, apart, none, Circuit.addBranch_ne b more]
  | _ => exact iff_of_true rfl id

namespace Editor

theorem leaves_of_failed {α : Type} {e e' : Editor} {act : DeviceM α} {c : Circuit} {p : Problem}
    (h : Meets act e.device (fun _ _ => True) (DeviceM.Fails e.device c))
    (failed : e.onDevice act = (e', some (.problem p))) : e.device.Leaves c e'.device := by
  unfold Meets at h
  unfold onDevice at failed
  cases run : act e.device with
  | ok a m =>
    rw [run] at failed
    cases failed
  | error f m =>
    rw [run] at failed h
    cases failed
    exact h p rfl

/-- A declaration that returns and fails leaves names, ports and waiting blocks as they were. The
circuit is as it was, too, unless the declaration had made something of it before it found the name
taken. -/
theorem failed_declaration_leaves (name : String) (config : Config) (ops : List Operation)
    (op : Operation) (declares : op.declares = true) (e' : Editor) (f : Failure)
    (failed : ((Editor.ofDevice (Device.create name config)).performAll ops).perform op =
      (e', some f)) (returns : f ≠ .endless) :
    let m := ((Editor.ofDevice (Device.create name config)).performAll ops).device
    e'.device.design.scopes = m.design.scopes ∧ e'.device.ports = m.ports ∧
      e'.device.waiting = m.waiting ∧
      e'.device.design.circuit = op.left m ∧ (e'.device.design.circuit = m.design.circuit ↔
        ¬ op.Strays m) := by
  intro m
  have sound : m.Sound := sound_performAll ops (Device.sound_create name config)
  obtain ⟨p, rfl⟩ : ∃ p : Problem, f = .problem p := by
    have safe := safe_perform sound op
    rw [failed] at safe
    exact (safe.2 f rfl).resolve_right returns
  have leaves : m.Leaves (op.left m) e'.device := by
    cases op with
    | port name => exact leaves_of_failed (DeviceM.declarePort_leaves name) failed
    | node name => exact leaves_of_failed (DeviceM.declareNode_leaves name) failed
    | «variable» name type =>
      exact leaves_of_failed (DeviceM.declareVariable_leaves name type) failed
    | branch name p n => exact leaves_of_failed (DeviceM.declareBranch_leaves name p n) failed
    | _ => cases declares
  exact ⟨leaves.scopes, leaves.ports, leaves.waiting, leaves.circuit,
    leaves.circuit ▸ op.left_eq_iff⟩

/-- Two nodes, and a variable. -/
def taken : Editor :=
  (Editor.ofDevice (Device.create "m" .default)).performAll [.node "p", .node "n",
    .variable "x" .real]

theorem failed_declaration_leaves_branch :
    let op : Operation := .branch "x" "p" (some "n")
    op.Strays taken.device ∧ (taken.perform op).2.isSome = true ∧
      (taken.perform op).1.device.design.scopes = taken.device.design.scopes ∧
      (taken.perform op).1.device.design.circuit ≠ taken.device.design.circuit := by
  intro op
  have strays : op.Strays taken.device :=
    ⟨1, 2, by decide +kernel, by decide, .inl (by decide +kernel)⟩
  have fails : (taken.perform op).2.isSome = true := by decide +kernel
  have returns : (taken.perform op).2 ≠ some .endless := by decide +kernel
  obtain ⟨f, failed⟩ := Option.isSome_iff_exists.mp fails
  have leaves := failed_declaration_leaves "m" .default [.node "p", .node "n",
    .variable "x" .real] op rfl
    (taken.perform op).1 f (Prod.ext rfl failed)
      (fun endless => returns (failed.trans (congrArg some endless)))
  exact ⟨strays, fails, leaves.1, fun same => leaves.2.2.2.2.mp same strays⟩

/-- The name of a variable is taken, but the circuit has a node more. -/
theorem failed_node_stays : (taken.perform (.node "x")).2.isSome = true ∧
    (taken.perform (.node "x")).1.device.design.circuit.nodes.size =
    taken.device.design.circuit.nodes.size + 1 := by
  decide +kernel

end Editor
end Analog
