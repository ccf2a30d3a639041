import Analog.Device.Operation
import Analog.Proofs.Device.Soundness

/-!
Devices from their creation on. Whatever calls are made, and whether they succeed or not, the
counters of the circuit tell exactly the uses that the statements hold, and nothing is ever given
back that was not taken.
-/
namespace Analog

namespace Editor

def Safe (x : Editor × Option Failure) : Prop :=
  x.1.device.Sound ∧ ∀ f, x.2 = some f → f.Reported

variable {e : Editor}

theorem safe_onDevice {α : Type} {act : DeviceM α}
    (h : Meets act e.device (fun _ => Device.Sound) Device.Reports) : Safe (e.onDevice act) := by
  unfold Meets at h
  unfold onDevice
  cases run : act e.device with
  | ok a m =>
    rw [run] at h
    exact ⟨h, nofun⟩
  | error f m =>
    rw [run] at h
    refine ⟨h.2, ?_⟩
    rintro _ ⟨⟩
    exact h.1

theorem safe_attempt (h : e.device.Sound) {x : Except EditorFault Editor}
    (made : ∀ e', x = .ok e' → e'.device.Sound) : Safe (e.attempt x) := by
  cases x with
  | ok e' => exact ⟨made e' rfl, nofun⟩
  | error f => exact ⟨h, nofun⟩

theorem blockAt_of_innermost? {a : Address} {scope : ScopeId} {body : List Statement}
    (h : e.innermost? = .ok (a, scope, body)) :
    Statement.blockAt? Device.analogScope e.device.body a = some (scope, body) := by
  unfold innermost? at h
  split at h
  · cases h
  · split at h
    · rename_i found
      cases h
      exact found
    · cases h

theorem scope_lt_of_innermost? (h : e.device.Sound) {a : Address} {scope : ScopeId}
    {body : List Statement} (inner : e.innermost? = .ok (a, scope, body)) :
    scope < e.device.design.scopes.size := by
  rcases Statement.scope_blockAt (blockAt_of_innermost? inner) with rfl | mem
  · exact h.analog_lt
  · exact (h.scopes scope mem).2

theorem append_sound (h : e.device.Sound) {make : Design → Statement × Design}
    (makes : ∀ a scope body, e.innermost? = .ok (a, scope, body) →
      e.device.design.Makes scope (make e.device.design).1 (make e.device.design).2) :
    ∀ e', e.append make = .ok e' → e'.device.Sound := by
  intro e' run
  unfold append at run
  cases inner : e.innermost? with
  | error f =>
    rw [inner] at run
    cases run
  | ok found =>
    obtain ⟨a, scope, body⟩ := found
    rw [inner] at run
    cases run
    exact h.append (blockAt_of_innermost? inner) (makes a scope body inner)

theorem appendOpen_sound (h : e.device.Sound) {make : Design → ScopeId → Statement × Design}
    (makes : ∀ scope < e.device.design.scopes.size,
      e.device.design.Makes scope (make e.device.design scope).1 (make e.device.design scope).2) :
    ∀ e', e.appendOpen make = .ok e' → e'.device.Sound := by
  intro e' run
  unfold appendOpen at run
  cases inner : e.innermost? with
  | error f =>
    rw [inner] at run
    cases run
  | ok found =>
    obtain ⟨a, scope, body⟩ := found
    rw [inner] at run
    simp only [bind, Except.bind] at run
    have made : ∀ e₁, e.append (make · scope) = .ok e₁ → e₁.device.Sound := by
      refine append_sound h fun a' scope' body' again => ?_
      rw [inner] at again
      cases again
      exact makes scope (scope_lt_of_innermost? h inner)
    cases appended : e.append (make · scope) with
    | error f =>
      rw [appended] at run
      cases run
    | ok e₁ =>
      rw [appended] at run
      cases run
      exact made e₁ appended

theorem openElse_sound (h : e.device.Sound) : ∀ e', e.openElse = .ok e' → e'.device.Sound := by
  intro e' run
  unfold openElse at run
  cases inner : e.innermost? with
  | error f =>
    rw [inner] at run
    cases run
  | ok found =>
    rw [inner] at run
    simp only [bind, Except.bind] at run
    split at run
    · cases run
      exact h
    · cases run

theorem close_sound (h : e.device.Sound) : ∀ e', e.close = .ok e' → e'.device.Sound := by
  intro e' run
  unfold close at run
  cases inner : e.innermost? with
  | error f =>
    rw [inner] at run
    cases run
  | ok found =>
    rw [inner] at run
    cases run
    exact h

theorem device_focus {a : Address} {e' : Editor} (run : e.focus a = .ok e') :
    e'.device = e.device := by
  unfold focus at run
  split at run <;> cases run
  rfl

theorem safe_declare (h : e.device.Sound) (name : String) (type : DataType) (init : Option Raw) :
    Safe (e.perform (.declare name type init)) := by
  unfold perform declare
  cases inner : e.innermost? with
  | error f => exact ⟨h, nofun⟩
  | ok found =>
    obtain ⟨a, scope, body⟩ := found
    simp only [bind, Except.bind, pure, Except.pure]
    cases made : e.device.design.newDeclaration scope name type init with
    | error cause =>
      refine ⟨h, ?_⟩
      rintro _ ⟨⟩
      exact .inl ⟨.ofCause cause, rfl⟩
    | ok x =>
      exact ⟨h.append (blockAt_of_innermost? inner) (Design.makes_newDeclaration h.wellFormed made),
        nofun⟩

theorem safe_update (h : e.device.Sound) (r : Resolver) : Safe (e.perform (.update r)) := by
  unfold perform update
  cases inner : e.innermost? with
  | error f => exact ⟨h, nofun⟩
  | ok found =>
    obtain ⟨a, scope, body⟩ := found
    have at_a := blockAt_of_innermost? inner
    have self := Statement.setBlockAt_self at_a
    obtain ⟨before, after, held⟩ := Statement.gatherAll_setBlockAt Statement.blind_ownHeld at_a
    obtain ⟨left, right, scopes⟩ := Statement.gatherAll_setBlockAt Statement.blind_ownScopes at_a
    obtain ⟨front, back, guarded⟩ := Statement.gatherAll_setBlockAt Statement.blind_ownGuarded at_a
    have ledger : Ledger e.device.design (fun _ _ => 0) (Statement.heldAll body ++
        (before ++ after))
        e.device.design := by
      refine h.ledger.perm ?_
      conv_lhs => rw [← self]
      rw [Statement.heldAll, held, List.append_nil, List.append_assoc]
      exact List.perm_append_comm_assoc _ _ _
    obtain ⟨kept, every⟩ := Statement.updateAll_keeps r scope body (h.every.blockAt at_a) ledger
    have sound : Device.Sound (e.setBlock a (Statement.updateAll r scope body e.device.design).value
        (Statement.updateAll r scope body e.device.design).design).device := by
      refine h.ofLedger (kept.ledger.perm ?_) ?_ ?_ ?_ ?_
      · rw [Statement.heldAll, held, List.append_nil, List.append_assoc]
        exact List.perm_append_comm_assoc _ _ _
      · exact h.every.setBlockAt (Statement.shallow_sound _) at_a every
      · conv_rhs => rw [← self]
        rw [Statement.scopesAll, scopes, scopes]
        exact congrArg (left ++ · ++ right) (Statement.scopesAll_updateAll r scope body _)
      · conv_rhs => rw [← self]
        rw [Statement.guardedAll, guarded, guarded,
          Statement.gatherAll_updateAll Statement.outlined_ownGuarded]
      · intro x out
        refine kept.reach x fun mem => out ?_
        rw [← self, Statement.guardedAll, guarded]
        exact List.mem_append_left _ (List.mem_append_right _ mem)
    simp only [bind, Except.bind, pure, Except.pure]
    split
    · refine ⟨sound, ?_⟩
      rintro _ ⟨⟩
    · rename_i f failed
      refine ⟨sound, ?_⟩
      rintro _ ⟨⟩
      exact (kept.failure f failed).reported

theorem safe_perform (h : e.device.Sound) (op : Operation) : Safe (e.perform op) := by
  have wf := h.wellFormed
  cases op with
  | port name => exact safe_onDevice (DeviceM.declarePort_meets h name)
  | node name => exact safe_onDevice (DeviceM.declareNode_meets h name)
  | «variable» name type => exact safe_onDevice (DeviceM.declareVariable_meets h name type)
  | parameter name type default isLocal =>
    exact safe_onDevice (DeviceM.declareParameter_meets h name type default isLocal)
  | branch name p n => exact safe_onDevice (DeviceM.declareBranch_meets h name p n)
  | analog => exact ⟨DeviceM.newAnalog_meets h, nofun⟩
  | declare name type init => exact safe_declare h name type init
  | assign name value =>
    exact safe_attempt h (append_sound h fun _ scope _ _ => Design.makes_newAssignment wf
      scope name value)
  | contribute target value =>
    exact safe_attempt h
      (append_sound h fun _ scope _ _ => Design.makes_newContribution wf scope target value)
  | openBlock =>
    exact safe_attempt h (appendOpen_sound h fun _ inside => Design.makes_newBlock wf inside)
  | openConditional cond =>
    exact safe_attempt h (appendOpen_sound h fun _ inside => Design.makes_newConditional
      wf inside cond)
  | openElse => exact safe_attempt h (openElse_sound h)
  | close => exact safe_attempt h (close_sound h)
  | focus a => exact safe_attempt h fun _ run => device_focus run ▸ h
  | settle block => exact safe_onDevice (DeviceM.settle_meets h block)
  | update r => exact safe_update h r
  | dataflow r => exact safe_onDevice (DeviceM.runDataflow_meets h r)
  | mark => exact safe_onDevice (DeviceM.markBody_meets h)
  | finish => exact safe_onDevice (DeviceM.finish_meets h)

end Editor

theorem Design.bindings_empty (s : ScopeId) : (Design.empty.scopeOf s).bindings = [] := by
  match s with
  | 0 => rfl
  | s + 1 => rfl

theorem Design.reachOf_empty (s : ScopeId) : Design.empty.reachOf s = .always := by
  match s with
  | 0 => rfl
  | s + 1 => rfl

theorem Design.wellFormed_empty : Design.empty.WellFormed where
  circuit := by
    refine ⟨by decide, ?_⟩
    intro a b known
    rw [Circuit.branch_of_size_le (Nat.zero_le a)] at known
    cases known
  filters := nofun
  bindings s x mem := by
    rw [Design.bindings_empty] at mem
    cases mem
  summaries v := List.nodup_nil

theorem Design.faithful_empty : Design.empty.Faithful where
  bindings s x mem := by
    rw [Design.bindings_empty] at mem
    cases mem
  branches b _ := by
    rw [Circuit.branch_of_size_le (Nat.zero_le b)]
    rfl
  parameters _ h := by
    rcases h with known | own
    · cases known
    · cases own

theorem Device.sound_create (name : String) (config : Config) :
    (Device.create name config).Sound where
  wellFormed := (Design.widens_addScope Design.wellFormed_empty Design.rootScope).wellFormed
  faithful := (Design.widens_addScope Design.wellFormed_empty Design.rootScope).faithful
    Design.faithful_empty
  holds := by
    refine ⟨nofun, fun b u => ?_⟩
    rw [Circuit.count_of_size_le (Nat.zero_le b)]
    rfl
  every := trivial
  scopes := nofun
  distinct := List.nodup_nil
  outer := ⟨Nat.le_refl 2, rfl⟩
  reach s _ := ((Design.widens_addScope Design.wellFormed_empty Design.rootScope).reach s).trans
    (Design.reachOf_empty s)

namespace Editor

theorem sound_performAll (ops : List Operation) {e : Editor} (h : e.device.Sound) :
    (e.performAll ops).device.Sound := by
  induction ops generalizing e with
  | nil => exact h
  | cons op ops ih => exact ih (safe_perform h op).1

/-- In every state that calls can lead to, the counters of each branch tell the uses that the
statements hold of it and of its aliases. No call gives back a use that was not taken. -/
theorem counters_tell_held_uses (name : String) (config : Config) (ops : List Operation) :
    let e := (Editor.ofDevice (Device.create name config)).performAll ops
    (∀ b u, e.device.design.circuit.count b u =
      e.device.design.circuit.footprint (Statement.heldAll e.device.body) b u) ∧
    Statement.EveryAll (fun _ s => s.Located) Device.analogScope e.device.body ∧
    ∀ op f, (e.perform op).2 = some f → (∃ p : Problem, f = .problem p) ∨ f = .endless := by
  intro e
  have sound : e.device.Sound := sound_performAll ops (Device.sound_create name config)
  refine ⟨?_, ?_, ?_⟩
  · intro b u
    rw [sound.holds.counts b u, Nat.zero_add]
  · have weaken : ∀ outer s, True → Statement.Sound e.device.design outer s → s.Located :=
      fun _ _ _ known => known.2
    exact Statement.EveryAll.mono weaken (fun _ _ _ _ _ => trivial) trivial _ sound.every
  · intro op f failed
    exact (safe_perform sound op).2 f failed

end Editor

end Analog
