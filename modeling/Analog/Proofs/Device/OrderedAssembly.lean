import Analog.Proofs.Device.Building

/-!
Building a device call by call, in order: each analog block gets all its statements before it is
settled. Then whatever the calls were, and whether they succeeded or not, the device is one that was
built in order.
-/
namespace Analog

/-- A new statement for a scope, and the names that it brings there. -/
structure Design.Drafts (d : Design) (scope : ScopeId) (s : Statement) (d' : Design) : Prop
    extends d.Makes scope s d' where
  declares : Declares (· = scope) d d'
  untouched : s.Every (fun _ => Statement.Untouched) scope

namespace Design

variable {d : Design} {scope : ScopeId}

theorem drafts_newDeclaration (wf : d.WellFormed) (inner : scope ≠ rootScope) {name : String}
    {type : DataType} {init : Option Raw} {s : Statement} {d' : Design}
    (made : d.newDeclaration scope name type init = .ok (s, d')) : d.Drafts scope s d' := by
  have makes := makes_newDeclaration wf made
  have added := widens_addVariable wf name type
  have inside : (Binding.variable d.vars.size).Inside (d.addVariable (.ofType name type)).2 := by
    simp [Binding.Inside, addVariable]
  unfold newDeclaration at made
  dsimp only at made
  split at made
  · cases made
  · rename_i e defined
    have named : Declares (· = scope) d e :=
      (declares_addVariable wf name type).trans (declares_define?_inner inner defined)
    split at made
    · cases made
      exact ⟨makes, named, rfl⟩
    · cases made
      have wf' : e.WellFormed := (widens_define? added.wellFormed inside trivial defined).wellFormed
      exact ⟨makes, named.trans (declares_addSource wf' _), rfl⟩

end Design

namespace Device

variable {m : Device} {i : Nat} {arm : Arm} {rest : Address} {inner : ScopeId}
    {old : List Statement}

end Device

namespace Editor

variable {e e' : Editor} {done : Nat → Prop}

def Focused (e : Editor) : Prop := ∃ i, ∀ a ∈ e.opened, a.head?.map Prod.fst = some i

theorem Focused.innermost (h : e.Focused) {a : Address} {scope : ScopeId} {body : List Statement}
    (inner : e.innermost? = .ok (a, scope, body)) :
    a ∈ e.opened ∧ ∃ i arm rest, a = (i, arm) :: rest ∧ e.openedAnalog? = .ok i := by
  obtain ⟨i, heads⟩ := h
  have mem : a ∈ e.opened := by
    unfold innermost? at inner
    split at inner
    · cases inner
    · rename_i b others opened
      split at inner
      · cases inner
        rw [opened]
        exact List.mem_cons_self
      · cases inner
  have first : ∀ b ∈ e.opened, ∃ arm rest, b = (i, arm) :: rest := by
    intro b inside
    have head := heads b inside
    cases b with
    | nil => cases head
    | cons x xs =>
      cases Option.some.inj head
      exact ⟨x.2, xs, rfl⟩
  obtain ⟨arm, rest, split⟩ := first a mem
  refine ⟨mem, i, arm, rest, split, ?_⟩
  obtain ⟨last, known⟩ : ∃ last, e.opened.getLast? = some last :=
    ⟨_, List.getLast?_eq_some_getLast (List.ne_nil_of_mem mem)⟩
  obtain ⟨arm', rest', split'⟩ := first last (List.mem_of_getLast? known)
  unfold openedAnalog?
  rw [known, split']

theorem Focused.of_ok (h : e.Focused) {next : Address × ScopeId × List Statement →
      Except EditorFault Editor} (run : (e.innermost? >>= next) = .ok e') : ∃ i arm rest scope body,
      e.innermost? = .ok ((i, arm) :: rest, scope, body) ∧ (i, arm) :: rest ∈ e.opened ∧
      e.openedAnalog? = .ok i ∧ next ((i, arm) :: rest, scope, body) = .ok e' := by
  cases inner : e.innermost? with
  | error f =>
    rw [inner] at run
    cases run
  | ok found =>
    rw [inner] at run
    obtain ⟨mem, i, arm, rest, same, opened⟩ := h.innermost inner
    exact ⟨i, arm, rest, found.2.1, found.2.2, by rw [← same], same ▸ mem, opened, same ▸ run⟩

theorem Focused.mono (h : e.Focused) (heads : ∀ b ∈ e'.opened, ∃ a ∈ e.opened,
      b.head?.map Prod.fst = a.head?.map Prod.fst) : e'.Focused := by
  obtain ⟨i, all⟩ := h
  refine ⟨i, fun b mem => ?_⟩
  obtain ⟨a, inside, same⟩ := heads b mem
  rw [same, all a inside]

structure Goes (e : Editor) (done : Nat → Prop) (e' : Editor) : Prop where
  device : e.device.Goes done e'.device
  focused : e'.Focused

end Editor

def Operation.adds : Operation → Bool
  | .declare .. | .assign .. | .contribute .. | .openBlock | .openConditional _ => true
  | _ => false

def Operation.settled? : Operation → Option Nat
  | .settle i => some i
  | _ => none

namespace Editor

variable {e : Editor} {done : Nat → Prop} {op : Operation} {ops : List Operation}

/-- No statement is added to a block that was settled before. -/
def Orderly (e : Editor) (ops : List Operation) : Prop :=
  ∀ k (inside : k < ops.length), ops[k].adds = true →
    ∀ i ∈ (ops.take k).filterMap Operation.settled?,
    (e.performAll (ops.take k)).openedAnalog? ≠ .ok i

instance (e : Editor) (ops : List Operation) : Decidable (e.Orderly ops) :=
  inferInstanceAs (Decidable (∀ k (inside : k < ops.length), ops[k].adds = true →
    ∀ i ∈ (ops.take k).filterMap Operation.settled?,
      (e.performAll (ops.take k)).openedAnalog? ≠ .ok i))

theorem Orderly.initial (h : e.Orderly (ops ++ [op])) : e.Orderly ops := by
  intro k inside adds
  have before := h k (by rw [List.length_append]; omega)
  rw [List.getElem_append_left inside, List.take_append_of_le_length (Nat.le_of_lt inside)]
    at before
  exact before adds

theorem Orderly.last (h : e.Orderly (ops ++ [op])) (adds : op.adds = true) :
    ∀ i ∈ ops.filterMap Operation.settled?, (e.performAll ops).openedAnalog? ≠ .ok i := by
  have before := h ops.length (by simp)
  rw [List.getElem_append_right (Nat.le_refl _), List.take_left] at before
  simp only [Nat.sub_self, List.getElem_cons_zero] at before
  exact before adds

end Editor

end Analog
