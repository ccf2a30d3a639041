import Analog.Proofs.Circuit.FollowingShorts
import Analog.Proofs.Resolver.CounterBalance
import Analog.Proofs.Statement.Shape
import Analog.Statement.Fixpoint

/-!
What statements hold. A statement holds the uses of its tree; a contribution also counts as a source
of the quantity that it was found to go to, and as a short once it is one. Updates keep the counters
of the circuit in step with that, whether they succeed or not.
-/
namespace Analog

namespace Design

theorem scopeOf_modifyScope (d : Design) (s t : ScopeId) (f : Scope → Scope) :
      (d.modifyScope s f).scopeOf t =
      if t = s ∧ s < d.scopes.size then f (d.scopeOf s) else d.scopeOf t :=
  getD_modify d.scopes default t s f

theorem variableOf_modifyVariable (d : Design) (v w : VariableId) (f : Variable → Variable) :
    (d.modifyVariable v f).variableOf w = if w = v ∧ v < d.vars.size then f (d.variableOf v)
    else d.variableOf w :=
  getD_modify d.vars default w v f

theorem extends_modifyVariable (d : Design) (v : VariableId) (f : Variable → Variable) :
    d.Extends (d.modifyVariable v f) :=
  ⟨.refl _, .refl _, fun _ => rfl, fun _ => rfl, rfl, rfl, by simp [modifyVariable], fun _ _ h => h⟩

theorem WellFormed.assign {d : Design} (wf : d.WellFormed) (v : VariableId) (s : Summary) :
    (d.assign v s).2.WellFormed where
  circuit := wf.circuit
  filters := wf.filters
  bindings t x mem := by
    have same : d.vars.size ≤ (d.assign v s).2.vars.size := by simp [Design.assign, modifyVariable]
    refine (wf.bindings t x mem).mono ?_ ?_ ?_ same <;> exact Nat.le_refl _
  summaries w := by
    simp only [Design.assign, variableOf_modifyVariable]
    split
    · exact EdgeSet.nodup_widenAll (wf.summaries v) s.deps
    · exact wf.summaries w

theorem extends_setReach (d : Design) (s : ScopeId) (reach : Reach) (condition : String) :
    d.Extends (d.setReach s reach condition) where
  circuit := .refl _
  names := .refl _
  bindings t := by
    simp only [setReach, scopeOf_modifyScope]
    split
    · rename_i same
      rw [same.1]
    · rfl
  enclosing t := by
    simp only [setReach, scopeOf_modifyScope]
    split
    · rename_i same
      rw [same.1]
    · rfl
  scopes := by simp [setReach, modifyScope]
  parameters := rfl
  vars := rfl
  filters _ _ h := h

theorem WellFormed.setReach {d : Design} (wf : d.WellFormed) (s : ScopeId) (reach : Reach)
    (condition : String) : (d.setReach s reach condition).WellFormed where
  circuit := wf.circuit
  filters := wf.filters
  bindings t x mem := by
    rw [(extends_setReach d s reach condition).bindings] at mem
    exact wf.bindings t x mem
  summaries := wf.summaries

theorem lay_grows {d : Design} (wf : d.WellFormed) (holds : GuardId → Bool) (i target : NodeId)
    (guard : Option GuardId) :
    d.Extends { d with circuit := d.circuit.lay holds i target guard } ∧
      WellFormed { d with circuit := d.circuit.lay holds i target guard } := by
  rcases d.circuit.lay_cases holds i target guard with unchanged | ⟨laid, -⟩
  · rw [unchanged]
    exact ⟨.refl d, wf⟩
  · rw [laid]
    have same : d.circuit.nodes.size ≤
        (d.circuit.nodes.modify i ({ · with short := some ⟨target, guard⟩ })).size := by simp
    have ext := Circuit.extends_withNodes d.circuit same d.circuit.filters
    have names : d.circuit.KeepsNames
        ⟨d.circuit.nodes.modify i ({ · with short := some ⟨target, guard⟩ }), d.circuit.branches,
          d.circuit.filters⟩ := by
      refine Circuit.keepsNames_withNodes _ fun j _ => ?_
      by_cases here : j = i ∧ i < d.circuit.nodes.size
      · rw [getD_modify, if_pos here, here.1]
        rfl
      · rw [getD_modify, if_neg here]
        rfl
    exact ⟨extends_circuit ext names, wf.withCircuit ext (wf.circuit.withNodes same _)⟩

end Design

def Design.reachOf (d : Design) (s : ScopeId) : Reach := (d.scopeOf s).reach

theorem Design.reachOf_eq {d d' : Design} (same : d'.scopes = d.scopes) (s : ScopeId) :
    d'.reachOf s = d.reachOf s := by
  rw [reachOf, reachOf, scopeOf, scopeOf, same]

theorem Design.reachOf_setReach_of_ne {d : Design} {s x : ScopeId} (other : x ≠ s) (reach : Reach)
    (condition : String) : (d.setReach s reach condition).reachOf x = d.reachOf x := by
  rw [reachOf, reachOf, setReach, scopeOf_modifyScope, if_neg (fun same => other same.1)]

/-- A design that grew out of `origin`, with counters above `start` by the uses that are held. -/
structure Ledger (origin : Design) (start : BranchId → Usage → Nat) (held : List (BranchId × Usage))
    (d : Design) : Prop where
  grown : origin.Extends d
  wellFormed : d.WellFormed
  holds : d.circuit.Holds start held

namespace Ledger

variable {origin : Design} {start : BranchId → Usage → Nat} {held : List (BranchId × Usage)}
  {d : Design}

theorem perm {held' : List (BranchId × Usage)} (h : Ledger origin start held d)
    (perm : held.Perm held') : Ledger origin start held' d :=
  ⟨h.grown, h.wellFormed, h.holds.perm perm⟩

theorem tally (h : Ledger origin start held d) : Tally d start held d :=
  ⟨h.wellFormed, .refl d, rfl, h.wellFormed, h.holds⟩

theorem ofTally {held' : List (BranchId × Usage)} {d' : Design} (h : Ledger origin start held d)
    (tally : Tally d start held' d') : Ledger origin start held' d' :=
  ⟨h.grown.trans tally.grown, tally.wellFormed, tally.holds⟩

theorem assign (h : Ledger origin start held d) (v : VariableId) (s : Summary) :
    Ledger origin start held (d.assign v s).2 :=
  ⟨h.grown.trans (Design.extends_modifyVariable d v _), h.wellFormed.assign v s, h.holds⟩

theorem setReach (h : Ledger origin start held d) (s : ScopeId) (reach : Reach)
    (condition : String) : Ledger origin start held (d.setReach s reach condition) :=
  ⟨h.grown.trans (Design.extends_setReach d s reach condition),
    h.wellFormed.setReach s reach condition, h.holds⟩

theorem take (h : Ledger origin start held d) {b : BranchId} (inside : b < d.circuit.branches.size)
    (u : Usage) : Ledger origin start ((b, u) :: held) { d with circuit := d.circuit.take b u } :=
  h.ofTally (h.tally.take inside u)

theorem lay (h : Ledger origin start held d) (holds : GuardId → Bool) (i target : NodeId)
    (guard : Option GuardId) :
    Ledger origin start held { d with circuit := d.circuit.lay holds i target guard } := by
  obtain ⟨ext, wf⟩ := Design.lay_grows h.wellFormed holds i target guard
  refine ⟨h.grown.trans ext, wf, ?_⟩
  rcases d.circuit.lay_cases holds i target guard with unchanged | ⟨laid, -⟩
  · rw [unchanged]
    exact h.holds
  · rw [laid]
    exact h.holds.withNodes _ _

theorem renew {old : Option Tree} (h : Ledger origin start (Tree.allUses old.toList ++ held) d)
    (r : Resolver) (s : Source) (scope : ScopeId) :
    (∃ f d', s.resolve r scope d = .error f d' ∧ f.Classed ∧
      Ledger origin start (Tree.allUses old.toList ++ held) d' ∧ d'.scopes = d.scopes) ∨
    ∃ t d₁ c, s.resolve r scope d = .ok t d₁ ∧ dropTree old d₁ = .ok () { d₁ with circuit := c } ∧
      Ledger origin start (t.uses ++ held) { d₁ with circuit := c } ∧ d₁.scopes = d.scopes := by
  have resolved := s.resolve_meets h.tally r scope
  unfold Meets at resolved
  cases run : s.resolve r scope d with
  | error f d' =>
    rw [run] at resolved
    exact .inl ⟨f, d', rfl, resolved.1, h.ofTally resolved.2, resolved.2.scopes⟩
  | ok t d₁ =>
    rw [run] at resolved
    have made := resolved.1
    have ordered : Tally d start (Tree.allUses old.toList ++ (t.uses ++ held)) d₁ := by
      refine made.perm ?_
      simp only [List.perm_iff_count, List.count_append]
      omega
    obtain ⟨c, released, _, after⟩ := ordered.release
    refine .inr ⟨t, d₁, c, rfl, ?_, h.ofTally after, made.scopes⟩
    simp only [dropTree, DesignM.onCircuit, Tree.releaseAll, released]

end Ledger

/-- A contribution is a source of its quantity, and a short if it lays the nodes together. -/
def Contribution.driven (s : Contribution) : List (BranchId × Usage) :=
  match s.quantity with
  | none => []
  | some q =>
    (q.ref.branch, q.probe.access.source) :: if s.short then [(q.ref.branch, .short)] else []

namespace Statement

def ownHeld : Statement → List (BranchId × Usage)
  | .declare s => Tree.allUses s.value.toList
  | .assign s => Tree.allUses s.value.toList
  | .contribute s => Tree.allUses s.value.toList ++ s.driven
  | .conditional c _ _ _ _ => Tree.allUses c.value.toList
  | .block _ _ => []

def held : Statement → List (BranchId × Usage) := gather ownHeld

def heldAll : List Statement → List (BranchId × Usage) := gatherAll ownHeld

end Statement

/-- An update of `d` that leaves the counters above the start by `held`. It
changes how the scopes `entered` are reached, and no others. -/
structure Outcome.Keeps {α β : Type} (u : Outcome α β) (d : Design) (entered : List ScopeId)
    (origin : Design) (start : BranchId → Usage → Nat) (held : List (BranchId × Usage)) : Prop where
  ledger : Ledger origin start held u.design
  failure : ∀ f, u.result = .error f → f.Raised
  reach : ∀ x, x ∉ entered → u.design.reachOf x = d.reachOf x

section Updates

variable {origin : Design} {start : BranchId → Usage → Nat} {rest : List (BranchId × Usage)}
  {d : Design}

theorem Declaration.update_keeps (r : Resolver) (scope : ScopeId) (s : Declaration)
    (h : Ledger origin start (Tree.allUses s.value.toList ++ rest) d) :
      (s.update r scope d).Keeps d [] origin start
      (Tree.allUses (s.update r scope d).value.value.toList ++ rest) := by
  unfold update
  cases s.source with
  | none => exact ⟨h, by simp, fun _ _ => rfl⟩
  | some source =>
    obtain ⟨f, d', run, classed, left, same⟩ | ⟨t, d₁, c, run, dropped, left, same⟩ :=
      h.renew r source scope
    · simp only [run]
      exact ⟨left, by simpa using .inl (classed.inside _), fun x _ => Design.reachOf_eq same x⟩
    · simp only [run, dropped]
      refine ⟨?_, by simp, fun x _ => Design.reachOf_eq same x⟩
      simpa [Tree.allUses, Tree.uses] using left.assign s.symbol.id t.summary

theorem Declaration.symbol_update (r : Resolver) (scope : ScopeId) (s : Declaration) (d : Design) :
    (s.update r scope d).value.symbol = s.symbol := by
  unfold update
  split
  · rfl
  · split
    · rfl
    · split <;> rfl

theorem Assignment.classed_of_target {s : Assignment} {scope : ScopeId} {cause : Cause}
    (h : s.target scope d = .error cause) : cause.fault?.isSome = true := by
  unfold target at h
  split at h
  · cases h
  · split at h <;> cases h <;> rfl

theorem Assignment.update_keeps (r : Resolver) (scope : ScopeId) (s : Assignment)
    (h : Ledger origin start (Tree.allUses s.value.toList ++ rest) d) :
      (s.update r scope d).Keeps d [] origin start
      (Tree.allUses (s.update r scope d).value.value.toList ++ rest) := by
  unfold update
  cases found : s.target scope d with
  | error cause => exact ⟨h, by simpa using .inl ⟨_, rfl, classed_of_target found⟩, fun _ _ => rfl⟩
  | ok v =>
    obtain ⟨f, d', run, classed, left, same⟩ | ⟨t, d₁, c, run, dropped, left, same⟩ :=
      h.renew r s.source scope
    · simp only [run]
      exact ⟨left, by simpa using .inl (classed.inside _), fun x _ => Design.reachOf_eq same x⟩
    · simp only [run, dropped]
      refine ⟨?_, by simp, fun x _ => Design.reachOf_eq same x⟩
      simpa [Tree.allUses] using left.assign v.id t.summary

theorem Assignment.target_lt {s : Assignment} {scope : ScopeId} (wf : d.WellFormed)
    (fits : ∀ v, s.symbol = some v → v.id < d.vars.size) {v : Symbol}
    (found : s.target scope d = .ok v) :
    v.id < d.vars.size := by
  unfold target at found
  split at found
  · rename_i known
    cases found
    exact fits v known
  · split at found
    · rename_i bound
      cases found
      exact wf.lookup? bound
    · cases found
    · cases found

theorem Assignment.symbol_update (r : Resolver) (scope : ScopeId) {s : Assignment}
    (wf : d.WellFormed) (fits : ∀ v, s.symbol = some v → v.id < d.vars.size) :
    ∀ v, (s.update r scope d).value.symbol = some v → v.id < d.vars.size := by
  intro v
  unfold update
  split
  · exact fits v
  · rename_i w found
    dsimp only
    split
    · rintro ⟨⟩
      exact target_lt wf fits found
    · split
      · rintro ⟨⟩
        exact target_lt wf fits found
      · rintro ⟨⟩
        exact target_lt wf fits found

theorem Condition.update_keeps (r : Resolver) (scope thnScope elsScope : ScopeId) (s : Condition)
    (h : Ledger origin start (Tree.allUses s.value.toList ++ rest) d) :
    (s.update r scope thnScope elsScope d).Keeps d [thnScope, elsScope] origin start
      (Tree.allUses (s.update r scope thnScope elsScope d).value.value.toList ++ rest) := by
  unfold update
  obtain ⟨f, d', run, classed, left, same⟩ | ⟨t, d₁, c, run, dropped, left, same⟩ :=
    h.renew r s.source scope
  · simp only [run]
    exact ⟨left, by simpa using .inl (classed.inside _), fun x _ => Design.reachOf_eq same x⟩
  · simp only [run, dropped]
    refine ⟨?_, by simp, fun x outside => ?_⟩
    · simpa [Tree.allUses] using (left.setReach thnScope _ _).setReach elsScope _ _
    · simp only [List.mem_cons, List.not_mem_nil, or_false, not_or] at outside
      rw [Design.reachOf_setReach_of_ne outside.2, Design.reachOf_setReach_of_ne outside.1]
      exact Design.reachOf_eq same x

namespace Contribution

def Located (s : Contribution) : Prop := s.short = true → s.quantity.isSome = true

theorem locate_keeps (r : Resolver) (scope : ScopeId) (s : Contribution) (located : s.Located)
    (h : Ledger origin start (Tree.allUses s.value.toList ++ (s.driven ++ rest)) d) :
    (s.locate r scope d).Keeps d [] origin start
      (Tree.allUses s.value.toList ++ ((s.locate r scope d).value.driven ++ rest)) := by
  unfold locate
  cases known : s.quantity with
  | some q => exact ⟨h, by simp, fun _ _ => rfl⟩
  | none =>
    have target := s.target.resolveTarget_meets h.tally r scope
    have fresh : s.short = false := by
      rw [← Bool.not_eq_true]
      intro short
      have found := located short
      rw [known] at found
      cases found
    unfold Meets at target
    cases run : s.target.resolveTarget r scope d with
    | error f d' =>
      rw [run] at target
      refine ⟨h.ofTally target.2, ?_, fun x _ => Design.reachOf_eq target.2.scopes x⟩
      simpa using .inl (target.1.inside _)
    | ok q d' =>
      rw [run] at target
      obtain ⟨tally, inside⟩ := target
      refine ⟨((h.ofTally tally).take inside q.probe.access.source).perm ?_, by simp,
        fun x _ => Design.reachOf_eq tally.scopes x⟩
      simp only [driven, known, fresh, Bool.false_eq_true, ↓reduceIte, List.nil_append,
        List.cons_append]
      exact List.perm_middle.symm

theorem quantity_locate {r : Resolver} {scope : ScopeId} {s : Contribution} {q : Quantity}
    (h : (s.locate r scope d).result = .ok q) : (s.locate r scope d).value.quantity = some q := by
  unfold locate at h ⊢
  split
  · rename_i known
    simp only [known] at h
    cases h
    exact known
  · rename_i none
    simp only [none] at h
    split at h
    · cases h
    · cases h
      rfl

theorem value_locate (r : Resolver) (scope : ScopeId) (s : Contribution) :
    (s.locate r scope d).value.value = s.value := by
  unfold locate
  split
  · rfl
  · split <;> rfl

theorem accept_keeps (scope : ScopeId) {q : Quantity} {t : Tree} {s : Contribution} {c : Circuit}
    (known : s.quantity = some q) (dropped : dropTree s.value d = .ok () { d with circuit := c })
    (h : Ledger origin start (t.uses ++ (s.driven ++ rest)) { d with circuit := c }) :
    (s.accept scope q t d).Keeps d [] origin start
      (Tree.allUses (s.accept scope q t d).value.value.toList ++
        ((s.accept scope q t d).value.driven ++ rest)) := by
  have source : (q.ref.branch, q.probe.access.source) ∈ s.driven := by simp [driven, known]
  have inside : q.ref.branch < c.branches.size :=
    h.holds.inside _ (List.mem_append_right _ (List.mem_append_left _ source))
  simp only [accept, dropped]
  refine ⟨?_, fun f failed => ?_, fun x _ => by split <;> rfl⟩
  rotate_left
  · dsimp only at failed
    split at failed
    · exact .inr (Except.error.inj failed).symm
    · cases failed
  by_cases shorts : (!s.short && vanishes q t) = true
  · have fresh : s.short = false := by
      simp only [Bool.and_eq_true, Bool.not_eq_true'] at shorts
      exact shorts.1
    simp only [shorts, ↓reduceIte]
    refine ((h.take inside .short).lay _ _ _ _).perm ?_
    simp only [driven, known, fresh, Tree.allUses, Option.toList, Bool.or_true, Bool.false_eq_true,
      ↓reduceIte, List.append_nil, List.perm_iff_count, List.count_append, List.count_cons,
        List.count_nil]
    omega
  · simp only [shorts, Bool.false_eq_true, ↓reduceIte, Bool.or_false]
    simpa [driven, known, Tree.allUses] using h

theorem located_accept (scope : ScopeId) {q : Quantity} (t : Tree) {s : Contribution}
    (known : s.quantity = some q) : (s.accept scope q t d).value.Located := by
  intro _
  unfold accept
  split <;> simp [known]

theorem located_locate (r : Resolver) (scope : ScopeId) {s : Contribution} (located : s.Located) :
    (s.locate r scope d).value.Located := by
  unfold locate
  split
  · exact located
  · split
    · exact located
    · exact fun _ => rfl

theorem update_keeps (r : Resolver) (scope : ScopeId) (s : Contribution) (located : s.Located)
    (h : Ledger origin start (Tree.allUses s.value.toList ++ (s.driven ++ rest)) d) :
    (s.update r scope d).Keeps d [] origin start
      (Tree.allUses (s.update r scope d).value.value.toList ++
      ((s.update r scope d).value.driven ++ rest)) ∧ (s.update r scope d).value.Located := by
  have found := s.locate_keeps r scope located h
  rw [← value_locate (d := d) r scope s] at found
  cases result : (s.locate r scope d).result with
  | error f =>
    simp only [update, result]
    refine ⟨⟨found.ledger, ?_, found.reach⟩, located_locate r scope located⟩
    simpa using found.failure f result
  | ok q =>
    have known := quantity_locate result
    obtain ⟨f, d', run, classed, left, same⟩ | ⟨t, d₁, c, run, dropped, left, same⟩ :=
      found.ledger.renew r s.source scope
    · simp only [update, result, run]
      refine ⟨⟨left, ?_, fun x none => ?_⟩, located_locate r scope located⟩
      · simpa using .inl (classed.inside _)
      · rw [Design.reachOf_eq same, found.reach x none]
    · simp only [update, result, run]
      have accepted := accept_keeps scope known dropped left
      refine ⟨⟨accepted.ledger, accepted.failure, fun x none => ?_⟩, located_accept scope t known⟩
      rw [accepted.reach x none, Design.reachOf_eq same, found.reach x none]

end Contribution

namespace Statement

/-- A statement that names scopes right inside its own, and variables of the design. -/
def Fits (d : Design) (outer : ScopeId) : Statement → Prop
  | .declare s => s.symbol.id < d.vars.size
  | .assign s => ∀ v, s.symbol = some v → v.id < d.vars.size
  | .contribute _ => True
  | .conditional _ thnScope _ elsScope _ =>
    (d.scopeOf thnScope).enclosing = d.chain outer ∧ (d.scopeOf elsScope).enclosing = d.chain outer
  | .block inner _ => (d.scopeOf inner).enclosing = d.chain outer

theorem Fits.enclosing {d : Design} {s : Statement} {outer scope : ScopeId} (fits : s.Fits d outer)
    (mem : scope ∈ s.ownScopes) : (d.scopeOf scope).enclosing = d.chain outer := by
  cases s with
  | declare s | assign s | contribute s => cases mem
  | conditional c thnScope thn elsScope els =>
    rcases List.mem_pair.mp mem with rfl | rfl
    · exact fits.1
    · exact fits.2
  | block inner body =>
    cases List.mem_singleton.mp mem
    exact fits

theorem scope_lt {d : Design} {s outer : ScopeId} (h : (d.scopeOf s).enclosing = d.chain outer) :
    s < d.scopes.size := by
  by_contra outside
  have default := getD_of_size_le d.scopes default (Nat.not_lt.mp outside)
  rw [Design.scopeOf, default] at h
  cases h

def Located : Statement → Prop
  | .contribute s => s.Located
  | _ => True

def Sound (d : Design) (outer : ScopeId) (s : Statement) : Prop := s.Fits d outer ∧ s.Located

theorem perm_rotate {α : Type} (a b c rest : List α) :
    (b ++ (a ++ (c ++ rest))).Perm (c ++ (b ++ (a ++ rest))) :=
  ((List.perm_append_comm_assoc a c rest).append_left b).trans (List.perm_append_comm_assoc b c _)

theorem error_of_map {f : Failure} {x : Except Failure Bool} {g : Bool → Bool}
    (h : x.map g = .error f) : x = .error f := by
  cases x with
  | error e => exact h
  | ok a => cases h

mutual

theorem update_keeps (r : Resolver) (scope : ScopeId) (s : Statement)
    {rest : List (BranchId × Usage)} {d : Design} (sound : s.Every (Sound origin) scope)
    (h : Ledger origin start (s.held ++ rest) d) :
    (s.update r scope d).Keeps d s.guarded origin start ((s.update r scope d).value.held ++ rest) ∧
      (s.update r scope d).value.Every (Sound origin) scope := by
  cases s with
  | declare s =>
    have kept := s.update_keeps r scope h
    rw [update]
    refine ⟨⟨kept.ledger, kept.failure, kept.reach⟩, ?_, trivial⟩
    simp only [Fits, Declaration.symbol_update]
    exact sound.1
  | assign s =>
    have kept := s.update_keeps r scope h
    have fits : ∀ v, s.symbol = some v → v.id < d.vars.size := by
      rw [h.grown.vars]
      exact sound.1
    have after := Assignment.symbol_update r scope h.wellFormed fits
    rw [h.grown.vars] at after
    rw [update]
    exact ⟨⟨kept.ledger, kept.failure, kept.reach⟩, after, trivial⟩
  | contribute s =>
    simp only [held, gather, ownHeld, List.append_assoc] at h
    obtain ⟨kept, located⟩ := s.update_keeps r scope sound.2 h
    rw [update]
    refine ⟨⟨?_, kept.failure, kept.reach⟩, trivial, located⟩
    simpa only [held, gather, ownHeld, List.append_assoc] using kept.ledger
  | conditional c thnScope thn elsScope els =>
    obtain ⟨own, thnSound, elsSound⟩ := sound
    simp only [held, gather, ownHeld, List.append_assoc] at h
    have cond := c.update_keeps r scope thnScope elsScope h
    have outside : ∀ x, x ∉ (conditional c thnScope thn elsScope els).guarded →
        x ∉ [thnScope, elsScope] ∧ x ∉ guardedAll thn ∧ x ∉ guardedAll els := by
      intro x out
      simp only [guarded, gather, ownGuarded, List.mem_append, not_or] at out
      exact ⟨out.1.1, out.1.2, out.2⟩
    cases decided : (c.update r scope thnScope elsScope d).result with
    | error f =>
      simp only [update, decided]
      refine ⟨⟨?_, ?_, fun x out => cond.reach x (outside x out).1⟩, own, thnSound, elsSound⟩
      · simpa only [held, gather, ownHeld, List.append_assoc] using cond.ledger
      · simpa using cond.failure f decided
    | ok a =>
      have first := updateAll_keeps r thnScope thn thnSound
        (cond.ledger.perm (List.perm_append_comm_assoc _ _ _))
      cases entered : (updateAll r thnScope thn
          (c.update r scope thnScope elsScope d).design).result with
      | error f =>
        simp only [update, decided, entered]
        refine ⟨⟨first.1.ledger.perm ?_, ?_, fun x out => ?_⟩, own, first.2, elsSound⟩
        · simp only [held, gather, ownHeld, List.append_assoc]
          exact List.perm_append_comm_assoc _ _ _
        · simpa using first.1.failure f entered
        · exact (first.1.reach x (outside x out).2.1).trans (cond.reach x (outside x out).1)
      | ok b =>
        have second := updateAll_keeps r elsScope els elsSound
          (first.1.ledger.perm (perm_rotate _ _ _ _))
        simp only [update, decided, entered]
        refine ⟨⟨second.1.ledger.perm ?_, ?_, fun x out => ?_⟩, own, first.2, second.2⟩
        · simp only [held, heldAll, gather, ownHeld, List.perm_iff_count, List.count_append]
          omega
        · intro f failed
          exact second.1.failure f (error_of_map failed)
        · rw [second.1.reach x (outside x out).2.2, first.1.reach x (outside x out).2.1,
            cond.reach x (outside x out).1]
  | block inner body =>
    have kept := updateAll_keeps r inner body sound.2 h
    rw [update]
    exact ⟨⟨kept.1.ledger, kept.1.failure, kept.1.reach⟩, sound.1, kept.2⟩

theorem updateAll_keeps (r : Resolver) (scope : ScopeId) (ss : List Statement)
    {rest : List (BranchId × Usage)} {d : Design} (sound : EveryAll (Sound origin) scope ss)
    (h : Ledger origin start (heldAll ss ++ rest) d) :
        (updateAll r scope ss d).Keeps d (guardedAll ss) origin start
        (heldAll (updateAll r scope ss d).value ++ rest) ∧
      EveryAll (Sound origin) scope (updateAll r scope ss d).value := by
  cases ss with
  | nil =>
    rw [updateAll]
    exact ⟨⟨h, by simp, fun _ _ => rfl⟩, trivial⟩
  | cons s ss =>
    simp only [heldAll, gatherAll, List.append_assoc] at h
    have outside : ∀ x, x ∉ guardedAll (s :: ss) → x ∉ s.guarded ∧ x ∉ guardedAll ss := by
      intro x out
      simp only [guardedAll, gatherAll, List.mem_append, not_or] at out
      exact out
    by_cases skipped : (d.reach (s.ownScope scope) == .never) = true
    · have later := updateAll_keeps r scope ss sound.2 (h.perm (List.perm_append_comm_assoc _ _ _))
      simp only [updateAll, skipped, ↓reduceIte]
      refine ⟨⟨later.1.ledger.perm ?_, later.1.failure,
        fun x out => later.1.reach x (outside x out).2⟩, sound.1, later.2⟩
      simp only [heldAll, gatherAll, List.append_assoc]
      exact List.perm_append_comm_assoc _ _ _
    · have first := update_keeps r scope s sound.1 h
      cases done : (s.update r scope d).result with
      | error f =>
        simp only [updateAll, skipped, Bool.false_eq_true, ↓reduceIte, done]
        refine ⟨⟨?_, ?_, fun x out => first.1.reach x (outside x out).1⟩, first.2, sound.2⟩
        · simpa only [held, heldAll, gatherAll, List.append_assoc] using first.1.ledger
        · simpa using first.1.failure f done
      | ok a =>
        have later := updateAll_keeps r scope ss sound.2
          (first.1.ledger.perm (List.perm_append_comm_assoc _ _ _))
        simp only [updateAll, skipped, Bool.false_eq_true, ↓reduceIte, done]
        refine ⟨⟨later.1.ledger.perm ?_, ?_, fun x out => ?_⟩, first.2, later.2⟩
        · simp only [heldAll, gatherAll, List.append_assoc]
          exact List.perm_append_comm_assoc _ _ _
        · intro f failed
          exact later.1.failure f (error_of_map failed)
        · rw [later.1.reach x (outside x out).2, first.1.reach x (outside x out).1]

end

structure Outlined {α : Type} (own : Statement → List α) : Prop where
  declare : ∀ s s', own (.declare s) = own (.declare s')
  assign : ∀ s s', own (.assign s) = own (.assign s')
  contribute : ∀ s s', own (.contribute s) = own (.contribute s')
  conditional : ∀ c c' thnScope thn thn' elsScope els els',
    own (.conditional c thnScope thn elsScope els) =
      own (.conditional c' thnScope thn' elsScope els')
  block : ∀ inner body body', own (.block inner body) = own (.block inner body')

theorem outlined_ownScopes : Outlined ownScopes where
  declare _ _ := rfl
  assign _ _ := rfl
  contribute _ _ := rfl
  conditional _ _ _ _ _ _ _ _ := rfl
  block _ _ _ := rfl

theorem outlined_ownGuarded : Outlined ownGuarded where
  declare _ _ := rfl
  assign _ _ := rfl
  contribute _ _ := rfl
  conditional _ _ _ _ _ _ _ _ := rfl
  block _ _ _ := rfl

section Outlined

variable {α : Type} {own : Statement → List α}

mutual

theorem gather_update (outlined : Outlined own) (r : Resolver) (scope : ScopeId) (s : Statement)
    (d : Design) : gather own (s.update r scope d).value = gather own s := by
  cases s with
  | declare s => exact outlined.declare _ _
  | assign s => exact outlined.assign _ _
  | contribute s => exact outlined.contribute _ _
  | conditional c thnScope thn elsScope els =>
    have same := fun c' thn' els' => outlined.conditional c' c thnScope thn' thn elsScope els' els
    simp only [update]
    split
    · simp only [gather, same]
    · split
      · simp only [gather, same, gatherAll_updateAll outlined]
      · simp only [gather, same, gatherAll_updateAll outlined]
  | block inner body =>
    simp only [update, gather, gatherAll_updateAll outlined]
    rw [outlined.block inner _ body]

theorem gatherAll_updateAll (outlined : Outlined own) (r : Resolver) (scope : ScopeId)
    (ss : List Statement)
    (d : Design) : gatherAll own (updateAll r scope ss d).value = gatherAll own ss := by
  cases ss with
  | nil => rfl
  | cons s ss =>
    simp only [updateAll]
    split
    · simp only [gatherAll, gatherAll_updateAll outlined]
    · split
      · simp only [gatherAll, gather_update outlined]
      · simp only [gatherAll, gather_update outlined, gatherAll_updateAll outlined]

end

end Outlined

theorem scopes_update (r : Resolver) (scope : ScopeId) (s : Statement) (d : Design) :
    (s.update r scope d).value.scopes = s.scopes := gather_update outlined_ownScopes r scope s d

theorem scopesAll_updateAll (r : Resolver) (scope : ScopeId) (ss : List Statement) (d : Design) :
    scopesAll (updateAll r scope ss d).value = scopesAll ss :=
  gatherAll_updateAll outlined_ownScopes r scope ss d

theorem rounds_keeps (r : Resolver) (scope : ScopeId) (bound left i : Nat) (body : List Statement)
    (sound : EveryAll (Sound origin) scope body)
    (h : Ledger origin start (heldAll body ++ rest) d) :
    let u := rounds r scope bound left i body d
    Ledger origin start (heldAll u.value ++ rest) u.design ∧ EveryAll (Sound origin) scope u.value ∧
      (scopesAll u.value = scopesAll body ∧ guardedAll u.value = guardedAll body ∧
        ∀ x, x ∉ guardedAll body → u.design.reachOf x = d.reachOf x) ∧
      ∀ f, u.result = .error f → f.Reported := by
  induction left generalizing i body d with
  | zero =>
    exact ⟨h, sound, ⟨rfl, rfl, fun _ _ => rfl⟩,
      by simp [rounds, Failure.ofCause, Failure.Reported]⟩
  | succ left ih =>
    have round := updateAll_keeps r scope body sound h
    have guarded := gatherAll_updateAll outlined_ownGuarded r scope body d
    have same : scopesAll (updateAll r scope body d).value = scopesAll body ∧
        guardedAll (updateAll r scope body d).value = guardedAll body ∧
        ∀ x, x ∉ guardedAll body → (updateAll r scope body d).design.reachOf x = d.reachOf x :=
      ⟨scopesAll_updateAll r scope body d, guarded, round.1.reach⟩
    cases result : (updateAll r scope body d).result with
    | error f =>
      simp only [rounds, result]
      refine ⟨round.1.ledger, round.2, same, ?_⟩
      rintro _ ⟨⟩
      exact (round.1.failure f result).reported
    | ok changed =>
      cases changed with
      | false =>
        simp only [rounds, result]
        exact ⟨round.1.ledger, round.2, same, by simp⟩
      | true =>
        simp only [rounds, result]
        obtain ⟨ledger, every, ⟨scopes, still, reach⟩, failure⟩ :=
          ih (i + 1) _ round.2 round.1.ledger
        refine ⟨ledger, every, ⟨scopes.trans same.1, still.trans guarded, fun x out => ?_⟩, failure⟩
        rw [reach x (by rw [same.2.1]; exact out), same.2.2 x out]

end Statement

end Updates
end Analog
