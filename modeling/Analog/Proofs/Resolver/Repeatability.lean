import Analog.Proofs.Resolver.NameMeaning
import Analog.Proofs.Resolver.Preservation

/-!
Resolving an expression again, whatever came out the first time. Once an expression was resolved,
the branches and filters that it asks for are there. So from then on it resolves to the same tree
with its variables read anew, as long as names keep their meaning, and nothing but counters changes.
A problem stops a run at some token; by then, what the tokens before it ask for is there, so a later
run stops with the same problem. An operation and its repetition are compared up to counters that
run out, which the books of a whole run rule out.
-/
namespace Analog

namespace Circuit

variable {c c' : Circuit}

theorem nodeName_of_uncounted (same : c'.uncounted = c.uncounted) (i : NodeId) :
    c'.nodeName i = c.nodeName i := by
  rw [nodeName, nodeName, node, node, nodes_eq_of_uncounted same]

theorem refText_of_uncounted (same : c'.uncounted = c.uncounted) (ref : BranchRef) :
    c'.refText ref = c.refText ref := by
  have known := congrArg (fun b : Branch => (b.name, b.p, b.n))
    (branch_eq_of_uncounted same ref.branch)
  simp only [Branch.uncounted, Prod.mk.injEq] at known
  obtain ⟨name, p, n⟩ := known
  have left : c'.refP ref = c.refP ref := by rw [refP, refP, p, n]
  have right : c'.refN ref = c.refN ref := by rw [refN, refN, p, n]
  rw [refText, refText, name, left, right, nodeName_of_uncounted same, nodeName_of_uncounted same]

end Circuit

/-- A design without its counters. -/
def Design.uncounted (d : Design) : Design := { d with circuit := d.circuit.uncounted }

/-- What became of a design while names kept their meaning and nothing was pruned. -/
structure Design.Continues (d e : Design) : Prop where
  grown : d.Extends e
  wellFormed : e.WellFormed
  texts : ∀ ref : BranchRef, ref.branch < d.circuit.branches.size →
    e.circuit.refText ref = d.circuit.refText ref

namespace Design

variable {d d₁ e e₁ : Design}

theorem uncounted_withCircuit {c : Circuit} (same : c.uncounted = d.circuit.uncounted) :
    Design.uncounted { d with circuit := c } = d.uncounted := by
  simp only [Design.uncounted, same]

theorem circuit_of_uncounted (same : e₁.uncounted = e.uncounted) :
    e₁.circuit.uncounted = e.circuit.uncounted :=
  congrArg Design.circuit same

theorem extends_of_uncounted (same : e₁.uncounted = e.uncounted) : e.Extends e₁ := by
  obtain ⟨c, _, _, _, _, _⟩ := e
  obtain ⟨c', _, _, _, _, _⟩ := e₁
  obtain ⟨circuit, rfl, rfl, rfl, rfl, rfl⟩ := Design.mk.inj same
  exact extends_uncounted circuit

theorem WellFormed.of_uncounted (wf : e.WellFormed) (same : e₁.uncounted = e.uncounted) :
    e₁.WellFormed := by
  obtain ⟨c, _, _, _, _, _⟩ := e
  obtain ⟨c', _, _, _, _, _⟩ := e₁
  obtain ⟨circuit, rfl, rfl, rfl, rfl, rfl⟩ := Design.mk.inj same
  exact wf.withCircuit (Circuit.extends_of_uncounted circuit) (wf.circuit.of_uncounted circuit)

theorem snapshot_of_uncounted (same : e₁.uncounted = e.uncounted) : e₁.snapshot = e.snapshot := by
  show e₁.uncounted.snapshot = e.uncounted.snapshot
  rw [same]

theorem upheld_extends : Upheld (fun _ => True) Design.Extends where
  refl := .refl
  trans := .trans
  recount := extends_uncounted
  connect made := extends_circuit (Circuit.connect_extends made) (Circuit.keepsNames_connect made)
  filter _ fresh stem := extends_addFilter fresh stem

namespace Continues

theorem recounted (h : d.Continues e) (same : e₁.uncounted = e.uncounted) : d.Continues e₁ where
  grown := h.grown.trans (extends_of_uncounted same)
  wellFormed := h.wellFormed.of_uncounted same
  texts ref inside := (Circuit.refText_of_uncounted (circuit_of_uncounted same) ref).trans
    (h.texts ref inside)

theorem uncount (h : d₁.Continues e) (same : d₁.uncounted = d.uncounted) : d.Continues e where
  grown := (extends_of_uncounted same).trans h.grown
  wellFormed := h.wellFormed
  texts ref inside := by
    have size := Circuit.size_eq_of_uncounted (circuit_of_uncounted same)
    rw [h.texts ref (by rw [size]; exact inside),
      Circuit.refText_of_uncounted (circuit_of_uncounted same)]

end Continues
end Design

namespace Tree

variable {read : VariableId → Summary} {d e : Design}

theorem length_refreshAll (ts : List Tree) : (refreshAll read ts).length = ts.length := by
  rw [refreshAll_eq_map, List.length_map]

theorem valueFault?_eq_none {t : Tree} {c c' : Circuit} (h : t.valueFault? c = none) :
    (t.refresh read).valueFault? c' = none := by
  rw [valueFault?_refresh]
  cases t <;> first | rfl | cases h

theorem strength_refresh (t : Tree) : (t.refresh read).strength = t.strength := by
  cases t with
  | call function args filter s => cases filter <;> rfl
  | _ => rfl

mutual

theorem source_continues (later : d.Continues e) {reads : VariableId → Summary} (t : Tree)
    (built : t.Built reads d.circuit.nodes.size)
    (inside : ∀ x ∈ t.uses, x.1 < d.circuit.branches.size) :
    (t.refresh read).source e.circuit = t.source d.circuit := by
  cases t with
  | literal | parameter | «variable» | marker | deferred => rfl
  | declaration => exact built.elim
  | access q =>
    have there := inside (q.ref.branch, q.probe.access.probe) (List.mem_singleton_self _)
    simp only [refresh, source, Quantity.text, later.texts q.ref there]
  | node i | port i => exact later.grown.names.nodes i built
  | unary op x s =>
    rw [refresh, Simplify.plainUnary, source, source, source_continues later x built.1 inside]
    simp only [guarded, strength_refresh]
  | binary op l r s =>
    rw [uses, List.forall_mem_append] at inside
    rw [refresh, Simplify.plainBinary, source, source, source_continues later l built.1 inside.1,
      source_continues later r built.2.1 inside.2]
    simp only [guarded, strength_refresh]
  | ternary k t u s =>
    rw [uses, List.forall_mem_append, List.forall_mem_append] at inside
    rw [refresh, source, source, source_continues later k built.1 inside.1.1,
      source_continues later t built.2.1 inside.1.2, source_continues later u built.2.2.1 inside.2]
    simp only [guarded, strength_refresh]
  | call f args filter s =>
    cases filter with
    | none => rw [refresh, source, source, sources_continues later args built.1 inside]
    | some b =>
      have rest : ∀ x ∈ allUses args, x.1 < d.circuit.branches.size := fun x mem =>
        inside x (List.mem_cons_of_mem _ (List.mem_cons_of_mem _ mem))
      rw [refresh, source, source, sources_continues later args built.1 rest]
  | arguments items => rw [refresh, source, source, sources_continues later items built inside]

theorem sources_continues (later : d.Continues e) {reads : VariableId → Summary} (ts : List Tree)
    (built : BuiltAll reads d.circuit.nodes.size ts)
    (inside : ∀ x ∈ allUses ts, x.1 < d.circuit.branches.size) :
    sources e.circuit (refreshAll read ts) = sources d.circuit ts := by
  cases ts with
  | nil => rfl
  | cons t ts =>
    rw [allUses, List.forall_mem_append] at inside
    rw [refreshAll, sources, sources, source_continues later t built.1 inside.1,
      sources_continues later ts built.2 inside.2]

end

theorem valueFault?_extends (later : d.Extends e) {t : Tree} {reads : VariableId → Summary}
    (built : t.Built reads d.circuit.nodes.size) :
    (t.refresh read).valueFault? e.circuit = t.valueFault? d.circuit := by
  rw [valueFault?_refresh]
  cases t with
  | node i | port i => simp only [valueFault?, later.names.nodes i built]
  | _ => rfl

end Tree

namespace Resolve

open DesignM

theorem Ready.uses_inside {d : Design} {ts : List Tree} (h : Ready d ts) :
    ∀ x ∈ Tree.allUses ts, x.1 < d.circuit.branches.size := by
  obtain ⟨start, held, tally, _⟩ := h
  exact fun x mem => tally.holds.inside x (List.mem_append_left _ mem)

def again (read : VariableId → Summary) (stack : Stack Tree) : Stack Tree :=
  ⟨Tree.refreshAll read stack.items⟩

theorem popUntil?_again (read : VariableId → Summary) (stack : Stack Tree) :
    (again read stack).popUntil? Tree.isMarker =
      (stack.popUntil? Tree.isMarker).map fun x => (Tree.refreshAll read x.1, again read x.2) := by
  have blind : (fun t => !Tree.isMarker t) ∘ Tree.refresh read = fun t => !Tree.isMarker t := by
    funext t
    simp only [Function.comp_apply, Tree.isMarker_refresh]
  simp only [Stack.popUntil?, again, Tree.refreshAll_eq_map, List.dropWhile_map,
    List.takeWhile_map, blind]
  cases stack.items.dropWhile (fun t => !Tree.isMarker t) with
  | nil => rfl
  | cons top below => simp

/-- An operation gives in `e` what came out before, and changes counters alone; or a counter runs
out. -/
def Redoes {α : Type} (act : DesignM α) (e : Design) (out : Except Failure α) : Prop :=
  Meets act e (fun a e₁ => out = .ok a ∧ e₁.uncounted = e.uncounted)
    fun f e₁ => (∃ u, f = .underflow u) ∨ out = .error f ∧ e₁.uncounted = e.uncounted

/-- Whatever comes out of `act` in `d`, the same comes out of `act'` from then on, seen through
`view`: a problem as long as nothing is declared, and a result also after that, if it is `meant`. -/
def Repeats {α : Type} (scope : ScopeId) (read : VariableId → Summary) (meant : Circuit → α → Prop)
    (view : α → α) (act act' : DesignM α) (d : Design) : Prop :=
  Meets act d
    (fun a d₁ => ∀ e, d₁.Remains scope e → d₁.Extends e ∨ meant d₁.circuit a → e.WellFormed →
      e.snapshot = read → Redoes act' e (.ok (view a)))
    fun f d₁ => (∃ u, f = .underflow u) ∨ ∀ e, d₁.Continues e → e.snapshot = read →
      Redoes act' e (.error f)

def settled {α : Type} : Circuit → α → Prop := fun _ _ => True

def meantStack (c : Circuit) (stack : Stack Tree) : Prop := ∀ u ∈ stack.items, u.Meant c

section Rules

variable {α β : Type} {scope : ScopeId} {read : VariableId → Summary} {meant : Circuit → α → Prop}
  {meant' : Circuit → β → Prop} {view : α → α} {view' : β → β} {act act' : DesignM α}
    {next next' : α → DesignM β}
  {d e : Design}

theorem Redoes.of_eq {a : α} {e₁ : Design} (run : act e = .ok a e₁)
    (same : e₁.uncounted = e.uncounted) : Redoes act e (.ok a) := by
  unfold Redoes Meets
  rw [run]
  exact ⟨rfl, same⟩

theorem Redoes.of_error {f : Failure} {e₁ : Design} (run : act e = .error f e₁)
    (same : e₁.uncounted = e.uncounted) : Redoes act e (.error f) := by
  unfold Redoes Meets
  rw [run]
  exact .inr ⟨rfl, same⟩

theorem Redoes.stop {f : Failure} (first : Redoes act e (.error f)) :
    Redoes (act >>= next) e (.error f) := by
  unfold Redoes Meets at first ⊢
  cases run : act e with
  | ok a e₁ =>
    rw [run] at first
    cases first.1
  | error g e₁ =>
    rw [run] at first
    simp only [Bind.bind, EStateM.bind, run]
    exact first.imp_right fun h => ⟨congrArg Except.error (Except.error.inj h.1), h.2⟩

theorem Redoes.bind {a : α} {out : Except Failure β} (first : Redoes act e (.ok a))
    (rest : ∀ e₁, e₁.uncounted = e.uncounted → Redoes (next a) e₁ out) :
    Redoes (act >>= next) e out := by
  refine Meets.bind (Meets.mono first (fun _ _ h => h) ?_) ?_
  · rintro f e₁ (short | ⟨same, _⟩)
    · exact .inl short
    · cases same
  · rintro b e₁ ⟨same, bare⟩
    cases same
    exact Meets.mono (rest e₁ bare) (fun c e₂ h => ⟨h.1, h.2.trans bare⟩)
      fun f e₂ h => h.imp_right fun h => ⟨h.1, h.2.trans bare⟩

theorem Repeats.pure (a : α) : Repeats scope read meant view (Pure.pure a) (Pure.pure (view a)) d :=
  fun _ _ _ _ _ => Redoes.of_eq rfl rfl

theorem Repeats.fail (c : Cause) :
    Repeats scope read meant view (DesignM.fail c : DesignM α) (DesignM.fail c) d :=
  .inr fun _ _ _ => Redoes.of_error rfl rfl

theorem Repeats.bindMeant (first : Repeats scope read meant view act act' d)
    (rest : ∀ a d₁, act d = .ok a d₁ → Stays Design.Extends (next a) d₁ ∧
      Repeats scope read meant' view' (next a) (next' (view a)) d₁)
    (back : ∀ a d₁ b d₂, act d = .ok a d₁ → next a d₁ = .ok b d₂ → meant' d₂.circuit b →
      meant d₁.circuit a) :
    Repeats scope read meant' view' (act >>= next) (act' >>= next') d := by
  unfold Repeats Meets at first ⊢
  cases run : act d with
  | error f d₁ =>
    have joined : (act >>= next) d = .error f d₁ := by simp only [Bind.bind, EStateM.bind, run]
    rw [run] at first
    rw [joined]
    exact first.imp_right fun again e later reads => (again e later reads).stop
  | ok a d₁ =>
    have joined : (act >>= next) d = next a d₁ := by simp only [Bind.bind, EStateM.bind, run]
    rw [run] at first
    rw [joined]
    obtain ⟨grows, second⟩ := rest a d₁ run
    unfold Repeats Meets at second
    unfold Stays Meets at grows
    cases run' : next a d₁ with
    | ok b d₂ =>
      rw [run'] at grows second
      intro e later known wf reads
      refine Redoes.bind (first e ((grows.remains scope).trans later)
        (known.imp grows.trans (back a d₁ b d₂ run run')) wf reads) ?_
      intro e₁ bare
      have same := Design.extends_of_uncounted bare
      exact second e₁ (later.trans (same.remains scope))
        (known.imp_left fun grown => grown.trans same)
        (wf.of_uncounted bare) ((Design.snapshot_of_uncounted bare).trans reads)
    | error f d₂ =>
      rw [run'] at grows second
      refine second.imp_right ?_
      intro again e later reads
      have grown := grows.trans later.grown
      refine Redoes.bind (first e (grown.remains scope) (.inl grown) later.wellFormed reads) ?_
      intro e₁ bare
      exact again e₁ (later.recounted bare) ((Design.snapshot_of_uncounted bare).trans reads)

theorem Repeats.bind (first : Repeats scope read settled view act act' d)
    (rest : ∀ a d₁, act d = .ok a d₁ → Stays Design.Extends (next a) d₁ ∧
      Repeats scope read meant' view' (next a) (next' (view a)) d₁) :
    Repeats scope read meant' view' (act >>= next) (act' >>= next') d :=
  first.bindMeant rest fun _ _ _ _ _ _ _ => trivial

theorem stays_pure (b : β) (d : Design) : Stays Design.Extends (Pure.pure b) d :=
    Design.Extends.refl d

theorem release_cases (held : List Tree) (d : Design) :
    (∃ d₁, onCircuit (Tree.releaseAll held) d = .ok () d₁ ∧ d₁.uncounted = d.uncounted) ∨
      ∃ u d₁, onCircuit (Tree.releaseAll held) d = .error (.underflow u) d₁ := by
  unfold onCircuit Tree.releaseAll
  cases run : Circuit.giveAll (Tree.allUses held) d.circuit with
  | ok _ c =>
    exact .inl ⟨_, rfl, Design.uncounted_withCircuit ((Circuit.recounts_giveAll _ _).1 _ _ run)⟩
  | error u c => exact .inr ⟨u, _, rfl⟩

theorem Redoes.orRelease {out : Except Failure α} (held : List Tree) (h : Redoes act e out) :
    Redoes (DesignM.orRelease held act) e out := by
  unfold Redoes Meets at h ⊢
  unfold DesignM.orRelease
  cases run : act e with
  | ok a e₁ =>
    rw [run] at h
    exact h
  | error f e₁ =>
    rw [run] at h
    cases f with
    | underflow u => exact .inl ⟨u, rfl⟩
    | endless => exact h
    | problem p =>
      rcases h with ⟨u, absurd⟩ | ⟨same, bare⟩
      · cases absurd
      · rcases release_cases held e₁ with ⟨e₂, given, bare'⟩ | ⟨u, e₂, short⟩
        · simp only [given]
          exact .inr ⟨same, bare'.trans bare⟩
        · simp only [short]
          exact .inl ⟨u, rfl⟩

theorem Repeats.orRelease (held held' : List Tree) (h : Repeats scope read meant view act act' d) :
    Repeats scope read meant view (DesignM.orRelease held act)
    (DesignM.orRelease held' act') d := by
  unfold Repeats Meets at h ⊢
  unfold DesignM.orRelease
  cases run : act d with
  | ok a d₁ =>
    rw [run] at h
    exact fun e later known wf reads => (h e later known wf reads).orRelease held'
  | error f d₁ =>
    rw [run] at h
    cases f with
    | underflow u => exact .inl ⟨u, rfl⟩
    | endless =>
      exact h.imp_right fun again e later reads => (again e later reads).orRelease held'
    | problem p =>
      rcases h with ⟨u, absurd⟩ | again
      · cases absurd
      · rcases release_cases held d₁ with ⟨d₂, given, bare⟩ | ⟨u, d₂, short⟩
        · simp only [given]
          exact .inr fun e later reads => (again e (later.uncount bare) reads).orRelease held'
        · simp only [short]
          exact .inl ⟨u, rfl⟩

end Rules

section Calls

variable {read reads : VariableId → Summary} {r : Resolver} {scope : ScopeId} {d : Design}

theorem Repeats.intro {α : Type} {meant : Circuit → α → Prop} {view : α → α} {act act' : DesignM α}
    (ok : ∀ a d₁, act d = .ok a d₁ → ∀ e, d₁.Remains scope e → e.WellFormed →
      ∃ e₁, act' e = .ok (view a) e₁ ∧ e₁.uncounted = e.uncounted)
    (error : ∀ f d₁, act d = .error f d₁ → ∀ e, d₁.Continues e →
      ∃ e₁, act' e = .error f e₁ ∧ e₁.uncounted = e.uncounted) : Repeats scope read meant view
      act act' d := by
  unfold Repeats Meets
  cases run : act d with
  | ok a d₁ =>
    intro e later _ wf _
    obtain ⟨e₁, again, bare⟩ := ok a d₁ run e later wf
    exact .of_eq again bare
  | error f d₁ =>
    refine .inr fun e later _ => ?_
    obtain ⟨e₁, again, bare⟩ := error f d₁ run e later
    exact .of_error again bare

theorem requireValue_repeats {t : Tree} (built : t.Built reads d.circuit.nodes.size) :
    Repeats scope read settled id (requireValue t) (requireValue (t.refresh read)) d := by
  apply Repeats.intro
  · intro _ d₁ run e _ _
    obtain ⟨fine, rfl⟩ := (requireValue_ensures d t).of_ok run
    exact ⟨e, requireValue_eq_ok (Tree.valueFault?_eq_none fine), rfl⟩
  · intro f d₁ run e later
    rw [requireValue_eq] at run
    cases fault : t.valueFault? d.circuit with
    | none =>
      rw [fault] at run
      cases run
    | some cause =>
      rw [fault] at run
      cases run
      refine ⟨e, ?_, rfl⟩
      rw [requireValue_eq, Tree.valueFault?_extends later.grown built, fault]

theorem requireValues_repeats {ts : List Tree}
    (built : Tree.BuiltAll reads d.circuit.nodes.size ts) :
    Repeats scope read settled id (requireValues ts) (requireValues (Tree.refreshAll read ts))
    d := by
  induction ts with
  | nil => exact .pure ()
  | cons t ts ih =>
    refine (requireValue_repeats built.1).bind fun _ d₁ run => ?_
    obtain ⟨_, rfl⟩ := (requireValue_ensures d t).of_ok run
    exact ⟨Design.upheld_extends.pervades.requireValues ts d₁, ih built.2⟩

theorem connect_repeats (function : String) {p n : NodeId} (hp : p < d.circuit.nodes.size)
    (hn : n < d.circuit.nodes.size) :
    Repeats scope read settled id (connect function p n) (connect function p n) d := by
  apply Repeats.intro
  · intro ref d₁ run e later _
    obtain ⟨c, made, rfl⟩ := (connect_ensures d function p n).of_ok run
    have more := (Circuit.connect_extends made).nodes
    have found := Circuit.connect_again made (Nat.lt_of_lt_of_le hp more)
      (Nat.lt_of_lt_of_le hn more)
      later.circuit
    refine ⟨e, ?_, rfl⟩
    rw [connect_eq, found]
    rfl
  · intro f d₁ run e later
    rw [connect_eq] at run
    cases made : d.circuit.connect p n with
    | ok x =>
      rw [made] at run
      cases run
    | error err =>
      rw [made] at run
      cases run
      have same : e.circuit.connect p n = .error err := by
        unfold Circuit.connect at made ⊢
        split at made
        · rename_i loop
          rw [if_pos loop, later.grown.names.nodes p hp]
          exact made
        · split at made
          · cases made
          · split at made <;> cases made
      refine ⟨e, ?_, rfl⟩
      rw [connect_eq, same]

theorem nodeId?_refresh (t : Tree) : (t.refresh read).nodeId? = t.nodeId? := by
  cases t with
  | call function args filter s => cases filter <;> rfl
  | _ => rfl

theorem branch_pair (function : String) (t u : Tree) : branch function [t, u] =
    match Tree.firstDeferred? [t, u], t.nodeId?, u.nodeId? with
    | some name, _, _ => DesignM.fail (.undeclaredNode name)
    | none, some p, some n => connect function p n
    | none, _, _ => DesignM.fail (.notBranch function) := by
  cases t <;> rfl

theorem firstDeferred?_refresh (read : VariableId → Summary) (ts : List Tree) :
    Tree.firstDeferred? (Tree.refreshAll read ts) = Tree.firstDeferred? ts := by
  induction ts with
  | nil => rfl
  | cons t ts ih =>
    cases t with
    | deferred name => rfl
    | call function args filter s => cases filter <;> exact ih
    | _ => exact ih

theorem branch_repeats (function : String) {args : List Tree} (ready : Ready d args) :
    Repeats scope read settled id (branch function args)
    (branch function (Tree.refreshAll read args)) d := by
  have built := ready.built
  match args with
  | [] => exact .fail _
  | [t] =>
    by_cases deferred : ∃ name, t = .deferred name
    · obtain ⟨name, rfl⟩ := deferred
      apply Repeats.intro
      · intro ref d₁ run e later _
        rw [branch_named] at run
        cases found : d.circuit.lookup? name with
        | none =>
          rw [found] at run
          cases run
        | some b =>
          rw [found] at run
          cases run
          refine ⟨e, ?_, rfl⟩
          rw [Tree.refreshAll, Tree.refresh, Tree.refreshAll, branch_named,
            later.aliases name b found]
          rfl
      · intro f d₁ run e later
        rw [branch_named] at run
        cases found : d.circuit.lookup? name with
        | some b =>
          rw [found] at run
          cases run
        | none =>
          rw [found] at run
          cases run
          refine ⟨e, ?_, rfl⟩
          rw [Tree.refreshAll, Tree.refresh, Tree.refreshAll, branch_named,
            Circuit.lookup?_extends later.grown.circuit, found]
    · have plain : ∀ name, t ≠ .deferred name := fun name same => deferred ⟨name, same⟩
      have plainAgain : ∀ name, t.refresh read ≠ .deferred name := by
        intro name same
        cases t with
        | deferred other => exact plain other rfl
        | call function args filter s => cases filter <;> cases same
        | _ => cases same
      rw [Tree.refreshAll, Tree.refreshAll, branch_single function plain,
        branch_single function plainAgain, nodeId?_refresh]
      cases node : t.nodeId? with
      | none => exact .fail _
      | some p =>
        exact connect_repeats function (lt_of_nodeId? node built.1) ready.wellFormed.circuit.ground
  | [t, u] =>
    have deferred := firstDeferred?_refresh read [t, u]
    rw [Tree.refreshAll, Tree.refreshAll, Tree.refreshAll] at deferred ⊢
    rw [branch_pair, branch_pair, deferred, nodeId?_refresh, nodeId?_refresh]
    cases Tree.firstDeferred? [t, u] with
    | some name => exact .fail _
    | none =>
      cases left : t.nodeId? with
      | none => exact .fail _
      | some p =>
        cases right : u.nodeId? with
        | none => exact .fail _
        | some n =>
          exact connect_repeats function (lt_of_nodeId? left built.1)
            (lt_of_nodeId? right built.2.1)
  | t :: u :: v :: ts =>
    apply Repeats.intro
    · intro ref d₁ run
      rw [branch_many] at run
      cases run
    · intro f d₁ run e later
      rw [branch_many] at run
      cases run
      refine ⟨e, ?_, rfl⟩
      simp only [Tree.refreshAll, branch_many, List.length_cons, Tree.length_refreshAll]

theorem access_repeats (function : String) (a : Access) {args : List Tree} (ready : Ready d args) :
    Repeats scope read settled (Tree.refresh read) (access function a args)
      (access function a (Tree.refreshAll read args)) d := by
  refine (branch_repeats function ready).bind fun ref d' named => ?_
  have inside := lt_of_names ((branch_ensures d function args).of_ok named)
  have taken := Design.extends_uncounted (Circuit.uncounted_take d'.circuit ref.branch a.probe)
  refine ⟨taken, ?_⟩
  apply Repeats.intro
  · intro t d₁ run e later _
    cases run
    have same : e.circuit.probe ref.branch a = d'.circuit.probe ref.branch a := by
      rw [Circuit.probe, Circuit.probe,
        Circuit.base_remains ((taken.remains scope).trans later).circuit inside]
    refine ⟨_, ?_, Design.uncounted_withCircuit
      (Circuit.uncounted_take e.circuit ref.branch a.probe)⟩
    rw [Tree.refresh, ← same]
    rfl
  · intro f d₁ run
    cases run

theorem asked_refresh (read : VariableId → Summary) (args : List Tree) :
    asked (Tree.refreshAll read args) = asked args := by
  cases args with
  | nil => rfl
  | cons t ts =>
    cases t with
    | call function args filter s => cases filter <;> rfl
    | _ => rfl

theorem lt_of_asked {args : List Tree} {p : Symbol} (found : asked args = some p)
    (inside : ∀ u ∈ args, u.All (Tree.Inside d)) : p.id < d.parameters.size := by
  cases args with
  | nil => cases found
  | cons x xs =>
    have here := (inside x (.head _)).self
    cases x with
    | parameter q =>
      cases found
      exact here
    | literal v o => exact here p found
    | _ => cases found

theorem parameterGiven_repeats {f : Function} {args : List Tree} (known : Known f)
    (given : f.role = .given) (ready : Ready d args) (inside : ∀ u ∈ args, u.All (Tree.Inside d)) :
    Repeats scope read settled (Tree.refresh read) (parameterGiven r f.name args)
      (parameterGiven r f.name (Tree.refreshAll read args)) d := by
  apply Repeats.intro
  · intro t d₁ run e later _
    obtain ⟨p, found⟩ := asked_of_parameterGiven run
    rw [parameterGiven_of_asked r d f.name found] at run
    cases run
    refine ⟨e, ?_, rfl⟩
    rw [parameterGiven_of_asked r e f.name ((asked_refresh read args).trans found)]
    have parameters := later.given p.id (lt_of_asked found inside)
    simp only [answer, parameters]
    congr 1
    split
    · rfl
    · rw [Tree.refresh, show Function.find? f.name = some f from known]
      dsimp only
      rw [Function.summary, given]
  · intro g d₁ run e later
    rw [parameterGiven_eq] at run
    cases asks : asked args with
    | some p =>
      rw [asks] at run
      cases run
    | none =>
      rw [asks] at run
      cases run
      refine ⟨e, ?_, rfl⟩
      rw [parameterGiven_eq, asked_refresh, asks]
      simp only [Tree.sources_continues later args ready.built ready.uses_inside]

theorem isLiteral_refresh (read : VariableId → Summary) (t : Tree) :
    isLiteral (t.refresh read) = isLiteral t := by
  cases t with
  | call function args filter s => cases filter <;> rfl
  | _ => rfl

theorem filter_repeats (site : CallSite) (function : String) (args : List Tree) :
    Repeats scope read settled (Tree.refresh read) (filter r site function args)
      (filter r site function (Tree.refreshAll read args)) d := by
  have first : (Tree.refreshAll read args).head?.map isLiteral = args.head?.map isLiteral := by
    cases args with
    | nil => rfl
    | cons x xs => simp only [Tree.refreshAll, List.head?_cons, Option.map_some, isLiteral_refresh]
  unfold filter
  rw [first]
  split
  · exact .pure (Tree.ofValue (.int 0))
  · apply Repeats.intro
    · intro t d₁ run e later wf
      obtain ⟨b, d', found, rest⟩ := bind_eq_ok.mp run
      cases rest
      have taken : d'.Extends { d' with circuit := d'.circuit.takeFilter b } :=
        Design.extends_uncounted (Circuit.uncounted_takeFilter d'.circuit b)
      have kept := ((taken.remains scope).trans later).filters site b
        ((filterBranch_ensures d site function).of_ok found)
      refine ⟨_, bind_eq_ok.mpr ⟨b, e, by rw [filterBranch_eq, kept], ?_⟩,
        Design.uncounted_withCircuit (Circuit.uncounted_takeFilter e.circuit b)⟩
      rw [Tree.refresh, Summary.ofFilter, ← probe_filter wf (mem_of_lookup kept) .potential]
      rfl
    · intro f d₁ run
      simp only [bind, EStateM.bind, filterBranch_eq] at run
      cases known : d.filters.lookup site <;> rw [known] at run <;> cases run

theorem mathematical_repeats {f : Function} (known : Known f) (args : List Tree) :
    Repeats scope read settled (Tree.refresh read) (mathematical r f args)
      (mathematical r f (Tree.refreshAll read args)) d := by
  rw [mathematical_eq, mathematical_eq, Function.fold?_refresh]
  split
  · exact .pure (Tree.ofValue _)
  · have same : Tree.refresh read (.call f.name args none (f.summary (Tree.summaries args))) =
        .call f.name (Tree.refreshAll read args) none
          (f.summary (Tree.summaries (Tree.refreshAll read args))) := by
      rw [Tree.refresh, show Function.find? f.name = some f from known]
    rw [← same]
    exact .pure _

theorem function_repeats {site : CallSite} {f : Function} {args : List Tree} (known : Known f)
    (ready : Ready d args) (inside : ∀ u ∈ args, u.All (Tree.Inside d)) :
    Repeats scope read settled (Tree.refresh read) (function r site f args)
      (function r site f (Tree.refreshAll read args)) d := by
  cases misfits : (args.length < f.least || f.most < args.length : Bool) with
  | true =>
    simp only [function, Tree.length_refreshAll, misfits, ↓reduceIte]
    exact .fail _
  | false =>
    simp only [function, Tree.length_refreshAll, misfits, Bool.false_eq_true, ↓reduceIte]
    cases role : f.role with
    | given => exact parameterGiven_repeats known role ready inside
    | filter =>
      refine (requireValues_repeats ready.built).bind fun _ d₁ run => ?_
      exact ⟨Design.upheld_extends.pervades.filter r f.name args trivial d₁,
        filter_repeats site f.name args⟩
    | environment | unary _ | binary _ =>
      refine (requireValues_repeats ready.built).bind fun _ d₁ run => ?_
      refine ⟨?_, mathematical_repeats known args⟩
      rw [mathematical_eq]
      exact stays_pure _ d₁

theorem call_repeats {site : CallSite} {name : String} {args : List Tree} (ready : Ready d args)
    (inside : ∀ u ∈ args, u.All (Tree.Inside d)) :
    Repeats scope read settled (Tree.refresh read) (call r scope site name args)
      (call r scope site name (Tree.refreshAll read args)) d := by
  unfold call
  cases r.config.access? name with
  | some a => exact access_repeats name a ready
  | none =>
    cases found : Function.find? name with
    | some f => exact function_repeats (known_of_find? found) ready inside
    | none =>
      apply Repeats.intro
      · intro t d₁ run
        obtain ⟨d', _, _, rest⟩ := bind_eq_ok.mp run
        cases bound : d'.lookup? scope name <;> simp only [bound] at rest <;> cases rest
      · intro f d₁ run e later
        simp only [bind, EStateM.bind, get, getThe, MonadStateOf.get, EStateM.get] at run ⊢
        cases bound : d.lookup? scope name with
        | none | some _ =>
          simp only [bound] at run
          cases run
          simp only [later.grown.lookup? scope name, bound]
          exact ⟨e, rfl, rfl⟩

theorem unary_repeats {op : UnaryOp} {x : Tree} (built : x.Built reads d.circuit.nodes.size) :
    Repeats scope read settled (Tree.refresh read) (unary r op x)
    (unary r op (x.refresh read)) d := by
  refine (requireValue_repeats built).bind fun _ d₁ run => ⟨stays_pure _ d₁, ?_⟩
  cases r.config.simplify with
  | false => exact .pure _
  | true =>
    simp only [↓reduceIte, ← Simplify.refresh_unary]
    exact .pure _

theorem releaseAll_repeats (held held' : List Tree) :
    Repeats scope read settled id (onCircuit (Tree.releaseAll held))
    (onCircuit (Tree.releaseAll held')) d := by
  unfold Repeats Meets
  rcases release_cases held d with ⟨d₁, given, _⟩ | ⟨u, d₁, short⟩
  · rw [given]
    intro e _ _ _ _
    unfold Redoes Meets
    rcases release_cases held' e with ⟨e₁, given', bare⟩ | ⟨u, e₁, short'⟩
    · rw [given']
      exact ⟨rfl, bare⟩
    · rw [short']
      exact .inl ⟨u, rfl⟩
  · rw [short]
    exact .inl ⟨u, rfl⟩

theorem binary_repeats {op : BinaryOp} {x y : Tree} (left : x.Built reads d.circuit.nodes.size)
    (right : y.Built reads d.circuit.nodes.size) :
    Repeats scope read settled (Tree.refresh read) (binary r op x y)
    (binary r op (x.refresh read) (y.refresh read)) d := by
  have simple (d : Design) : Stays Design.Extends
      (if r.config.simplify then (do
        let s := Simplify.binary op x y
        onCircuit (Tree.releaseAll s.dropped.toList)
        return s.tree) else return Simplify.plainBinary op x y : DesignM Tree) d := by
    split
    · exact Design.upheld_extends.bind (Design.upheld_extends.giveAll _ d) fun _ d' =>
        stays_pure _ d'
    · exact stays_pure _ d
  refine (requireValue_repeats left).bind fun _ d₁ run => ?_
  obtain ⟨_, rfl⟩ := (requireValue_ensures d x).of_ok run
  refine ⟨Design.upheld_extends.bind (Design.upheld_extends.pervades.value y d₁) fun _
    => simple, ?_⟩
  refine (requireValue_repeats right).bind fun _ d₂ run => ?_
  obtain ⟨_, rfl⟩ := (requireValue_ensures d₁ y).of_ok run
  refine ⟨simple d₂, ?_⟩
  cases r.config.simplify with
  | false => exact .pure _
  | true =>
    simp only [↓reduceIte]
    refine (releaseAll_repeats _ _).bind fun _ d₃ _ => ⟨stays_pure _ d₃, ?_⟩
    rw [← Simplify.refresh_binary]
    exact .pure _

end Calls

section Walk

variable {read : VariableId → Summary} {r : Resolver} {scope : ScopeId} {key : Nat} {d : Design}

theorem identifier_refresh {e : Design} (later : d.Extends e) (scope : ScopeId) (name : String) :
    identifier e scope name = (identifier d scope name).refresh e.snapshot := by
  have parameters (p : ParameterId) : e.parameterOf p = d.parameterOf p := by
    rw [Design.parameterOf, Design.parameterOf, later.parameters]
  simp only [identifier, later.lookup? scope name]
  split
  · rename_i p _
    rw [parameters p]
    cases (d.parameterOf p).value <;> rfl
  · rfl
  · rfl
  · rfl
  · cases found : Function.find? name with
    | none => rfl
    | some f =>
      dsimp only
      split
      · simp only [Tree.refresh, Tree.refreshAll, Tree.summaries, found]
      · rfl

theorem chosen?_refresh (read : VariableId → Summary) (r : Resolver) (c : Tree) :
    chosen? r (c.refresh read) = chosen? r c := by
  cases c with
  | call function args filter s => cases filter <;> rfl
  | _ => rfl

theorem meant_of_single {raw : Raw} {stack : Stack Tree} {t : Tree} {c : Circuit} {d d₁ : Design}
    (run : single raw stack d = .ok t d₁) : ∀ u ∈ stack.items, u.Meant c := by
  obtain ⟨items, fine, _⟩ := single_eq_ok.mp run
  rw [items]
  exact List.forall_mem_singleton.mpr (Tree.isValue_of_fault fine).meant

theorem single_repeats (raw : Raw) {stack : Stack Tree} {reads : VariableId → Summary}
    (built : Tree.BuiltAll reads d.circuit.nodes.size stack.items) :
    Repeats scope read settled (Tree.refresh read) (single raw stack)
    (single raw (again read stack)) d := by
  obtain ⟨items⟩ := stack
  match items with
  | [] => exact (Repeats.fail (.valueCount raw.linear 0)).orRelease [] []
  | [t] =>
    refine ((requireValue_repeats built.1).orRelease [t] [t.refresh read]).bind fun _ d₁ _ => ?_
    exact ⟨stays_pure t d₁, .pure t⟩
  | t :: u :: below =>
    have length : (t.refresh read :: Tree.refreshAll read (u :: below)).length =
      (t :: u :: below).length :=
      Tree.length_refreshAll (t :: u :: below)
    show Repeats scope read _ _ (DesignM.orRelease _ (DesignM.fail _))
      (DesignM.orRelease _ (DesignM.fail _)) d
    rw [length]
    exact (Repeats.fail _).orRelease _ _

theorem replace_repeats {act act' : DesignM Tree} (held held' below : List Tree)
    (h : Repeats scope read settled (Tree.refresh read) act act' d) :
    Repeats scope read meantStack (again read)
      (DesignM.orRelease held act >>= fun t => Pure.pure ⟨t :: below⟩)
      (DesignM.orRelease held' act' >>= fun t => Pure.pure ⟨t :: Tree.refreshAll read below⟩) d :=
  (h.orRelease held held').bind fun t d₁ _ => ⟨stays_pure _ d₁, .pure (⟨t :: below⟩ : Stack Tree)⟩

theorem plain_again {read : VariableId → Summary} {items : List Tree}
    (plain : ∀ args below, items ≠ .arguments args :: below) :
    ∀ args below, Tree.refreshAll read items ≠ .arguments args :: below := by
  intro args below same
  cases items with
  | nil => cases same
  | cons t ts =>
    cases t with
    | arguments inner => exact plain inner ts rfl
    | call function args' filter s => cases filter <;> cases same
    | _ => cases same

/-- An arm of a choice that keeps the books, and does the same when it is worked off again. -/
structure Rework (scope : ScopeId) (read : VariableId → Summary) (act : DesignM (Stack Tree)) :
    Prop where
  ready : ∀ {stack d d₁}, Ready d [] → act d = .ok stack d₁ → Ready d₁ stack.items
  stays : ∀ d, Stays Design.Extends act d
  repeats : ∀ {d}, Ready d [] → Repeats scope read meantStack (again read) act act d

namespace Rework

variable {act : DesignM (Stack Tree)} (h : Rework scope read act)

include h

theorem arm_stays (raw : Raw) (d : Design) : Stays Design.Extends (act >>= single raw) d :=
  Design.upheld_extends.bind (h.stays d) (Design.upheld_extends.pervades.single raw)

theorem arm_repeats (ready : Ready d []) (raw : Raw) :
    Repeats scope read settled (Tree.refresh read) (act >>= single raw) (act >>= single raw) d :=
  (h.repeats ready).bindMeant (fun stack d₁ run =>
    ⟨Design.upheld_extends.pervades.single raw stack d₁,
      single_repeats raw (h.ready ready run).built⟩)
    fun _ _ _ _ _ one _ => meant_of_single one

end Rework

theorem rework_of_run {site : List Nat} {ts : List Token}
    (repeats : ∀ {d}, Ready d [] → Repeats scope read meantStack (again read)
      (steps r scope key site 0 .empty ts) (steps r scope key site 0 .empty ts) d) :
    Rework scope read (steps r scope key site 0 .empty ts) where
  ready books run := (books.steps run).2.2
  stays := Design.upheld_extends.pervades.steps r scope key site 0 .empty ts fun _ _ _ _ => trivial
  repeats := repeats

theorem choice_repeats {c : Tree} {thn els : Raw} {first second : DesignM (Stack Tree)}
    (one : Rework scope read first) (two : Rework scope read second) (ready : Ready d [])
    (built : c.Built d.snapshot d.circuit.nodes.size) :
    Repeats scope read settled (Tree.refresh read) (choice r c thn els first second)
      (choice r (c.refresh read) thn els first second) d := by
  unfold choice
  rw [chosen?_refresh]
  refine (requireValue_repeats built).bind fun _ d₁ run => ?_
  obtain ⟨_, rfl⟩ := (requireValue_ensures d c).of_ok run
  cases chosen? r c with
  | some taken =>
    cases taken with
    | true => exact ⟨one.arm_stays thn d₁, one.arm_repeats ready thn⟩
    | false => exact ⟨two.arm_stays els d₁, two.arm_repeats ready els⟩
  | none =>
    have grows := Design.upheld_extends.pervades
    have other (t : Tree) := grows.bind (grows.orRelease [t] (two.arm_stays els)) fun u =>
      grows.pure (Tree.ternary c t u (.select c.summary t.summary u.summary))
    have both (stack : Stack Tree) := grows.bind (grows.single thn stack) other
    refine ⟨grows.bind one.stays both d₁,
      (one.repeats ready).bindMeant (fun stack d₂ run₂ => ?_) ?_⟩
    rotate_left
    · intro _ _ _ _ _ rest _
      obtain ⟨_, _, alone, _⟩ := bind_eq_ok.mp rest
      exact meant_of_single alone
    have ready₂ := one.ready ready run₂
    refine ⟨both stack d₂, (single_repeats thn ready₂.built).bind fun t d₃ run₃ => ?_⟩
    obtain ⟨_, _, rfl⟩ := single_eq_ok.mp run₃
    refine ⟨other t d₃, ?_⟩
    refine ((two.arm_repeats ready₂.aside els).orRelease [t] [t.refresh read]).bind fun u d₄ _ => ?_
    exact ⟨stays_pure _ d₄, .pure _⟩

mutual

theorem step_repeats (site : List Nat) (items : List Tree) (t : Token) {d : Design}
    (ready : Ready d items) (inside : ∀ u ∈ items, u.All (Tree.Inside d)) :
    Repeats scope read meantStack (again read) (step r scope key site ⟨items⟩ t)
      (step r scope key site ⟨Tree.refreshAll read items⟩ t) d := by
  have built := ready.built
  cases t with
  | literal v =>
    rw [step, step]
    exact .pure (⟨.ofValue v :: items⟩ : Stack Tree)
  | marker =>
    rw [step, step]
    exact .pure (⟨.marker :: items⟩ : Stack Tree)
  | arguments =>
    have poppedAgain := popUntil?_again read ⟨items⟩
    rw [again] at poppedAgain
    rw [step, step, poppedAgain]
    cases Stack.popUntil? ⟨items⟩ Tree.isMarker with
    | none => exact (Repeats.fail _).orRelease _ _
    | some popped => exact .pure (popped.2.push (.arguments popped.1))
  | identifier name =>
    by_cases called : ∃ args below, items = .arguments args :: below
    · obtain ⟨args, below, rfl⟩ := called
      obtain ⟨all, _⟩ := List.forall_mem_cons.mp inside
      rw [Tree.refreshAll, Tree.refresh, step, step]
      exact replace_repeats _ _ below (call_repeats ready.arguments (Tree.all_arguments.mp all).1)
    · have plain : ∀ args below, items ≠ .arguments args :: below := fun args below same =>
        called ⟨args, below, same⟩
      rw [step_identifier plain, step_identifier (plain_again plain)]
      intro e later known _ reads
      have same : identifier e scope name = (identifier d scope name).refresh read := by
        rw [← reads]
        rcases known with grown | meant
        · exact identifier_refresh grown scope name
        · exact (identifier_again ready.wellFormed later (meant _ (.head _))).symm
      refine Redoes.of_eq (show _ = EStateM.Result.ok _ e from ?_) rfl
      show EStateM.Result.ok _ _ = EStateM.Result.ok _ _
      rw [same]
      rfl
  | unary op =>
    match items with
    | [] =>
      rw [Tree.refreshAll, step]
      exact .fail _
    | x :: below =>
      rw [Tree.refreshAll, step, step]
      exact replace_repeats _ _ below (unary_repeats built.1)
  | binary op =>
    match items with
    | [] =>
      rw [Tree.refreshAll, step]
      exact (Repeats.fail _).orRelease _ _
    | [y] =>
      rw [Tree.refreshAll, Tree.refreshAll, step, step]
      exact (Repeats.fail _).orRelease _ _
    | y :: x :: below =>
      rw [Tree.refreshAll, Tree.refreshAll, step, step]
      exact replace_repeats _ _ below (binary_repeats built.2.1 built.1)
  | ternary thn els =>
    match items with
    | [] =>
      rw [Tree.refreshAll, step]
      exact .fail _
    | c :: below =>
      have one := rework_of_run fun ready => steps_repeats (0 :: site) 0 [] thn ready
        (List.forall_mem_nil _)
      have two := rework_of_run fun ready => steps_repeats (1 :: site) 0 [] els ready
        (List.forall_mem_nil _)
      rw [Tree.refreshAll, step, step]
      exact replace_repeats _ _ below (choice_repeats one two ready.aside built.1)

theorem steps_repeats (site : List Nat) (k : Nat) (items : List Tree) (ts : List Token) {d : Design}
    (ready : Ready d items) (inside : ∀ u ∈ items, u.All (Tree.Inside d)) :
    Repeats scope read meantStack (again read) (steps r scope key site k ⟨items⟩ ts)
      (steps r scope key site k ⟨Tree.refreshAll read items⟩ ts) d := by
  cases ts with
  | nil =>
    rw [steps, steps]
    exact .pure (⟨items⟩ : Stack Tree)
  | cons t ts =>
    rw [steps, steps]
    refine (step_repeats (k :: site) items t ready inside).bindMeant (fun stack d₁ run => ?_) ?_
    rotate_left
    · intro stack d₁ stack₂ d₂ run rest meant u mem
      obtain ⟨_, _, ready₁⟩ := ready.step run
      exact (Tree.meant_congr (Circuit.lookup?_extends (ready₁.steps rest).1.circuit) u).mp
        (meant_of_steps ready₁ rest (.refl _) meant u mem)
    obtain ⟨grown, reads, ready₁⟩ := ready.step run
    have inside₁ : ∀ u ∈ stack.items, u.All (Tree.Inside d₁) :=
      (partwise_inside ready₁.wellFormed).step (k :: site) ⟨items⟩ t trivial ready run
        (.refl d₁) reads
        fun u mem => inside_mono grown (inside u mem)
    exact ⟨Design.upheld_extends.pervades.steps r scope key site (k + 1) stack ts
      (fun _ _ _ _ => trivial) d₁, steps_repeats site (k + 1) stack.items ts ready₁ inside₁⟩

end

end Walk

end Resolve

namespace Source

variable {r : Resolver} {s : Source} {scope : ScopeId} {d d₁ e : Design}

theorem resolve_repeats (read : VariableId → Summary) (wf : d.WellFormed) :
    Resolve.Repeats scope read Resolve.settled (Tree.refresh read) (s.resolve r scope)
    (s.resolve r scope) d :=
  (Resolve.rework_of_run fun ready => Resolve.steps_repeats [] 0 [] s.raw ready
    (List.forall_mem_nil _)).arm_repeats
    (.initial wf) s.raw

theorem not_underflow (wf : d.WellFormed) {f : Failure} {d₁ : Design}
    (run : s.resolve r scope d = .error f d₁) : ¬ ∃ u, f = .underflow u := by
  have meets := Source.resolve_meets (Tally.initial wf) r s scope
  unfold Meets at meets
  rw [run] at meets
  obtain ⟨⟨p, rfl, _⟩, _⟩ := meets
  rintro ⟨u, absurd⟩
  cases absurd

def after (r : Resolver) (s : Source) (scope : ScopeId) (d : Design) : Design :=
  match s.resolve r scope d with
  | .ok _ d₁ => d₁
  | .error _ d₁ => d₁

theorem redone (wf : e.WellFormed) {out : Except Failure Tree}
    (again : Resolve.Redoes (s.resolve r scope) e out) :
    (s.after r scope e).uncounted = e.uncounted ∧
      (∀ t, out = .ok t → s.resolve r scope e = .ok t (s.after r scope e)) ∧
      ∀ f, out = .error f → s.resolve r scope e = .error f (s.after r scope e) := by
  unfold Resolve.Redoes Meets at again
  unfold after
  cases run : s.resolve r scope e with
  | ok t e₁ =>
    rw [run] at again
    obtain ⟨rfl, same⟩ := again
    refine ⟨same, ?_, ?_⟩
    · rintro _ ⟨⟩
      rfl
    · rintro _ ⟨⟩
  | error f e₁ =>
    rw [run] at again
    rcases again with dry | ⟨rfl, same⟩
    · exact absurd dry (not_underflow wf run)
    · refine ⟨same, ?_, ?_⟩
      · rintro _ ⟨⟩
      · rintro _ ⟨⟩
        rfl

/-- What resolved to a tree resolves to that tree as long as the meaning of names remains, with its
variables read anew, and counts its uses. -/
theorem resolve_remains {t : Tree} (wf : d.WellFormed) (run : s.resolve r scope d = .ok t d₁)
    (later : d₁.Remains scope e) (wfLater : e.WellFormed) :
    ∃ e₁, s.resolve r scope e = .ok (t.refresh e.snapshot) e₁ ∧ e₁.uncounted = e.uncounted := by
  have repeats := @resolve_repeats r s scope d e.snapshot wf
  unfold Resolve.Repeats Meets at repeats
  rw [run] at repeats
  obtain ⟨same, ok, _⟩ := redone wfLater (repeats e later (.inr trivial) wfLater rfl)
  exact ⟨_, ok _ rfl, same⟩

theorem resolve_again {t : Tree} (wf : d.WellFormed) (run : s.resolve r scope d = .ok t d₁)
    (later : d₁.Extends e)
    (wfLater : e.WellFormed) : ∃ e₁, s.resolve r scope e = .ok (t.refresh e.snapshot) e₁ ∧
    e₁.uncounted = e.uncounted :=
  resolve_remains wf run (later.remains scope) wfLater

end Source
end Analog
