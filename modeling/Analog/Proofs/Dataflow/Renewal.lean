import Analog.Proofs.Dataflow.Sweep
import Analog.Proofs.Resolver.Repeatability
import Analog.Proofs.Statement.HeldUses

/-!
A round of updates as a round of works. A statement that was updated goes on to find the same tree,
with its variables read anew; this tree is its work. What a further update does to the summaries is
what the works do.
-/
namespace Analog

variable {d : Design} {r : Resolver} {scope : ScopeId} {s : Source} {t : Tree}

def Design.env (d : Design) (v : VariableId) : Summary := (d.variableOf v).summary

/-- A failure that an update of a design may end with. A round that does not settle is none of them,
and one that does not end has come upon a cycle of shorts. -/
def Failure.Admissible (f : Failure) (d : Design) : Prop :=
  f.Classed ∨ (∃ u, f = .underflow u) ∨ f = .endless ∧ ¬ d.circuit.Acyclic d.always

def Outcome.Yields {α β : Type} (u : Outcome α β) (done : β → α → Design → Prop) : Prop :=
  match u.result with
  | .ok b => done b u.value u.design
  | .error f => f.Admissible u.design

namespace Outcome.Yields

variable {α β : Type} {u : Outcome α β} {done : β → α → Design → Prop}

theorem failed {f : Failure} (result : u.result = .error f) (admissible : f.Admissible u.design) :
    u.Yields done := by
  unfold Yields
  rw [result]
  exact admissible

theorem returned {b : β} (result : u.result = .ok b) (h : done b u.value u.design) :
    u.Yields done := by
  unfold Yields
  rw [result]
  exact h

theorem cases (h : u.Yields done) :
    (∃ f, u.result = .error f ∧ f.Admissible u.design) ∨
      ∃ b, u.result = .ok b ∧ done b u.value u.design := by
  unfold Yields at h
  cases result : u.result with
  | error f =>
    rw [result] at h
    exact .inl ⟨f, rfl, h⟩
  | ok b =>
    rw [result] at h
    exact .inr ⟨b, rfl, h⟩

end Outcome.Yields

structure Design.Kept (d d' : Design) : Prop where
  grown : d.Extends d'
  wellFormed : d'.WellFormed
  vars : d'.vars = d.vars
  scopes : d'.scopes = d.scopes

namespace Design.Kept

variable {a b c : Design}

theorem refl (wf : a.WellFormed) : a.Kept a := ⟨.refl a, wf, rfl, rfl⟩

theorem trans (ab : a.Kept b) (bc : b.Kept c) : a.Kept c :=
  ⟨ab.grown.trans bc.grown, bc.wellFormed, bc.vars.trans ab.vars, bc.scopes.trans ab.scopes⟩

theorem snapshot (h : a.Kept b) : b.snapshot = a.snapshot := by
  funext v
  rw [Design.snapshot, Design.snapshot, Design.variableOf, Design.variableOf, h.vars]

theorem env (h : a.Kept b) : b.env = a.env := by
  funext v
  rw [Design.env, Design.env, Design.variableOf, Design.variableOf, h.vars]

theorem reachOf (h : a.Kept b) (s : ScopeId) : b.reachOf s = a.reachOf s := by
  rw [Design.reachOf, Design.reachOf, Design.scopeOf, Design.scopeOf, h.scopes]

theorem ofTally {start : BranchId → Usage → Nat} {held : List (BranchId × Usage)}
    (h : Tally a start held b) : a.Kept b where
  grown := h.grown
  wellFormed := h.wellFormed
  vars := by rw [← h.frame]
  scopes := by rw [← h.frame]

theorem ofUncounted {c : Circuit} (wf : a.WellFormed) (same : c.uncounted = a.circuit.uncounted) :
    a.Kept { a with circuit := c } :=
  ⟨extends_uncounted same,
    wf.withCircuit (Circuit.extends_of_uncounted same) (wf.circuit.of_uncounted same), rfl, rfl⟩

end Design.Kept

theorem dropTree_cases (wf : d.WellFormed) (old : Option Tree) :
    (∃ u d', dropTree old d = .error (.underflow u) d' ∧ d.Kept d') ∨
    ∃ d', dropTree old d = .ok () d' ∧ d.Kept d' := by
  unfold dropTree DesignM.onCircuit Tree.releaseAll
  cases run : Circuit.giveAll (Tree.allUses old.toList) d.circuit with
  | error u c => exact .inl ⟨u, _, rfl, .ofUncounted wf ((Circuit.recounts_giveAll _ _).2 _ _ run)⟩
  | ok x c => exact .inr ⟨_, rfl, .ofUncounted wf ((Circuit.recounts_giveAll _ _).1 _ _ run)⟩

/-- From `d` on, an expression resolves to the tree `t` with its variables read anew, and nothing
but counters changes. -/
def Source.Fixed (r : Resolver) (scope : ScopeId) (s : Source) (t : Tree) (d : Design) : Prop :=
  ∀ e, d.Extends e → e.WellFormed →
    ∃ e₁, s.resolve r scope e = .ok (t.refresh e.snapshot) e₁ ∧ e₁.uncounted = e.uncounted

theorem Source.Fixed.mono {d' : Design} (h : s.Fixed r scope t d) (ext : d.Extends d') :
    s.Fixed r scope t d' :=
  fun e later wf => h e (ext.trans later) wf

/-- The tree `t` points to what there is, and an expression resolves to it as long as the meaning of
names remains. -/
structure Source.Lasts (r : Resolver) (scope : ScopeId) (s : Source) (t : Tree) (d : Design) :
    Prop where
  inside : t.All (Tree.Inside d)
  again : ∀ e, d.Remains scope e → e.WellFormed →
    ∃ e₁, s.resolve r scope e = .ok (t.refresh e.snapshot) e₁ ∧ e₁.uncounted = e.uncounted

theorem Source.Lasts.fixed (h : s.Lasts r scope t d) :
    s.Fixed r scope t d := fun e later wf => h.again e (later.remains scope) wf

theorem Source.Lasts.mono {e : Design} (h : s.Lasts r scope t d) (later : d.Remains scope e) :
    s.Lasts r scope t e where
  inside u mem := (h.inside u mem).mono later.parameters later.vars later.circuit.branches
  again z after wf := h.again z (later.trans after) wf

structure Source.Renewed (r : Resolver) (scope : ScopeId) (s : Source) (d : Design) (t : Tree)
    (d' : Design) : Prop where
  kept : d.Kept d'
  read : t.refresh d.snapshot = t
  lasts : s.Lasts r scope t d'
  again : ∀ t₀, s.Fixed r scope t₀ d → t = t₀.refresh d.snapshot

theorem Source.Renewed.fixed {d' : Design} (h : s.Renewed r scope d t d') :
    s.Fixed r scope t d' := h.lasts.fixed

theorem Source.renewal (wf : d.WellFormed) (r : Resolver) (scope : ScopeId) (s : Source)
    (old : Option Tree) :
    (∃ f d', s.resolve r scope d = .error f d' ∧ f.Classed ∧ d.Kept d') ∨
      ∃ t d₁, s.resolve r scope d = .ok t d₁ ∧
      ((∃ u d', dropTree old d₁ = .error (.underflow u) d' ∧ d.Kept d') ∨
        ∃ d', dropTree old d₁ = .ok () d' ∧ s.Renewed r scope d t d') := by
  have resolved := s.resolve_meets (Tally.initial wf) r scope
  unfold Meets at resolved
  cases run : s.resolve r scope d with
  | error f d' =>
    rw [run] at resolved
    exact .inl ⟨f, d', rfl, resolved.1, .ofTally resolved.2⟩
  | ok t d₁ =>
    rw [run] at resolved
    obtain ⟨tally, built⟩ := resolved
    have kept : d.Kept d₁ := .ofTally tally
    refine .inr ⟨t, d₁, rfl, ?_⟩
    obtain ⟨u, d', dropped, after⟩ | ⟨d', dropped, after⟩ := dropTree_cases kept.wellFormed old
    · exact .inl ⟨u, d', dropped, kept.trans after⟩
    · have inside : t.All (Tree.Inside d₁) := (Resolve.Partwise.resolve wf run (fun _ _ => trivial)
        fun _ wf₁ => Resolve.partwise_inside wf₁).2.2.2
      refine .inr ⟨d', dropped, kept.trans after, Tree.refresh_of_built t built, ⟨?_, ?_⟩, ?_⟩
      · exact Resolve.inside_mono after.grown inside
      · intro e later wfLater
        exact Source.resolve_remains wf run ((after.grown.remains scope).trans later) wfLater
      · intro t₀ fixed
        obtain ⟨e₁, known, -⟩ := fixed d (.refl d) wf
        rw [run] at known
        cases known
        rfl

structure Work.Same (w u : Work) : Prop where
  target : u.target = w.target
  seen : u.seen = w.seen
  tree : ∀ read, u.tree.refresh read = w.tree.refresh read

theorem Work.Same.trans {w u v : Work} (wu : w.Same u) (uv : u.Same v) : w.Same v :=
  ⟨uv.target.trans wu.target, uv.seen.trans wu.seen,
    fun read => (uv.tree read).trans (wu.tree read)⟩

theorem same_trans {ws us vs : List Work} (wu : List.Forall₂ Work.Same ws us)
    (uv : List.Forall₂ Work.Same us vs) : List.Forall₂ Work.Same ws vs := by
  induction wu generalizing vs with
  | nil => exact uv
  | cons head _ ih =>
    cases uv with
    | cons next rest => exact .cons (head.trans next) (ih rest)

theorem sweep_same {ws us : List Work} (same : List.Forall₂ Work.Same ws us)
    (env : VariableId → Summary) :
    (sweep env us).1 = (sweep env ws).1 ∧ (sweep env us).2.env = (sweep env ws).2.env ∧
      List.Forall₂ Work.Same (sweep env ws).2.works (sweep env us).2.works := by
  induction same generalizing env with
  | nil => exact ⟨rfl, rfl, .nil⟩
  | @cons w u ws us head _ ih =>
    have found : u.found env = w.found env := congrArg Tree.summary (head.tree (reading env))
    have after : u.after env = w.after env := by
      unfold Work.after
      rw [head.target, found]
    have changes : u.changes env = w.changes env := by
      unfold Work.changes
      rw [head.target, head.seen, found]
    have done : (w.done env).Same (u.done env) := by
      refine ⟨?_, ?_, fun read => ?_⟩
      · rw [w.target_done, u.target_done, head.target]
      · unfold Work.done
        rw [head.target]
        cases w.target with
        | some v => exact head.seen
        | none =>
          dsimp only
          rw [head.seen, found]
      · rw [w.tree_done, u.tree_done, head.tree read]
    obtain ⟨flags, envs, works⟩ := ih (w.after env)
    simp only [sweep, after, changes, flags, envs]
    exact ⟨trivial, trivial, .cons done works⟩

theorem sweep_target (read : t.refresh d.snapshot = t) (v : VariableId) (seen : Option Summary) :
    sweep d.env [⟨t, some v, seen⟩] = ((d.env v).grows t.summary,
        ⟨Function.update d.env v ((d.env v).absorb t.summary), [⟨t, some v, seen⟩]⟩) := by
  have found : (⟨t, some v, seen⟩ : Work).found d.env = t.summary := congrArg Tree.summary read
  simp only [sweep, Work.changes, Work.after, Work.done, found, Bool.or_false]

theorem sweep_free (read : t.refresh d.snapshot = t) (seen : Option Summary) :
      sweep d.env [⟨t, none, seen⟩] =
      ((accumulate seen t.summary).1,
      ⟨d.env, [⟨t, none, some (accumulate seen t.summary).2⟩]⟩) := by
  have found : (⟨t, none, seen⟩ : Work).found d.env = t.summary := congrArg Tree.summary read
  simp only [sweep, Work.changes, Work.after, Work.done, found, Bool.or_false]

/-- An update as a round of works. Outside of `touched` the reach of scopes is kept; where the works
were known before, it is kept everywhere. -/
structure Rounded (d d' : Design) (a : Bool) (touched : List ScopeId) (count : Nat)
    (before after : Design → List Work → Prop) : Prop where
  grown : d.Extends d'
  wellFormed : d'.WellFormed
  outside : ∀ x, x ∉ touched → d'.reachOf x = d.reachOf x
  flow : ∃ us ws, us.length ≤ count ∧ sweep d.env us = (a, ⟨d'.env, ws⟩) ∧ after d' ws ∧
    ∀ known, before d known →
      (∀ x, d'.reachOf x = d.reachOf x) ∧ List.Forall₂ Work.Same known us

namespace Statement

mutual

/-- The works of a statement, as they are known once it was updated. -/
def Carries (r : Resolver) (d : Design) (outer : ScopeId) : Statement → List Work → Prop
  | .declare s, ws =>
    match s.source with
    | none => ws = []
    | some source => ∃ t, source.Fixed r outer t d ∧ ws = [⟨t, some s.symbol.id, none⟩]
  | .assign s, ws =>
    ∃ v t, s.symbol = some v ∧ s.source.Fixed r outer t d ∧ ws = [⟨t, some v.id, none⟩]
  | .contribute s, ws => ∃ t, s.source.Fixed r outer t d ∧ ws = [⟨t, none, s.summary⟩]
  | .conditional c thnScope thn elsScope els, ws =>
    ∃ t us vs, c.source.Fixed r outer t d ∧
      (d.reachOf thnScope, d.reachOf elsScope) = Condition.arms t ∧
      CarriesAll r d thnScope thn us ∧ CarriesAll r d elsScope els vs ∧
      ws = [⟨t, none, c.summary⟩] ++ (us ++ vs)
  | .block inner body, ws => CarriesAll r d inner body ws

def CarriesAll (r : Resolver) (d : Design) (outer : ScopeId) : List Statement → List Work → Prop
  | [], ws => ws = []
  | s :: ss, ws =>
    if d.reach (s.ownScope outer) == .never then CarriesAll r d outer ss ws
    else ∃ us vs, Carries r d outer s us ∧ CarriesAll r d outer ss vs ∧ ws = us ++ vs

end

end Statement

section Leaves

variable {source : Source} {d₁ : Design} {r : Resolver} {outer : ScopeId} {d : Design}

theorem Design.env_assign {v : VariableId} (inside : v < d.vars.size) (s : Summary) :
    (d.assign v s).2.env = Function.update d.env v ((d.env v).absorb s) := by
  funext w
  simp only [env, assign, variableOf_modifyVariable]
  by_cases same : w = v
  · subst same
    simp [inside]
  · simp [same, env]

theorem Source.Renewed.assign (h : source.Renewed r outer d t d₁) {v : VariableId}
    (inside : v < d.vars.size) {before after : Design → List Work → Prop}
    (known : ∀ ws, before d ws → ∃ t₀, source.Fixed r outer t₀ d ∧ ws = [⟨t₀, some v, none⟩])
    (works : ∀ e, source.Fixed r outer t e → after e [⟨t, some v, none⟩]) :
    Rounded d (d₁.assign v t.summary).2 (d₁.assign v t.summary).1 [] 1 before after := by
  have inside₁ : v < d₁.vars.size := by
    rw [h.kept.vars]
    exact inside
  have grown := Design.extends_modifyVariable d₁ v fun var =>
    { var with summary := var.summary.absorb t.summary }
  have reach : ∀ x, (d₁.assign v t.summary).2.reachOf x = d.reachOf x := fun x => h.kept.reachOf x
  refine ⟨h.kept.grown.trans grown, h.kept.wellFormed.assign v t.summary, fun x _ => reach x, ?_⟩
  refine ⟨[⟨t, some v, none⟩], [⟨t, some v, none⟩], Nat.le_refl 1, ?_,
    works _ (h.fixed.mono grown), ?_⟩
  · rw [sweep_target h.read, Design.env_assign inside₁, h.kept.env]
    have flag : (d₁.assign v t.summary).1 = (d₁.env v).grows t.summary := rfl
    rw [flag, h.kept.env]
  · intro ws carried
    obtain ⟨t₀, fixed, rfl⟩ := known ws carried
    refine ⟨reach, .cons ⟨rfl, rfl, fun read => ?_⟩ .nil⟩
    rw [h.again t₀ fixed, Tree.refresh_refresh]

theorem Source.Renewed.keep {d' : Design} (h : source.Renewed r outer d t d₁)
    (grown : d₁.Extends d') (wf : d'.WellFormed) (vars : d'.vars = d₁.vars) {touched : List ScopeId}
    (outside : ∀ x, x ∉ touched → d'.reachOf x = d.reachOf x) {seen : Option Summary}
    {before after : Design → List Work → Prop}
      (known : ∀ ws, before d ws → (∀ x, d'.reachOf x = d.reachOf x) ∧
      ∃ t₀, source.Fixed r outer t₀ d ∧ ws = [⟨t₀, none, seen⟩])
    (works : source.Fixed r outer t d' → after d' [⟨t, none, some (accumulate seen t.summary).2⟩]) :
    Rounded d d' (accumulate seen t.summary).1 touched 1 before after := by
  have env : d'.env = d.env := by
    rw [← h.kept.env]
    funext v
    rw [Design.env, Design.env, Design.variableOf, Design.variableOf, vars]
  refine ⟨h.kept.grown.trans grown, wf, outside, ?_⟩
  refine ⟨[⟨t, none, seen⟩], _, Nat.le_refl 1, ?_, works (h.fixed.mono grown), ?_⟩
  · rw [sweep_free h.read, env]
  · intro ws carried
    obtain ⟨reach, t₀, fixed, rfl⟩ := known ws carried
    refine ⟨reach, .cons ⟨rfl, rfl, fun read => ?_⟩ .nil⟩
    rw [h.again t₀ fixed, Tree.refresh_refresh]

theorem Source.Renewed.ofKept {d₀ : Design} (kept : d.Kept d₀)
    (h : source.Renewed r outer d₀ t d₁) : source.Renewed r outer d t d₁ where
  kept := kept.trans h.kept
  read := by
    rw [← kept.snapshot]
    exact h.read
  lasts := h.lasts
  again t₀ fixed := by
    rw [← kept.snapshot]
    exact h.again t₀ (fixed.mono kept.grown)

theorem Declaration.rounds (r : Resolver) (outer : ScopeId) (wf : d.WellFormed) (s : Declaration)
    (fits : s.symbol.id < d.vars.size) : (s.update r outer d).Yields fun a s' d' =>
      Rounded d d' a [] 1
      (fun e => Statement.Carries r e outer (.declare s))
      (fun e => Statement.Carries r e outer (.declare s')) := by
  unfold Outcome.Yields
  cases written : s.source with
  | none =>
    simp only [update, written]
    refine ⟨.refl d, wf, fun _ _ => rfl, [], [], Nat.zero_le 1, rfl, ?_, ?_⟩
    · simp only [Statement.Carries, written]
    · intro ws known
      simp only [Statement.Carries, written] at known
      subst known
      exact ⟨fun _ => rfl, .nil⟩
  | some source =>
    obtain ⟨f, d', run, classed, -⟩ | ⟨t, d₁, run, ⟨u, d', dropped, -⟩ | ⟨d', dropped, renewed⟩⟩ :=
      source.renewal wf r outer s.value
    · simp only [update, written, run]
      exact .inl (classed.inside _)
    · simp only [update, written, run, dropped]
      exact .inr (.inl ⟨u, rfl⟩)
    · simp only [update, written, run, dropped]
      refine renewed.assign fits ?_ ?_
      · intro ws known
        simpa only [Statement.Carries, written] using known
      · intro e fixed
        simp only [Statement.Carries]
        exact ⟨t, fixed, rfl⟩

theorem Assignment.rounds (r : Resolver) (outer : ScopeId) (wf : d.WellFormed) (s : Assignment)
    (fits : ∀ v, s.symbol = some v → v.id < d.vars.size) :
    (s.update r outer d).Yields fun a s' d' =>
      Rounded d d' a [] 1 (fun e => Statement.Carries r e outer (.assign s))
      (fun e => Statement.Carries r e outer (.assign s')) := by
  unfold Outcome.Yields
  cases found : s.target outer d with
  | error cause =>
    simp only [update, found]
    exact .inl ⟨_, rfl, classed_of_target found⟩
  | ok v =>
    have inside := target_lt wf fits found
    obtain ⟨f, d', run, classed, -⟩ | ⟨t, d₁, run, ⟨u, d', dropped, -⟩ | ⟨d', dropped, renewed⟩⟩ :=
      s.source.renewal wf r outer s.value
    · simp only [update, found, run]
      exact .inl (classed.inside _)
    · simp only [update, found, run, dropped]
      exact .inr (.inl ⟨u, rfl⟩)
    · simp only [update, found, run, dropped]
      refine renewed.assign inside ?_ ?_
      · intro ws known
        simp only [Statement.Carries] at known
        obtain ⟨w, t₀, named, fixed, rfl⟩ := known
        have same : v = w := by
          unfold target at found
          rw [named] at found
          cases found
          rfl
        exact ⟨t₀, fixed, by rw [same]⟩
      · intro e fixed
        simp only [Statement.Carries]
        exact ⟨v, t, rfl, fixed, rfl⟩

theorem Contribution.locate_kept (r : Resolver) (outer : ScopeId) (wf : d.WellFormed)
    (s : Contribution) :
    d.Kept (s.locate r outer d).design ∧
      (∃ q, (s.locate r outer d).value = { s with quantity := q }) ∧
      (s.locate r outer d).Yields fun q s' _ => s' = { s with quantity := some q } := by
  unfold Outcome.Yields
  cases known : s.quantity with
  | some q =>
    simp only [locate, known]
    have same : s = { s with quantity := some q } := by rw [← known]
    exact ⟨.refl wf, ⟨some q, same⟩, same⟩
  | none =>
    have target := s.target.resolveTarget_meets (Tally.initial wf) r outer
    unfold Meets at target
    cases run : s.target.resolveTarget r outer d with
    | error f d' =>
      rw [run] at target
      simp only [locate, known, run]
      exact ⟨.ofTally target.2, ⟨none, by rw [← known]⟩, .inl (target.1.inside _)⟩
    | ok q d' =>
      rw [run] at target
      simp only [locate, known, run]
      have kept : d.Kept d' := .ofTally target.1
      exact ⟨kept.trans (.ofUncounted kept.wellFormed (Circuit.uncounted_take _ _ _)),
        ⟨some q, rfl⟩, trivial⟩

theorem Contribution.shorten_kept (wf : d.WellFormed) (q : Quantity) (scope : ScopeId) :
    d.Kept (shorten q scope d) := by
  have taken : d.Kept { d with circuit := d.circuit.take q.ref.branch .short } :=
    .ofUncounted wf (Circuit.uncounted_take _ _ _)
  obtain ⟨ext, wf'⟩ := Design.lay_grows taken.wellFormed d.always
    ((d.circuit.take q.ref.branch .short).refP q.ref)
      ((d.circuit.take q.ref.branch .short).refN q.ref)
    (if d.always scope then none else some scope)
  exact taken.trans ⟨ext, wf', rfl, rfl⟩

theorem Contribution.tangled_of_circles {q : Quantity} (stuck : circles q scope d = true) :
    ¬ (shorten q scope d).circuit.Acyclic (shorten q scope d).always := by
  have lost := Option.isNone_iff_eq_none.mp stuck
  have left : shorten q scope d = { d with circuit := d.circuit.take q.ref.branch .short } := by
    rw [shorten, Circuit.lay, lost]
    rfl
  rw [left]
  intro acyclic
  cases lost.symm.trans (acyclic.addShort_eq ..)

theorem Contribution.rounds (r : Resolver) (outer : ScopeId) (wf : d.WellFormed)
    (s : Contribution) : (s.update r outer d).Yields fun a s' d' => Rounded d d' a [] 1
      (fun e => Statement.Carries r e outer (.contribute s))
      (fun e => Statement.Carries r e outer (.contribute s')) := by
  obtain ⟨kept, -, located⟩ := s.locate_kept r outer wf
  unfold Outcome.Yields at located ⊢
  cases result : (s.locate r outer d).result with
  | error f =>
    rw [result] at located
    simp only [update, result]
    exact located
  | ok q =>
    rw [result] at located
    have value : (s.locate r outer d).value = _ := located
    obtain ⟨f, d', run, classed, -⟩ | ⟨t, d₁, run, ⟨u, d', dropped, -⟩ | ⟨d', dropped, renewed⟩⟩ :=
      s.source.renewal kept.wellFormed r outer s.value
    · simp only [update, result, run]
      exact .inl (classed.inside _)
    · simp only [update, result, run, value, accept, dropped]
      exact .inr (.inl ⟨u, rfl⟩)
    · simp only [update, result, run, value, accept, dropped]
      generalize shorts : (!s.short && vanishes q t) = b
      have after : d'.Kept (if b then shorten q outer d' else d') := by
        split
        · exact shorten_kept renewed.kept.wellFormed q outer
        · exact ⟨.refl d', renewed.kept.wellFormed, rfl, rfl⟩
      have reach : ∀ x, (if b then shorten q outer d' else d').reachOf x = d.reachOf x := fun x =>
        ((kept.trans renewed.kept).trans after).reachOf x
      by_cases stuck : (b && circles q outer d') = true
      · obtain ⟨rfl, round⟩ := Bool.and_eq_true_iff.mp stuck
        simp only [stuck, ↓reduceIte]
        exact .inr (.inr ⟨rfl, tangled_of_circles round⟩)
      simp only [stuck, Bool.false_eq_true, ↓reduceIte]
      refine (renewed.ofKept kept).keep after.grown after.wellFormed after.vars
        (fun x _ => reach x) ?_ ?_
      · intro ws known
        simp only [Statement.Carries] at known
        exact ⟨reach, known⟩
      · intro fixed
        simp only [Statement.Carries]
        exact ⟨t, fixed, rfl⟩

theorem Condition.arms_refresh (read : VariableId → Summary) (t : Tree) :
    arms (t.refresh read) = arms t := by
  cases t with
  | call function args filter s => cases filter <;> rfl
  | _ => rfl

theorem Design.reachOf_setReach (d : Design) {s : ScopeId} (inside : s < d.scopes.size)
    (reach : Reach) (condition : String) (x : ScopeId) :
    (d.setReach s reach condition).reachOf x = if x = s then reach else d.reachOf x := by
  simp only [reachOf, setReach, scopeOf_modifyScope, inside, and_true]
  split <;> rfl

theorem Design.setReach_both {thnScope elsScope : ScopeId} (thnInside : thnScope < d.scopes.size)
    (elsInside : elsScope < d.scopes.size) (arms : Reach × Reach) (text text' : String) :
    let both := (d.setReach thnScope arms.1 text).setReach elsScope arms.2 text'
    d.Extends both ∧ (d.WellFormed → both.WellFormed) ∧ ∀ x, both.reachOf x =
      if x = elsScope then arms.2 else if x = thnScope then arms.1 else d.reachOf x := by
  have first := extends_setReach d thnScope arms.1 text
  refine ⟨first.trans (extends_setReach _ _ _ _), fun wf => (wf.setReach _ _ _).setReach _ _ _,
    fun x => ?_⟩
  rw [reachOf_setReach _ (first.scopes ▸ elsInside), reachOf_setReach _ thnInside]

def Condition.Carries (r : Resolver) (outer thnScope elsScope : ScopeId) (c : Condition)
    (e : Design) (ws : List Work) : Prop :=
  ∃ t, c.source.Fixed r outer t e ∧ (e.reachOf thnScope, e.reachOf elsScope) = arms t ∧
    ws = [⟨t, none, c.summary⟩]

theorem Condition.rounds (r : Resolver) (outer : ScopeId) (wf : d.WellFormed)
    {thnScope elsScope : ScopeId} (c : Condition) (thnInside : thnScope < d.scopes.size)
    (elsInside : elsScope < d.scopes.size) (apart : thnScope ≠ elsScope) :
    (c.update r outer thnScope elsScope d).Yields fun a c' d' =>
      Rounded d d' a [thnScope, elsScope] 1
      (c.Carries r outer thnScope elsScope) (c'.Carries r outer thnScope elsScope) := by
  unfold Outcome.Yields
  obtain ⟨f, d', run, classed, -⟩ | ⟨t, d₁, run, ⟨u, d', dropped, -⟩ | ⟨d', dropped, renewed⟩⟩ :=
    c.source.renewal wf r outer c.value
  · simp only [update, run]
    exact .inl (classed.inside _)
  · simp only [update, run, dropped]
    exact .inr (.inl ⟨u, rfl⟩)
  · simp only [update, run, dropped]
    generalize t.source d'.circuit = text
    obtain ⟨grown, wf', reach⟩ := Design.setReach_both (renewed.kept.scopes ▸ thnInside)
      (renewed.kept.scopes ▸ elsInside) (arms t) text ("!(" ++ text ++ ")")
    simp only [renewed.kept.reachOf] at reach
    refine renewed.keep grown (wf' renewed.kept.wellFormed) rfl ?_ ?_ ?_
    · intro x outside
      simp only [List.mem_cons, List.not_mem_nil, or_false, not_or] at outside
      rw [reach, if_neg outside.2, if_neg outside.1]
    · rintro ws ⟨t₀, fixed, before, rfl⟩
      refine ⟨fun x => ?_, t₀, fixed, rfl⟩
      have same : arms t = (d.reachOf thnScope, d.reachOf elsScope) := by
        rw [renewed.again t₀ fixed, arms_refresh, before]
      rw [reach, same]
      split
      · rename_i els
        rw [els]
      · split
        · rename_i thn
          rw [thn]
        · rfl
    · intro fixed
      refine ⟨t, fixed, ?_, rfl⟩
      rw [reach, reach, if_neg apart, if_pos rfl, if_pos rfl]

end Leaves

end Analog
