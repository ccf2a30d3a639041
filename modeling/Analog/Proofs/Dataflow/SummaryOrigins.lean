import Analog.Proofs.Dataflow.Marking

/-!
Where summaries come from. A statement holds the tree that its expression resolves to still, and has
accumulated no more than this tree brings now. What the summary of a variable mentions came to it
along assignments that statements hold. An update keeps this, whether it succeeds or fails half way.
-/
namespace Analog

section Kept

variable {r : Resolver} {scope : ScopeId} {s : Source} {d d' : Design} {f : Failure}

theorem Source.kept_of_ok {t : Tree} (wf : d.WellFormed) (run : s.resolve r scope d = .ok t d') :
    d.Kept d' := by
  have resolved := s.resolve_meets (Tally.initial wf) r scope
  exact .ofTally (resolved.of_ok run).1

theorem Source.kept_of_error (wf : d.WellFormed) (run : s.resolve r scope d = .error f d') :
    d.Kept d' := by
  have resolved := s.resolve_meets (Tally.initial wf) r scope
  unfold Meets at resolved
  rw [run] at resolved
  exact .ofTally resolved.2

end Kept

namespace Tree

variable {d : Design}

mutual

theorem has_of_inside (t : Tree) (inside : t.All (Inside d)) : ∀ x ∈ t.reads, d.Has x := by
  cases t with
  | «variable» v s | access q => exact List.forall_mem_singleton.mpr inside.self
  | declaration v init =>
    exact has_of_inside init fun u mem => inside u (List.mem_append_left _ mem)
  | unary op x s => exact has_of_inside x (all_unary.mp inside).1
  | binary op l r s =>
    obtain ⟨left, right, _⟩ := all_binary.mp inside
    exact List.forall_mem_append.mpr ⟨has_of_inside l left, has_of_inside r right⟩
  | ternary c t e s =>
    obtain ⟨cond, thn, els, _⟩ := all_ternary.mp inside
    exact List.forall_mem_append.mpr ⟨has_of_inside c cond,
      List.forall_mem_append.mpr ⟨has_of_inside t thn, has_of_inside e els⟩⟩
  | call function args filter s =>
    obtain ⟨all, _, own⟩ := all_call.mp inside
    cases filter with
    | none =>
      simp only [reads]
      split
      · split
        · nofun
        · exact hasAll_of_inside args all
      · nofun
    | some b => exact List.forall_mem_cons.mpr ⟨own b rfl, hasAll_of_inside args all⟩
  | arguments items => exact hasAll_of_inside items (all_arguments.mp inside).1
  | literal | parameter | node | port | marker | deferred => nofun

theorem hasAll_of_inside (ts : List Tree) (inside : ∀ t ∈ ts, t.All (Inside d)) :
    ∀ x ∈ readsAll ts, d.Has x := by
  cases ts with
  | nil => nofun
  | cons t ts =>
    obtain ⟨first, rest⟩ := List.forall_mem_cons.mp inside
    exact List.forall_mem_append.mpr ⟨has_of_inside t first, hasAll_of_inside ts rest⟩

end

end Tree

/-- The value of `w` is part of one that `v` is given. -/
def Feeds (gives : List (VariableId × Tree)) (w v : VariableId) : Prop :=
  ∃ t, (v, t) ∈ gives ∧ Mention.variable w ∈ t.reads

theorem Feeds.mono {gives more : List (VariableId × Tree)} {w v : VariableId} (h : Feeds gives w v)
    (subset : ∀ x ∈ gives, x ∈ more) : Feeds more w v := by
  obtain ⟨t, mem, read⟩ := h
  exact ⟨t, subset _ mem, read⟩

/-- A variable that the summary of another mentions was passed on to it from one to the next. -/
def Design.Fed (d : Design) (feeds : VariableId → VariableId → Prop) : Prop :=
  ∀ v w, (d.env v).Mentions (.variable w) → Relation.TransGen feeds w v

/-- From `d` to `d'` statements that give values by `gives` were worked on, and the reach of no
scope but those of `touched` has changed. -/
structure Flows (d : Design) (touched : List ScopeId) (gives : List (VariableId × Tree))
    (d' : Design) : Prop where
  grown : d.Extends d'
  wellFormed : d'.WellFormed
  env : ∀ v, (d.env v).Within (d'.env v)
  needed : ∀ v, (d'.variableOf v).needed = (d.variableOf v).needed
  outside : ∀ x, x ∉ touched → d'.reachOf x = d.reachOf x
  fed : ∀ feeds, d.Fed feeds → d'.Fed fun w v => feeds w v ∨ Feeds gives w v
  grounded : d.Grounded → d'.Grounded

namespace Design

theorem Has.mono {d d' : Design} (branches : d.circuit.branches.size ≤ d'.circuit.branches.size)
    (vars : d.vars.size ≤ d'.vars.size) {x : Mention} (h : d.Has x) : d'.Has x := by
  cases x with
  | probe q => exact Nat.lt_of_lt_of_le h branches
  | «variable» v => exact Nat.lt_of_lt_of_le h vars

theorem Has.extends {d d' : Design} (ext : d.Extends d') {x : Mention} (h : d.Has x) : d'.Has x :=
  h.mono ext.circuit.branches (Nat.le_of_eq ext.vars.symm)

theorem mentions_snapshot {d : Design} {v : VariableId} {x : Mention} :
    (d.snapshot v).Mentions x ↔ (d.env v).Mentions x ∨ x = .variable v :=
    Summary.mentions_addConsumer

theorem snapshot_within {d d' : Design} (env : ∀ v, (d.env v).Within (d'.env v)) (v : VariableId) :
    (d.snapshot v).Within (d'.snapshot v) := (env v).addConsumer v

end Design

namespace Flows

variable {d d₁ d₂ : Design} {touched touched₁ touched₂ : List ScopeId}
  {gives gives₁ gives₂ : List (VariableId × Tree)}

theorem ofVars (grown : d.Extends d₁) (wf : d₁.WellFormed) (vars : d₁.vars = d.vars)
    (outside : ∀ x, x ∉ touched → d₁.reachOf x = d.reachOf x) : Flows d touched gives d₁ := by
  have same : d₁.variableOf = d.variableOf := by
    funext v
    rw [Design.variableOf, Design.variableOf, vars]
  have env : d₁.env = d.env := by
    funext v
    rw [Design.env, Design.env, same]
  refine ⟨grown, wf, fun v => env ▸ .refl _,
    fun v => by rw [same], outside, fun feeds fed v w mentioned => ?_,
    fun grounded v x mentioned => ?_⟩
  · rw [env] at mentioned
    exact Relation.TransGen.mono (fun _ _ known => Or.inl known) w v (fed v w mentioned)
  · rw [env] at mentioned
    exact (grounded v x mentioned).extends grown

theorem ofKept (h : d.Kept d₁) : Flows d touched gives d₁ :=
  ofVars h.grown h.wellFormed h.vars fun x _ => h.reachOf x

theorem mono (h : Flows d touched₁ gives₁ d₁) (touches : ∀ x ∈ touched₁, x ∈ touched)
    (more : ∀ w v, Feeds gives₁ w v → Feeds gives w v) : Flows d touched gives d₁ where
  grown := h.grown
  wellFormed := h.wellFormed
  env := h.env
  needed := h.needed
  outside x out := h.outside x fun mem => out (touches x mem)
  fed feeds fed v w mentioned := by
    refine Relation.TransGen.mono ?_ w v (h.fed feeds fed v w mentioned)
    exact fun w v known => known.imp_right (more w v)
  grounded := h.grounded

theorem trans (first : Flows d touched₁ gives₁ d₁) (second : Flows d₁ touched₂ gives₂ d₂) :
    Flows d (touched₁ ++ touched₂) (gives₁ ++ gives₂) d₂ where
  grown := first.grown.trans second.grown
  wellFormed := second.wellFormed
  env v := (first.env v).trans (second.env v)
  needed v := (second.needed v).trans (first.needed v)
  outside x out := by
    rw [List.mem_append, not_or] at out
    rw [second.outside x out.2, first.outside x out.1]
  fed feeds fed v w mentioned := by
    refine Relation.TransGen.mono ?_ w v (second.fed _ (first.fed feeds fed) v w mentioned)
    rintro a b ((known | given) | given)
    · exact .inl known
    · exact .inr (given.mono fun _ mem => List.mem_append_left _ mem)
    · exact .inr (given.mono fun _ mem => List.mem_append_right _ mem)
  grounded h := second.grounded (first.grounded h)

/-- What a variable mentions is brought by what it was given, and by what that reads. -/
theorem assign {r : Resolver} {outer : ScopeId} {source : Source} {t : Tree}
    (h : source.Renewed r outer d t d₁) (v : VariableId) :
    Flows d touched [(v, t)] (d₁.assign v t.summary).2 := by
  have before : Flows d touched [(v, t)] d₁ := ofKept h.kept
  have tidy : t.summary.Tidy := by
    rw [← h.read]
    exact Tree.nodup_refresh (fun w => h.kept.snapshot ▸ h.kept.wellFormed.summaries w) t
  have mentions : ∀ x, t.summary.Mentions x ↔ ∃ y ∈ t.reads, y.Brings d₁.snapshot x := by
    intro x
    rw [h.kept.snapshot, ← Tree.mentions_refresh, h.read]
  have env : ∀ w, (d₁.assign v t.summary).2.env w = d₁.env w ∨
      w = v ∧ (d₁.assign v t.summary).2.env w = (d₁.env w).absorb t.summary := by
    intro w
    simp only [Design.env, Design.assign, Design.variableOf_modifyVariable]
    split
    · rename_i same
      rw [same.1]
      exact .inr ⟨rfl, rfl⟩
    · exact .inl rfl
  have grown := Design.extends_modifyVariable d₁ v fun var =>
    { var with summary := var.summary.absorb t.summary }
  refine ⟨before.grown.trans grown, h.kept.wellFormed.assign v t.summary, fun w => ?_,
    fun w => ?_, ?_, ?_, ?_⟩
  · refine (before.env w).trans ?_
    rcases env w with same | ⟨_, absorbed⟩
    · rw [same]
      exact .refl _
    · rw [absorbed]
      exact (Summary.below_absorb _ _).within
  · rw [← before.needed w, Design.assign, Design.variableOf_modifyVariable]
    split
    · rename_i same
      rw [same.1]
    · rfl
  · exact fun x _ => h.kept.reachOf x
  · intro feeds fed w u mentioned
    have fed₁ := before.fed feeds fed
    rcases env w with same | ⟨rfl, absorbed⟩
    · rw [same] at mentioned
      exact fed₁ w u mentioned
    · rw [absorbed, Summary.mentions_absorb tidy] at mentioned
      rcases mentioned with old | new
      · exact fed₁ w u old
      · obtain ⟨y, read, brings⟩ := (mentions _).mp new
        cases y with
        | probe q => cases brings
        | «variable» z =>
          have last : Feeds [(w, t)] z w := ⟨t, List.mem_singleton_self _, read⟩
          have brings : (d₁.snapshot z).Mentions (.variable u) := brings
          rcases Design.mentions_snapshot.mp brings with through | same
          · exact (fed₁ z u through).tail (.inr last)
          · cases same
            exact .single (.inr last)
  · intro grounded w x mentioned
    have grounded₁ := before.grounded grounded
    have here : d₁.Has x := by
      rcases env w with same | ⟨rfl, absorbed⟩
      · rw [same] at mentioned
        exact grounded₁ w x mentioned
      · rw [absorbed, Summary.mentions_absorb tidy] at mentioned
        rcases mentioned with old | new
        · exact grounded₁ w x old
        · obtain ⟨y, read, brings⟩ := (mentions x).mp new
          have there := Tree.has_of_inside t h.lasts.inside y read
          cases y with
          | probe q =>
            cases brings
            exact there
          | «variable» z =>
            have brings : (d₁.snapshot z).Mentions x := brings
            rcases Design.mentions_snapshot.mp brings with through | same
            · exact grounded₁ z x through
            · cases same
              exact there
    exact here.extends grown

end Flows

/-- What was accumulated of an expression is part of what its tree brings now, and the expression
still resolves to this tree. -/
structure Followed (r : Resolver) (d : Design) (outer : ScopeId) (source : Source)
    (value : Option Tree) (summary : Option Summary) : Prop where
  none : value = none → summary = none
  some : ∀ t, value = some t → source.Lasts r outer t d ∧
    ∃ a, summary = some a ∧ a.Within (t.refresh d.snapshot).summary

namespace Followed

variable {r : Resolver} {d d₁ e : Design} {outer : ScopeId} {source : Source} {value : Option Tree}
  {summary : Option Summary}

theorem mono (h : Followed r d outer source value summary) (later : d.Remains outer e)
    (env : ∀ v, (d.env v).Within (e.env v)) : Followed r e outer source value summary := by
  refine ⟨h.none, fun t held => ?_⟩
  obtain ⟨lasts, a, seen, within⟩ := h.some t held
  exact ⟨lasts.mono later, a, seen,
    within.trans (Tree.within_refresh (Design.snapshot_within env) t)⟩

theorem renew (h : Followed r d outer source value summary) {t : Tree}
    (renewed : source.Renewed r outer d t d₁) :
    Followed r d₁ outer source (.some t) (.some (accumulate summary t.summary).2) := by
  have tidy : t.summary.Tidy := by
    rw [← renewed.read]
    exact Tree.nodup_refresh
      (fun w => renewed.kept.snapshot ▸ renewed.kept.wellFormed.summaries w) t
  have same : (t.refresh d₁.snapshot).summary = t.summary := by
    rw [renewed.kept.snapshot, renewed.read]
  refine ⟨nofun, ?_⟩
  rintro _ ⟨⟩
  refine ⟨renewed.lasts, _, rfl, ?_⟩
  rw [same]
  cases value with
  | none =>
    rw [h.none rfl]
    exact .refl _
  | some t₀ =>
    obtain ⟨lasts, a, seen, within⟩ := h.some t₀ rfl
    rw [← renewed.again t₀ lasts.fixed] at within
    rw [seen]
    exact Summary.Within.absorb tidy within (.refl _)

end Followed

namespace Statement

def Untouched : Statement → Prop
  | .declare s => s.value = none
  | .assign s => s.value = none
  | .contribute s => s.value = none ∧ s.summary = none
  | .conditional c _ _ _ _ => c.value = none ∧ c.summary = none
  | .block _ _ => True

/-- What is known of a statement between two updates. A conditional that was not resolved, or of
which an arm is not reached, left that arm alone. -/
def Traced (r : Resolver) (d : Design) (outer : ScopeId) : Statement → Prop
  | .declare s => ∀ u, s.value = some u → ∃ source t, s.source = some source ∧
      u = .declaration s.symbol t ∧ source.Lasts r outer t d
  | .assign s => ∀ t, s.value = some t → (∃ v, s.symbol = some v) ∧ s.source.Lasts r outer t d
  | .contribute s => Followed r d outer s.source s.value s.summary
  | .conditional c thnScope thn elsScope els => Followed r d outer c.source c.value c.summary ∧
      (∀ t, c.value = some t → (d.reachOf thnScope, d.reachOf elsScope) = Condition.arms t) ∧
      (c.value = none ∨ d.reachOf thnScope = .never → EveryAll (fun _ => Untouched) thnScope thn) ∧
      (c.value = none ∨ d.reachOf elsScope = .never → EveryAll (fun _ => Untouched) elsScope els)
  | .block _ _ => True

def ownGives : Statement → List (VariableId × Tree)
  | .declare s => s.value.toList.map (s.symbol.id, ·)
  | .assign s =>
    match s.symbol, s.value with
    | some v, some t => [(v.id, t)]
    | _, _ => []
  | _ => []

def gives : Statement → List (VariableId × Tree) := gather ownGives

def givesAll : List Statement → List (VariableId × Tree) := gatherAll ownGives

variable {r : Resolver} {d d' e : Design} {outer : ScopeId}

theorem Traced.mono {s : Statement} (h : s.Traced r d outer) (later : d.Remains outer e)
    (env : ∀ v, (d.env v).Within (e.env v)) (own : ∀ x ∈ s.ownScopes, e.reachOf x = d.reachOf x) :
    s.Traced r e outer := by
  cases s with
  | declare s =>
    intro u held
    obtain ⟨source, t, written, same, lasts⟩ := h u held
    exact ⟨source, t, written, same, lasts.mono later⟩
  | assign s =>
    intro t held
    obtain ⟨symbol, lasts⟩ := h t held
    exact ⟨symbol, lasts.mono later⟩
  | contribute s => exact Followed.mono h later env
  | conditional c thnScope thn elsScope els =>
    obtain ⟨followed, arms, thnBlank, elsBlank⟩ := h
    have thnSame := own thnScope (by simp [ownScopes])
    have elsSame := own elsScope (by simp [ownScopes])
    refine ⟨followed.mono later env, ?_, ?_, ?_⟩
    · rw [thnSame, elsSame]
      exact arms
    · rw [thnSame]
      exact thnBlank
    · rw [elsSame]
      exact elsBlank
  | block inner body => trivial

theorem everyAll_traced_of_flows {touched : List ScopeId} {gives : List (VariableId × Tree)}
    (flows : Flows d touched gives e) (ss : List Statement)
    (apart : ∀ x ∈ scopesAll ss, x ∉ touched)
    (h : EveryAll (Traced r d) outer ss) : EveryAll (Traced r e) outer ss :=
  EveryAll.mono_own (fun outer _ own traced => traced.mono (flows.grown.remains outer) flows.env
    fun x mem => flows.outside x (own x mem)) ss apart h

theorem every_traced_of_flows {touched : List ScopeId} {gives : List (VariableId × Tree)}
    (flows : Flows d touched gives e) (s : Statement) (apart : ∀ x ∈ s.scopes, x ∉ touched)
    (h : s.Every (Traced r d) outer) : s.Every (Traced r e) outer :=
  (everyAll_traced_of_flows flows [s] (by rwa [scopesAll, gatherAll_singleton]) ⟨h, trivial⟩).1

theorem feeds_append {gives more : List (VariableId × Tree)} {w v : VariableId} :
    Feeds (gives ++ more) w v ↔ Feeds gives w v ∨ Feeds more w v := by
  simp only [Feeds, List.mem_append, or_and_right, exists_or]

structure Traces (r : Resolver) (outer : ScopeId) (s : Statement) (d : Design) (s' : Statement)
    (d' : Design) : Prop where
  scopes : s'.scopes = s.scopes
  flows : Flows d s.scopes s'.gives d'
  traced : s'.Every (Traced r d') outer
  feeds : ∀ w v, Feeds s.gives w v → Feeds s'.gives w v

structure TracesAll (r : Resolver) (outer : ScopeId) (ss : List Statement) (d : Design)
    (ss' : List Statement) (d' : Design) : Prop where
  scopes : scopesAll ss' = scopesAll ss
  flows : Flows d (scopesAll ss) (givesAll ss') d'
  traced : EveryAll (Traced r d') outer ss'
  feeds : ∀ w v, Feeds (givesAll ss) w v → Feeds (givesAll ss') w v

theorem Traces.ofKept {s : Statement} (kept : d.Kept d') (traced : s.Every (Traced r d) outer) :
    Traces r outer s d s d' := by
  have flows : Flows d [] s.gives d' := .ofKept kept
  exact ⟨rfl, .ofKept kept, every_traced_of_flows flows s (fun _ _ => List.not_mem_nil) traced,
    fun _ _ h => h⟩

theorem TracesAll.refl {ss : List Statement} (wf : d.WellFormed)
    (traced : EveryAll (Traced r d) outer ss) :
    TracesAll r outer ss d ss d := ⟨rfl, .ofKept (.refl wf), traced, fun _ _ h => h⟩

theorem TracesAll.cons {s s' : Statement} {ss ss' : List Statement} {d₁ d₂ : Design}
    (nested : NestedAll d outer (s :: ss)) (first : Traces r outer s d s' d₁)
    (second : TracesAll r outer ss d₁ ss' d₂) : TracesAll r outer (s :: ss) d (s' :: ss') d₂ where
  scopes := congrArg₂ (· ++ ·) first.scopes second.scopes
  flows := first.flows.trans second.flows
  traced := by
    refine ⟨every_traced_of_flows second.flows s' ?_ first.traced, second.traced⟩
    rw [first.scopes]
    exact nested.own_tail
  feeds w v h := by
    rw [givesAll, gatherAll, feeds_append] at h ⊢
    exact h.imp (first.feeds w v) (second.feeds w v)

end Statement

section Leaves

variable {r : Resolver} {d : Design} {outer : ScopeId}

open Statement

theorem Declaration.traces (r : Resolver) (outer : ScopeId) (wf : d.WellFormed) (s : Declaration)
    (traced : Traced r d outer (.declare s)) :
    Traces r outer (.declare s) d (.declare (s.update r outer d).value)
    (s.update r outer d).design := by
  cases written : s.source with
  | none =>
    simp only [update, written]
    exact .ofKept (.refl wf) traced
  | some source =>
    obtain ⟨f, d', run, -, kept⟩ | ⟨t, d₁, run, ⟨u, d', dropped, kept⟩ | ⟨d', dropped, renewed⟩⟩ :=
      source.renewal wf r outer s.value
    · simp only [update, written, run]
      exact .ofKept kept traced
    · simp only [update, written, run, dropped]
      exact .ofKept kept traced
    · simp only [update, written, run, dropped]
      have flows : Flows d [] [(s.symbol.id, t)] (d'.assign s.symbol.id t.summary).2 :=
        .assign renewed _
      refine ⟨rfl, flows.mono (fun _ mem => absurd mem List.not_mem_nil) ?_, ?_, ?_⟩
      · rintro w v ⟨_, mem, read⟩
        cases List.mem_singleton.mp mem
        exact ⟨.declaration s.symbol t, List.mem_singleton_self _, read⟩
      · rintro _ ⟨⟩
        have grown := Design.extends_modifyVariable d' s.symbol.id fun var =>
          { var with summary := var.summary.absorb t.summary }
        exact ⟨source, t, rfl, rfl, renewed.lasts.mono (grown.remains outer)⟩
      · rintro w v ⟨u, mem, read⟩
        obtain ⟨_, held, same⟩ := List.mem_map.mp mem
        cases same
        obtain ⟨source', t₀, written', rfl, lasts⟩ := traced u (Option.mem_toList.mp held)
        cases written.symm.trans written'
        rw [renewed.again t₀ lasts.fixed]
        refine ⟨_, List.mem_singleton_self _, ?_⟩
        rw [Tree.reads, Tree.reads_refresh]
        exact read

theorem Assignment.traces (r : Resolver) (outer : ScopeId) (wf : d.WellFormed) (s : Assignment)
    (traced : Traced r d outer (.assign s)) :
    Traces r outer (.assign s) d (.assign (s.update r outer d).value)
    (s.update r outer d).design := by
  cases found : s.target outer d with
  | error cause =>
    simp only [update, found]
    exact .ofKept (.refl wf) traced
  | ok v =>
    have known : ∀ t, s.value = some t → s.symbol = some v := by
      intro t held
      obtain ⟨⟨w, symbol⟩, _⟩ := traced t held
      unfold target at found
      rw [symbol] at found
      cases found
      exact symbol
    -- as long as the value stays, the symbol is new only where there is no value
    have failed : ∀ d', d.Kept d' →
        Traces r outer (.assign s) d (.assign { s with symbol := some v }) d' := by
      intro d' kept
      have named : Traced r d outer (.assign { s with symbol := some v }) :=
        fun t held => ⟨⟨v, rfl⟩, (traced t held).2⟩
      have after : Traces r outer (.assign { s with symbol := some v }) d _ d' := .ofKept kept named
      refine ⟨rfl, after.flows, after.traced, fun w u fed => ?_⟩
      obtain ⟨t, mem, read⟩ := fed
      refine ⟨t, ?_, read⟩
      cases held : s.value with
      | none => simp [gives, gather, ownGives, held] at mem
      | some t₀ => simpa [gives, gather, ownGives, held, known t₀ held] using mem
    obtain ⟨f, d', run, -, kept⟩ | ⟨t, d₁, run, ⟨u, d', dropped, kept⟩ | ⟨d', dropped, renewed⟩⟩ :=
      s.source.renewal wf r outer s.value
    · simp only [update, found, run]
      exact failed _ kept
    · simp only [update, found, run, dropped]
      exact failed _ kept
    · simp only [update, found, run, dropped]
      refine ⟨rfl, .assign renewed _, ?_, ?_⟩
      · rintro _ ⟨⟩
        have grown := Design.extends_modifyVariable d' v.id fun var =>
          { var with summary := var.summary.absorb t.summary }
        exact ⟨⟨v, rfl⟩, renewed.lasts.mono (grown.remains outer)⟩
      · rintro w u ⟨t₀, mem, read⟩
        cases held : s.value with
        | none => simp [gives, gather, ownGives, held] at mem
        | some t₁ =>
          simp only [gives, gather, ownGives, held, known t₁ held, List.mem_singleton] at mem
          obtain ⟨rfl, rfl⟩ := Prod.mk.inj mem
          rw [renewed.again t₀ (traced t₀ held).2.fixed]
          refine ⟨_, List.mem_singleton_self _, ?_⟩
          rw [Tree.reads_refresh]
          exact read

theorem Contribution.traces (r : Resolver) (outer : ScopeId) (wf : d.WellFormed) (s : Contribution)
    (traced : Traced r d outer (.contribute s)) :
    Traces r outer (.contribute s) d (.contribute (s.update r outer d).value)
    (s.update r outer d).design := by
  obtain ⟨located, ⟨q, value⟩, -⟩ := s.locate_kept r outer wf
  have failed : ∀ d', d.Kept d' →
      Traces r outer (.contribute s) d (.contribute { s with quantity := q }) d' := by
    intro d' kept
    have same : Traced r d outer (.contribute { s with quantity := q }) := traced
    have after : Traces r outer (.contribute { s with quantity := q }) d _ d' := .ofKept kept same
    exact ⟨rfl, after.flows, after.traced, fun _ _ h => h⟩
  cases result : (s.locate r outer d).result with
  | error f =>
    simp only [update, result, value]
    exact failed _ located
  | ok p =>
    obtain ⟨f, d', run, -, kept⟩ | ⟨t, d₁, run, ⟨u, d', dropped, kept⟩ | ⟨d', dropped, renewed⟩⟩ :=
      s.source.renewal located.wellFormed r outer s.value
    · simp only [update, result, run, value]
      exact failed _ (located.trans kept)
    · simp only [update, result, run, value, accept, dropped]
      exact failed _ (located.trans kept)
    · simp only [update, result, run, value, accept, dropped]
      generalize (!s.short && vanishes p t) = b
      have after : d'.Kept (if b then shorten p outer d' else d') := by
        split
        · exact shorten_kept renewed.kept.wellFormed p outer
        · exact .refl renewed.kept.wellFormed
      have whole := located.trans (renewed.kept.trans after)
      refine ⟨rfl, .ofKept whole, ?_, fun _ _ h => h⟩
      have renewedHere := renewed.ofKept located
      have followed := Followed.renew traced renewedHere
      exact followed.mono (after.grown.remains outer) fun v => after.env ▸ .refl _

/-- What an update leaves of a condition: all as it was, or a value that tells which blocks are
reached. -/
theorem Condition.traces (r : Resolver) (outer : ScopeId) (wf : d.WellFormed)
    {thnScope elsScope : ScopeId}
    (c : Condition) (thnInside : thnScope < d.scopes.size) (elsInside : elsScope < d.scopes.size)
    (apart : thnScope ≠ elsScope) (followed : Followed r d outer c.source c.value c.summary)
    (before : ∀ t, c.value = some t → (d.reachOf thnScope, d.reachOf elsScope) = arms t) :
    (∃ d' f, c.update r outer thnScope elsScope d = ⟨c, d', .error f⟩ ∧ d.Kept d') ∨
    ∃ c' d' a t, c.update r outer thnScope elsScope d = ⟨c', d', .ok a⟩ ∧ c'.value = some t ∧
      Followed r d' outer c'.source c'.value c'.summary ∧ Flows d [thnScope, elsScope] [] d' ∧
      (d'.reachOf thnScope, d'.reachOf elsScope) = arms t ∧
      ∀ t₀, c.value = some t₀ → ∀ x, d'.reachOf x = d.reachOf x := by
  obtain ⟨f, d', run, -, kept⟩ | ⟨t, d₁, run, ⟨u, d', dropped, kept⟩ | ⟨d', dropped, renewed⟩⟩ :=
    c.source.renewal wf r outer c.value
  · refine .inl ⟨d', f.inside "condition", ?_, kept⟩
    simp only [update, run]
  · refine .inl ⟨d', .underflow u, ?_, kept⟩
    simp only [update, run, dropped]
  · simp only [update, run, dropped]
    generalize t.source d'.circuit = text
    obtain ⟨grown, wf', reach⟩ := Design.setReach_both (renewed.kept.scopes ▸ thnInside)
      (renewed.kept.scopes ▸ elsInside) (arms t) text ("!(" ++ text ++ ")")
    simp only [renewed.kept.reachOf] at reach
    have after := wf' renewed.kept.wellFormed
    refine .inr ⟨_, _, _, t, rfl, rfl, ?_, .ofVars (renewed.kept.grown.trans grown) after
      renewed.kept.vars ?_, ?_, ?_⟩
    · exact (followed.renew renewed).mono (grown.remains outer) fun v => .refl _
    · intro x outside
      simp only [List.mem_cons, List.not_mem_nil, or_false, not_or] at outside
      rw [reach, if_neg outside.2, if_neg outside.1]
    · rw [reach, reach, if_neg apart, if_pos rfl, if_pos rfl]
    · intro t₀ held x
      have same : arms t = (d.reachOf thnScope, d.reachOf elsScope) := by
        rw [renewed.again t₀ (followed.some t₀ held).1.fixed, arms_refresh, before t₀ held]
      rw [reach, same]
      grind

end Leaves

namespace Statement

variable {r : Resolver} {outer : ScopeId}

theorem updateAll_of_unreached {d : Design} {ss : List Statement}
    (fits : EveryAll (Fits d) outer ss)
    (never : d.reach outer = .never) : updateAll r outer ss d = ⟨ss, d, .ok false⟩ := by
  induction ss with
  | nil => rfl
  | cons s ss ih =>
    have own : (d.reach (s.ownScope outer) == .never) = true := by
      rw [beq_iff_eq]
      cases s with
      | block inner body => exact Design.reach_of_unreached fits.1.1 never
      | _ => exact never
    simp only [updateAll, own, ↓reduceIte, ih fits.2]

section Arms

variable {d d₁ d₂ d₃ : Design} {c c' : Condition} {thnScope elsScope : ScopeId}
    {thn thn' els els' : List Statement}

theorem Traces.conditional (nested : Nested d outer (.conditional c thnScope thn elsScope els))
    {t : Tree} (value : c'.value = some t)
    (followed : Followed r d₁ outer c'.source c'.value c'.summary)
    (flows : Flows d [thnScope, elsScope] [] d₁)
    (arms : (d₁.reachOf thnScope, d₁.reachOf elsScope) = Condition.arms t)
    (first : TracesAll r thnScope thn d₁ thn' d₂) (second : TracesAll r elsScope els d₂ els' d₃)
    (thnBlank : d₁.reachOf thnScope = .never → EveryAll (fun _ => Untouched) thnScope thn')
    (elsBlank : d₁.reachOf elsScope = .never → EveryAll (fun _ => Untouched) elsScope els') :
    Traces r outer (.conditional c thnScope thn elsScope els) d
    (.conditional c' thnScope thn' elsScope els') d₃ := by
  have inner := first.flows.trans second.flows
  have thnSame := inner.outside _ (nested.arms_apart thnScope (.head _))
  have elsSame := inner.outside _ (nested.arms_apart elsScope (.tail _ (.head _)))
  refine ⟨?_, (flows.trans inner).mono ?_ ?_, ⟨⟨?_, ?_, ?_, ?_⟩, ?_, second.traced⟩, ?_⟩
  · show [thnScope, elsScope] ++ scopesAll thn' ++ scopesAll els' = _
    rw [first.scopes, second.scopes]
    rfl
  · intro x mem
    rw [← List.append_assoc] at mem
    exact mem
  · exact fun _ _ h => h
  · exact followed.mono (inner.grown.remains outer) inner.env
  · intro t' held
    cases value.symm.trans held
    rw [thnSame, elsSame]
    exact arms
  · rw [thnSame, value]
    rintro (none | never)
    · cases none
    · exact thnBlank never
  · rw [elsSame, value]
    rintro (none | never)
    · cases none
    · exact elsBlank never
  · refine everyAll_traced_of_flows second.flows thn' ?_ first.traced
    rw [first.scopes]
    exact nested.blocks_apart
  · intro w v h
    simp only [gives, gather, ownGives, List.nil_append, feeds_append] at h ⊢
    exact h.imp (first.feeds w v) (second.feeds w v)

end Arms

mutual

theorem update_traces (r : Resolver) {outer : ScopeId} {d : Design} (wf : d.WellFormed)
    (s : Statement) (nested : s.Nested d outer) (traced : s.Every (Traced r d) outer) :
    Traces r outer s d (s.update r outer d).value (s.update r outer d).design := by
  cases s with
  | declare s | assign s | contribute s => exact s.traces r outer wf traced
  | conditional c thnScope thn elsScope els =>
    obtain ⟨⟨followed, arms, thnBlank, elsBlank⟩, thnTraced, elsTraced⟩ := traced
    obtain ⟨d', f, failed, kept⟩ | ⟨c', d₁, a, t, done, value, followed', flows, arms', same⟩ :=
      c.traces r outer wf (scope_lt nested.fits.1.1) (scope_lt nested.fits.1.2)
        nested.arms_ne followed arms
    · simp only [update, failed]
      exact .ofKept kept ⟨⟨followed, arms, thnBlank, elsBlank⟩, thnTraced, elsTraced⟩
    have blank : ∀ {x : ScopeId} {body : List Statement},
        (c.value = none ∨ d.reachOf x = .never → EveryAll (fun _ => Untouched) x body) →
        d₁.reachOf x = .never → EveryAll (fun _ => Untouched) x body := by
      intro x body before never
      cases held : c.value with
      | none => exact before (.inl held)
      | some t₀ => exact before (.inr ((same t₀ held x).symm.trans never))
    have thnTraced₁ := everyAll_traced_of_flows flows thn
      (fun x mem near => nested.arms_apart x near (List.mem_append_left _ mem)) thnTraced
    have elsTraced₁ := everyAll_traced_of_flows flows els
      (fun x mem near => nested.arms_apart x near (List.mem_append_right _ mem)) elsTraced
    have first := updateAll_traces r flows.wellFormed thn (nested.thnBody.extends flows.grown)
      thnTraced₁
    have grown := flows.grown.trans first.flows.grown
    have elsTraced₂ := everyAll_traced_of_flows first.flows els
      (fun x mem inThn => nested.blocks_apart x inThn mem)
      elsTraced₁
    have second := updateAll_traces r first.flows.wellFormed els
      (nested.elsBody.extends grown) elsTraced₂
    have thnBlank' : d₁.reachOf thnScope = .never →
        EveryAll (fun _ => Untouched) thnScope (updateAll r thnScope thn d₁).value := by
      intro never
      rw [updateAll_of_unreached (everyAll_fits flows.grown nested.fits.2.1)
        (Design.reach_eq_never List.mem_cons_self never)]
      exact blank thnBlank never
    simp only [update, done]
    cases result : (updateAll r thnScope thn d₁).result with
    | error f =>
      exact .conditional nested value followed' flows arms' first
        (.refl first.flows.wellFormed elsTraced₂)
        thnBlank' (blank elsBlank)
    | ok b =>
      refine .conditional nested value followed' flows arms' first second thnBlank' fun never => ?_
      have same : (updateAll r thnScope thn d₁).design.reachOf elsScope = .never :=
        (first.flows.outside _ fun mem => nested.arms_apart elsScope (.tail _ (.head _))
          (List.mem_append_left _ mem)).trans never
      rw [updateAll_of_unreached (everyAll_fits grown nested.fits.2.2)
        (Design.reach_eq_never List.mem_cons_self same)]
      exact blank elsBlank never
  | block inner body =>
    have whole := updateAll_traces r wf body nested.body traced.2
    exact ⟨congrArg (inner :: ·) whole.scopes,
      whole.flows.mono (fun _ mem => List.mem_cons_of_mem inner mem)
      (fun _ _ h => h), ⟨trivial, whole.traced⟩, whole.feeds⟩

theorem updateAll_traces (r : Resolver) {outer : ScopeId} {d : Design} (wf : d.WellFormed)
    (ss : List Statement) (nested : NestedAll d outer ss)
    (traced : EveryAll (Traced r d) outer ss) :
    TracesAll r outer ss d (updateAll r outer ss d).value (updateAll r outer ss d).design := by
  cases ss with
  | nil => exact .refl wf trivial
  | cons s ss =>
    have tail : ∀ {s' : Statement} {d₁ : Design}, Traces r outer s d s' d₁ →
        EveryAll (Traced r d₁) outer ss := by
      intro s' d₁ first
      exact everyAll_traced_of_flows first.flows ss (fun x mem own => nested.own_tail x own mem)
        traced.2
    simp only [updateAll]
    split
    · exact .cons nested (.ofKept (.refl wf) traced.1)
        (updateAll_traces r wf ss nested.tail traced.2)
    · have first := update_traces r wf s nested.head traced.1
      cases result : (update r outer s d).result with
      | error f => exact .cons nested first (.refl first.flows.wellFormed (tail first))
      | ok a =>
        exact .cons nested first (updateAll_traces r first.flows.wellFormed ss
          (nested.tail.extends first.flows.grown) (tail first))

end

end Statement

structure Design.Unmarked (d : Design) : Prop where
  branches : ∀ b, (d.circuit.branch b).Unneeded
  vars : ∀ v, (d.variableOf v).needed = .empty

theorem Design.Unmarked.remains {d e : Design} (h : d.Unmarked)
    (circuit : d.circuit.Remains e.circuit)
    (needed : ∀ v, (e.variableOf v).needed = (d.variableOf v).needed) : e.Unmarked where
  branches b := by
    by_cases inside : b < d.circuit.branches.size
    · exact (h.branches b).of_uncounted (circuit.kept b inside)
    · exact circuit.unneeded b (Nat.le_of_not_lt inside)
  vars v := (needed v).trans (h.vars v)

theorem Flows.unmarked {d d' : Design} {touched : List ScopeId} {gives : List (VariableId × Tree)}
    (h : Flows d touched gives d') (unmarked : d.Unmarked) : d'.Unmarked :=
  unmarked.remains h.grown.circuit.toRemains h.needed

theorem Design.Fed.mono {d : Design} {feeds more : VariableId → VariableId → Prop} (h : d.Fed feeds)
    (subset : ∀ w v, feeds w v → more w v) : d.Fed more :=
  fun v w mentioned => Relation.TransGen.mono subset w v (h v w mentioned)

namespace Statement

structure Traceable (r : Resolver) (outer : ScopeId) (ss : List Statement) (d : Design) : Prop where
  traced : EveryAll (Traced r d) outer ss
  fed : d.Fed (Feeds (givesAll ss))
  grounded : d.Grounded
  unmarked : d.Unmarked

variable {r : Resolver} {outer : ScopeId} {ss ss' : List Statement} {d d' : Design}

theorem Traceable.update (h : Traceable r outer ss d) (wf : d.WellFormed)
    (nested : NestedAll d outer ss) :
    Traceable r outer (updateAll r outer ss d).value (updateAll r outer ss d).design := by
  have traces := updateAll_traces r wf ss nested h.traced
  refine ⟨traces.traced, (traces.flows.fed _ h.fed).mono ?_, traces.flows.grounded h.grounded,
    traces.flows.unmarked h.unmarked⟩
  rintro w v (before | now)
  · exact traces.feeds w v before
  · exact now

theorem Traceable.rounds {bound left i n : Nat} (h : Traceable r outer ss d) (wf : d.WellFormed)
    (nested : NestedAll d outer ss) (done : (rounds r outer bound left i ss d).result = .ok n) :
    Traceable r outer (rounds r outer bound left i ss d).value
    (rounds r outer bound left i ss d).design := by
  induction left generalizing i ss d with
  | zero => cases done
  | succ left ih =>
    simp only [Statement.rounds] at done ⊢
    have after := h.update wf nested
    obtain ⟨f, failed, _⟩ | ⟨a, found, round⟩ := (updateAll_rounds r wf ss nested).cases
    · simp only [failed] at done
      cases done
    cases a with
    | false =>
      simp only [found]
      exact after
    | true =>
      simp only [found] at done ⊢
      exact ih after round.rounded.wellFormed (round.nested nested) done

end Statement

end Analog
