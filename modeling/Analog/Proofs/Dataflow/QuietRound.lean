import Analog.Proofs.Dataflow.Settling
import Analog.Proofs.Summary.Order

/-!
A round of updates that changes nothing leaves every statement that is reached at rest: it holds the
tree that its expression resolves to, and the summaries are above what the tree brings. A statement
at rest is updated to itself, and all that can change with it are texts of conditions.
-/
namespace Analog

theorem Branch.eq_of_usage {a b : Branch} (bare : a.uncounted = b.uncounted)
    (usage : a.usage = b.usage) : a = b := by
  obtain ⟨name, p, n, base, reversed, filter, counts, needed, potentialNeeded,
    flowNeeded, listed⟩ := a
  cases usage
  cases bare
  rfl

theorem Circuit.eq_of_counts {c c' : Circuit} (same : c'.uncounted = c.uncounted)
    (counts : ∀ b u, c'.count b u = c.count b u) : c' = c := by
  have branches : c'.branches = c.branches := by
    refine Array.ext (Circuit.size_eq_of_uncounted same) fun b inside inside' => ?_
    have one : c'.branch b = c.branch b :=
      Branch.eq_of_usage (Circuit.branch_eq_of_uncounted same b)
        (Counts.ext_get fun u => counts b u)
    simpa [Circuit.branch, Array.getD, inside, inside'] using one
  have nodes := Circuit.nodes_eq_of_uncounted same
  have filters : c'.filters = c.filters := show c'.uncounted.filters =
    c.uncounted.filters by rw [same]
  rw [show c' = ⟨c'.nodes, c'.branches, c'.filters⟩ from rfl, nodes, branches, filters]

structure Source.Held (r : Resolver) (scope : ScopeId) (s : Source) (t : Tree) (d : Design) :
    Prop where
  fixed : s.Fixed r scope t d
  read : t.refresh d.snapshot = t

namespace Source.Held

variable {r : Resolver} {scope : ScopeId} {s : Source} {t : Tree} {d d' : Design}

theorem mono (h : s.Held r scope t d) (ext : d.Extends d') (env : d'.env = d.env) :
    s.Held r scope t d' := by
  have same : d'.snapshot = d.snapshot := by
    funext v
    exact congrArg (Summary.addConsumer · v) (congrFun env v)
  exact ⟨h.fixed.mono ext, by rw [same, h.read]⟩

theorem resolved (h : s.Held r scope t d) (wf : d.WellFormed) :
    ∃ e, s.resolve r scope d = .ok t e := by
  obtain ⟨e, run, -⟩ := h.fixed d (.refl d) wf
  rw [h.read] at run
  exact ⟨e, run⟩

theorem renews (h : s.Held r scope t d) (wf : d.WellFormed) {old : Tree}
    (uses : old.uses = t.uses) :
    ∃ e, s.resolve r scope d = .ok t e ∧ dropTree (some old) e = .ok () d := by
  obtain ⟨e, run, bare⟩ := h.fixed d (.refl d) wf
  rw [h.read] at run
  have taken := s.resolve_meets (Tally.initial wf) r scope
  unfold Meets at taken
  rw [run] at taken
  obtain ⟨c, given, same, after⟩ := taken.1.release
  have circuit : c = d.circuit :=
    Circuit.eq_of_counts (same.trans (congrArg Design.circuit bare)) after.holds.counts
  refine ⟨e, run, ?_⟩
  have whole : { e with circuit := c } = d := by
    obtain ⟨_, _, _, _, _, _⟩ := d
    obtain ⟨_, _, _, _, _, _⟩ := e
    simp only [Design.uncounted, Design.mk.injEq] at bare ⊢
    exact ⟨circuit, bare.2⟩
  simp only [dropTree, DesignM.onCircuit, Tree.releaseAll, Option.toList, Tree.allUses,
    List.append_nil, uses, given, whole]

end Source.Held

theorem Source.Renewed.held {r : Resolver} {scope : ScopeId} {s : Source} {t : Tree}
    {d d₁ d' : Design}
    (h : s.Renewed r scope d t d₁) (grown : d₁.Extends d') (env : d'.env = d.env) :
    s.Held r scope t d' := by
  have same : d'.snapshot = d.snapshot := by
    funext v
    exact congrArg (Summary.addConsumer · v) (congrFun env v)
  exact ⟨h.fixed.mono grown, by rw [same, h.read]⟩

theorem sweep_env_of_quiet {env : VariableId → Summary} (tidy : ∀ v, (env v).Tidy) {ws : List Work}
    (quiet : (sweep env ws).1 = false) : (sweep env ws).2.env = env := by
  induction ws with
  | nil => rfl
  | cons w ws ih =>
    simp only [sweep, Bool.or_eq_false_iff] at quiet ⊢
    have after : w.after env = env := by
      funext v
      rw [w.after_apply]
      split
      · rename_i target
        have flag := quiet.1
        simp only [Work.changes, target] at flag
        exact (Summary.covers_of_grows (tidy v) flag).kept
      · rfl
    rw [after] at quiet ⊢
    exact ih quiet.2

theorem Rounded.env_of_quiet {d d' : Design} {touched : List ScopeId} {count : Nat}
    {before after : Design → List Work → Prop} (h : Rounded d d' false touched count before after)
    (wf : d.WellFormed) : d'.env = d.env := by
  obtain ⟨us, ws, _, swept, _⟩ := h.flow
  have quiet : (sweep d.env us).1 = false := by rw [swept]
  have same : (sweep d.env us).2.env = d.env := sweep_env_of_quiet wf.summaries quiet
  rw [swept] at same
  exact same

namespace Statement

mutual

def reached (d : Design) (outer : ScopeId) : Statement → List (ScopeId × Statement)
  | .declare s => [(outer, .declare s)]
  | .assign s => [(outer, .assign s)]
  | .contribute s => [(outer, .contribute s)]
  | .conditional c thnScope thn elsScope els =>
    (outer, .conditional c thnScope thn elsScope els) ::
      (reachedAll d thnScope thn ++ reachedAll d elsScope els)
  | .block inner body => reachedAll d inner body

def reachedAll (d : Design) (outer : ScopeId) : List Statement → List (ScopeId × Statement)
  | [] => []
  | s :: ss =>
    if d.reach (s.ownScope outer) == .never then reachedAll d outer ss
    else s.reached d outer ++ reachedAll d outer ss

end

def Rests (r : Resolver) (d : Design) (outer : ScopeId) : Statement → Prop
  | .declare s => ∀ source, s.source = some source → ∃ t, s.value = some (.declaration s.symbol t) ∧
      source.Held r outer t d ∧ (d.env s.symbol.id).Covers t.summary
  | .assign s => ∃ v t, s.symbol = some v ∧ s.value = some t ∧ s.source.Held r outer t d ∧
      (d.env v.id).Covers t.summary
  | .contribute s => ∃ q t a, s.quantity = some q ∧ s.value = some t ∧ s.summary = some a ∧
      s.source.Held r outer t d ∧ a.Covers t.summary ∧
        (Contribution.vanishes q t = true → s.short = true)
  | .conditional c thnScope _ elsScope _ => ∃ t a, c.value = some t ∧ c.summary = some a ∧
      c.source.Held r outer t d ∧ a.Covers t.summary ∧
      (d.reachOf thnScope, d.reachOf elsScope) = Condition.arms t
  | .block _ _ => True

variable {r : Resolver} {d e : Design} {outer : ScopeId}

theorem Rests.mono (ext : d.Extends e) (env : e.env = d.env) {s : Statement} (h : s.Rests r d outer)
    (own : ∀ x ∈ s.ownScopes, e.reachOf x = d.reachOf x) : s.Rests r e outer := by
  cases s with
  | declare s =>
    intro source written
    obtain ⟨t, value, held, covers⟩ := h source written
    exact ⟨t, value, held.mono ext env, by rw [env]; exact covers⟩
  | assign s =>
    obtain ⟨v, t, symbol, value, held, covers⟩ := h
    exact ⟨v, t, symbol, value, held.mono ext env, by rw [env]; exact covers⟩
  | contribute s =>
    obtain ⟨q, t, a, quantity, value, summary, held, rest⟩ := h
    exact ⟨q, t, a, quantity, value, summary, held.mono ext env, rest⟩
  | conditional c thnScope thn elsScope els =>
    obtain ⟨t, a, value, summary, held, covers, arms⟩ := h
    refine ⟨t, a, value, summary, held.mono ext env, covers, ?_⟩
    rw [own thnScope (by simp [ownScopes]), own elsScope (by simp [ownScopes])]
    exact arms
  | block inner body => exact h

mutual

theorem reached_congr (ext : d.Extends e) (s : Statement) {outer : ScopeId}
    (fits : s.Every (Fits d) outer) (around : ∀ x ∈ d.chain outer, e.reachOf x = d.reachOf x)
    (within : ∀ x ∈ s.scopes, e.reachOf x = d.reachOf x) :
    s.reached e outer = s.reached d outer := by
  cases s with
  | declare s | assign s | contribute s => rfl
  | conditional c thnScope thn elsScope els =>
    obtain ⟨⟨thnFits, elsFits⟩, thnEvery, elsEvery⟩ := fits
    have thnOwn := within thnScope (mem_scopes_of_own (by simp [ownScopes]))
    have elsOwn := within elsScope (mem_scopes_of_own (by simp [ownScopes]))
    have first := reachedAll_congr ext thn thnEvery (around_inner thnFits around thnOwn)
      fun x mem => within x (mem_scopes_thn mem)
    have second := reachedAll_congr ext els elsEvery (around_inner elsFits around elsOwn)
      fun x mem => within x (mem_scopes_els mem)
    simp only [reached, first, second]
  | block inner body =>
    have same := within inner (mem_scopes_of_own (List.mem_singleton_self inner))
    exact reachedAll_congr ext body fits.2 (around_inner fits.1 around same)
      fun x mem => within x (List.mem_append_right _ mem)

theorem reachedAll_congr (ext : d.Extends e) (ss : List Statement) {outer : ScopeId}
    (fits : EveryAll (Fits d) outer ss) (around : ∀ x ∈ d.chain outer, e.reachOf x = d.reachOf x)
    (within : ∀ x ∈ scopesAll ss, e.reachOf x = d.reachOf x) :
    reachedAll e outer ss = reachedAll d outer ss := by
  cases ss with
  | nil => rfl
  | cons s ss =>
    have first : ∀ x ∈ s.scopes, e.reachOf x = d.reachOf x :=
      fun x mem => within x (List.mem_append_left _ mem)
    have rest : ∀ x ∈ scopesAll ss, e.reachOf x = d.reachOf x :=
      fun x mem => within x (List.mem_append_right _ mem)
    have reach := reach_ownScope ext fits.1.own around fun x _ block =>
      first x (block ▸ List.mem_cons_self)
    simp only [reachedAll, reach, reached_congr ext s fits.1 around first,
      reachedAll_congr ext ss fits.2 around rest]

end

mutual

theorem scopes_of_reached (s : Statement) {outer : ScopeId} :
    ∀ x ∈ s.reached d outer, x.2.ownScopes ⊆ s.scopes := by
  cases s with
  | declare s | assign s | contribute s => simp [reached, ownScopes]
  | conditional c thnScope thn elsScope els =>
    intro x mem
    rcases List.mem_cons.mp mem with rfl | inside
    · exact fun y => mem_scopes_of_own
    rcases List.mem_append.mp inside with inThn | inEls
    · exact fun y own => mem_scopes_thn (scopesAll_of_reached thn x inThn own)
    · exact fun y own => mem_scopes_els (scopesAll_of_reached els x inEls own)
  | block inner body =>
    exact fun x mem y own => List.mem_cons_of_mem inner (scopesAll_of_reached body x mem own)

theorem scopesAll_of_reached (ss : List Statement) {outer : ScopeId} :
    ∀ x ∈ reachedAll d outer ss, x.2.ownScopes ⊆ scopesAll ss := by
  cases ss with
  | nil => simp [reachedAll]
  | cons s ss =>
    intro x mem y own
    unfold reachedAll at mem
    split at mem
    · exact List.mem_append_right _ (scopesAll_of_reached ss x mem own)
    rcases List.mem_append.mp mem with first | later
    · exact List.mem_append_left _ (scopes_of_reached s x first own)
    · exact List.mem_append_right _ (scopesAll_of_reached ss x later own)

end

def Settled (r : Resolver) (d : Design) (outer : ScopeId) (ss : List Statement) : Prop :=
  ∀ x ∈ reachedAll d outer ss, x.2.Rests r d x.1

theorem Settled.skip {s : Statement} {ss : List Statement} (h : Settled r d outer ss)
    (skipped : (d.reach (s.ownScope outer) == .never) = true) : Settled r d outer (s :: ss) := by
  intro x mem
  simp only [reachedAll, skipped, ↓reduceIte] at mem
  exact h x mem

theorem Settled.cons {s : Statement} {ss : List Statement}
    (first : ∀ x ∈ s.reached d outer, x.2.Rests r d x.1) (h : Settled r d outer ss) :
    Settled r d outer (s :: ss) := by
  intro x mem
  unfold reachedAll at mem
  split at mem
  · exact h x mem
  · rcases List.mem_append.mp mem with head | tail
    · exact first x head
    · exact h x tail

theorem settled_mono_one (ext : d.Extends e) (env : e.env = d.env) {s : Statement}
    (fits : s.Every (Fits d) outer) (around : ∀ x ∈ d.chain outer, e.reachOf x = d.reachOf x)
    (within : ∀ x ∈ s.scopes, e.reachOf x = d.reachOf x)
    (h : ∀ x ∈ s.reached d outer, x.2.Rests r d x.1) :
    ∀ x ∈ s.reached e outer, x.2.Rests r e x.1 := by
  intro x mem
  rw [reached_congr ext s fits around within] at mem
  exact (h x mem).mono ext env fun y own => within y (scopes_of_reached s x mem own)

theorem Settled.mono (ext : d.Extends e) (env : e.env = d.env) {ss : List Statement}
    (fits : EveryAll (Fits d) outer ss) (around : ∀ x ∈ d.chain outer, e.reachOf x = d.reachOf x)
    (within : ∀ x ∈ scopesAll ss, e.reachOf x = d.reachOf x) (h : Settled r d outer ss) :
    Settled r e outer ss := by
  intro x mem
  rw [reachedAll_congr ext ss fits around within] at mem
  exact (h x mem).mono ext env fun y own => within y (scopesAll_of_reached ss x mem own)

end Statement

theorem Outcome.Yields.done {α β : Type} {u : Outcome α β} {done : β → α → Design → Prop}
    (h : u.Yields done) {b : β} (result : u.result = .ok b) : done b u.value u.design := by
  unfold Yields at h
  rw [result] at h
  exact h

section Leaves

variable {r : Resolver} {outer : ScopeId} {d : Design}

theorem accumulate_quiet {seen : Option Summary} {s : Summary}
    (quiet : (accumulate seen s).1 = false) : (accumulate seen s).2.Covers s := by
  cases seen with
  | none => cases quiet
  | some a => exact Summary.covers_absorb a s

theorem Source.Renewed.covered {source : Source} {t : Tree} {d₁ : Design} {v : VariableId}
    (h : source.Renewed r outer d t d₁) (quiet : (d₁.assign v t.summary).1 = false)
    (env : (d₁.assign v t.summary).2.env = d.env) :
      source.Held r outer t (d₁.assign v t.summary).2 ∧
      ((d₁.assign v t.summary).2.env v).Covers t.summary := by
  refine ⟨h.held (Design.extends_modifyVariable d₁ v _) env, ?_⟩
  rw [env, ← h.kept.env]
  exact Summary.covers_of_grows (h.kept.wellFormed.summaries v) quiet

theorem Declaration.rests (wf : d.WellFormed) (s : Declaration) (fits : s.symbol.id < d.vars.size)
    (quiet : (s.update r outer d).result = .ok false) :
    Statement.Rests r (s.update r outer d).design outer (.declare (s.update r outer d).value) := by
  have env := ((s.rounds r outer wf fits).done quiet).env_of_quiet wf
  cases written : s.source with
  | none =>
    intro source other
    simp only [update, written] at other
    cases other
  | some source =>
    obtain ⟨f, d', run, -⟩ | ⟨t, d₁, run, ⟨u, d', dropped, -⟩ | ⟨d', dropped, renewed⟩⟩ :=
      source.renewal wf r outer s.value
    · simp only [update, written, run] at quiet
      cases quiet
    · simp only [update, written, run, dropped] at quiet
      cases quiet
    · simp only [update, written, run, dropped] at quiet env ⊢
      intro same other
      cases other
      exact ⟨t, rfl, renewed.covered (Except.ok.inj quiet) env⟩

theorem Assignment.rests (wf : d.WellFormed) (s : Assignment)
    (fits : ∀ v, s.symbol = some v → v.id < d.vars.size)
    (quiet : (s.update r outer d).result = .ok false) :
    Statement.Rests r (s.update r outer d).design outer (.assign (s.update r outer d).value) := by
  have env := ((s.rounds r outer wf fits).done quiet).env_of_quiet wf
  cases found : s.target outer d with
  | error cause =>
    simp only [update, found] at quiet
    cases quiet
  | ok v =>
    obtain ⟨f, d', run, -⟩ | ⟨t, d₁, run, ⟨u, d', dropped, -⟩ | ⟨d', dropped, renewed⟩⟩ :=
      s.source.renewal wf r outer s.value
    · simp only [update, found, run] at quiet
      cases quiet
    · simp only [update, found, run, dropped] at quiet
      cases quiet
    · simp only [update, found, run, dropped] at quiet env ⊢
      exact ⟨v, t, rfl, rfl, renewed.covered (Except.ok.inj quiet) env⟩

theorem Contribution.rests (wf : d.WellFormed) (s : Contribution)
    (quiet : (s.update r outer d).result = .ok false) :
    Statement.Rests r (s.update r outer d).design outer
    (.contribute (s.update r outer d).value) := by
  have env := ((s.rounds r outer wf).done quiet).env_of_quiet wf
  obtain ⟨kept, -, located⟩ := s.locate_kept r outer wf
  cases result : (s.locate r outer d).result with
  | error f =>
    simp only [update, result] at quiet
    cases quiet
  | ok q =>
    have value := located.done result
    obtain ⟨f, d', run, -⟩ | ⟨t, d₁, run, ⟨u, d', dropped, -⟩ | ⟨d', dropped, renewed⟩⟩ :=
      s.source.renewal kept.wellFormed r outer s.value
    · simp only [update, result, run] at quiet
      cases quiet
    · simp only [update, result, run, value, accept, dropped] at quiet
      cases quiet
    · simp only [update, result, run, value, accept, dropped] at quiet env ⊢
      have after : d'.Extends (if (!s.short && vanishes q t) = true then shorten q outer d'
          else d') := by
        split
        · exact (shorten_kept renewed.kept.wellFormed q outer).grown
        · exact .refl d'
      split at quiet
      · cases quiet
      refine ⟨q, t, _, rfl, rfl, rfl, (renewed.ofKept kept).held after env,
        accumulate_quiet (Except.ok.inj quiet), fun vanishing => ?_⟩
      rw [vanishing]
      cases s.short <;> rfl

theorem Source.Fixed.unique {source : Source} {t u : Tree} (first : source.Fixed r outer t d)
    (second : source.Fixed r outer u d) (wf : d.WellFormed) :
    t.refresh d.snapshot = u.refresh d.snapshot := by
  obtain ⟨_, run, -⟩ := first d (.refl d) wf
  obtain ⟨_, again, -⟩ := second d (.refl d) wf
  rw [run] at again
  exact (EStateM.Result.ok.inj again).1

theorem Condition.rests (wf : d.WellFormed) {thnScope elsScope : ScopeId} (c : Condition)
    (thn els : List Statement) (thnInside : thnScope < d.scopes.size)
    (elsInside : elsScope < d.scopes.size) (apart : thnScope ≠ elsScope)
    (quiet : (c.update r outer thnScope elsScope d).result = .ok false) :
    Statement.Rests r (c.update r outer thnScope elsScope d).design outer
      (.conditional (c.update r outer thnScope elsScope d).value thnScope thn elsScope els) := by
  have round := (c.rounds r outer wf thnInside elsInside apart).done quiet
  have env := round.env_of_quiet wf
  obtain ⟨_, _, _, _, ⟨t', fixed, arms, _⟩, _⟩ := round.flow
  have wf' := round.wellFormed
  obtain ⟨f, d', run, -⟩ | ⟨t, d₁, run, ⟨u, d', dropped, -⟩ | ⟨d', dropped, renewed⟩⟩ :=
    c.source.renewal wf r outer c.value
  · simp only [update, run] at quiet
    cases quiet
  · simp only [update, run, dropped] at quiet
    cases quiet
  · simp only [update, run, dropped] at quiet env fixed arms wf' ⊢
    have grown := (Design.extends_setReach d' thnScope (Condition.arms t).1
      (t.source d'.circuit)).trans
      (Design.extends_setReach _ elsScope (Condition.arms t).2 ("!(" ++ t.source d'.circuit ++ ")"))
    have held := renewed.held grown env
    have same : Condition.arms t' = Condition.arms t := by
      rw [← arms_refresh _ t', fixed.unique held.fixed wf', arms_refresh]
    exact ⟨t, _, rfl, rfl, held, accumulate_quiet (Except.ok.inj quiet), arms.trans same⟩

end Leaves

namespace Statement

variable {r : Resolver}

theorem or_quiet {a : Bool} {x : Except Failure Bool} (h : x.map (a || ·) = .ok false) :
    a = false ∧ x = .ok false := by
  cases x with
  | error f => cases h
  | ok b =>
    have both : (a || b) = false := Except.ok.inj h
    rw [Bool.or_eq_false_iff] at both
    exact ⟨both.1, congrArg Except.ok both.2⟩

mutual

theorem update_settles (r : Resolver) {outer : ScopeId} {d : Design} (wf : d.WellFormed)
    (s : Statement) (nested : s.Nested d outer) (quiet : (s.update r outer d).result = .ok false) :
    ∀ x ∈ (s.update r outer d).value.reached (s.update r outer d).design outer,
      x.2.Rests r (s.update r outer d).design x.1 := by
  cases s with
  | declare s | assign s => exact List.forall_mem_singleton.mpr (s.rests wf nested.fits quiet)
  | contribute s => exact List.forall_mem_singleton.mpr (s.rests wf quiet)
  | conditional c thnScope thn elsScope els =>
    have apart := nested.arms_ne
    have thnInside := scope_lt nested.fits.1.1
    have elsInside := scope_lt nested.fits.1.2
    simp only [update] at quiet ⊢
    obtain ⟨f, failed, _⟩ | ⟨a, done, first⟩ :=
      (c.rounds r outer wf thnInside elsInside apart).cases
    · simp only [failed] at quiet
      cases quiet
    simp only [done] at quiet ⊢
    obtain ⟨f, failed, _⟩ | ⟨b, thnDone, second⟩ :=
      (updateAll_rounds r first.wellFormed thn (nested.thnBody.extends first.grown)).cases
    · simp only [failed] at quiet
      cases quiet
    simp only [thnDone] at quiet ⊢
    obtain ⟨flags, elsQuiet⟩ := or_quiet quiet
    obtain ⟨rfl, rfl⟩ := Bool.or_eq_false_iff.mp flags
    have grown := first.grown.trans second.rounded.grown
    have elsNested := nested.elsBody.extends grown
    have third := (updateAll_rounds r second.rounded.wellFormed els elsNested).done elsQuiet
    have thnEnv := second.rounded.env_of_quiet first.wellFormed
    have elsEnv := third.rounded.env_of_quiet second.rounded.wellFormed
    refine List.forall_mem_cons.mpr ⟨?_, List.forall_mem_append.mpr ⟨?_, ?_⟩⟩
    · refine (c.rests wf _ _ thnInside elsInside apart done).mono
        (second.rounded.grown.trans third.rounded.grown) (elsEnv.trans thnEnv) fun x mem => ?_
      have out := nested.arms_apart x mem
      rw [third.rounded.outside x fun inside => out (List.mem_append_right _ inside),
        second.rounded.outside x fun inside => out (List.mem_append_left _ inside)]
    · have thnNested := nested.thnBody.extends first.grown
      refine (updateAll_settles r first.wellFormed thn thnNested thnDone).mono
        third.rounded.grown elsEnv
        (everyAll_fits second.rounded.grown second.fits) ?_ ?_
      · rw [grown.chain]
        exact fun x mem => third.rounded.outside x (nested.around_thn x mem)
      · rw [second.scopes]
        exact fun x mem => third.rounded.outside x (nested.blocks_apart x mem)
    · exact updateAll_settles r second.rounded.wellFormed els elsNested elsQuiet
  | block inner body => exact updateAll_settles r wf body nested.body quiet

theorem updateAll_settles (r : Resolver) {outer : ScopeId} {d : Design} (wf : d.WellFormed)
    (ss : List Statement) (nested : NestedAll d outer ss)
    (quiet : (updateAll r outer ss d).result = .ok false) :
    Settled r (updateAll r outer ss d).design outer (updateAll r outer ss d).value := by
  cases ss with
  | nil => exact fun x mem => absurd mem List.not_mem_nil
  | cons s ss =>
    by_cases skipped : (d.reach (s.ownScope outer) == .never) = true
    · simp only [updateAll, skipped, ↓reduceIte] at quiet ⊢
      have round := (updateAll_rounds r wf ss nested.tail).done quiet
      have reach := nested.head.reach_kept round.rounded.grown round.rounded.outside
        nested.around_tail
        fun x _ block => nested.own_tail x (block ▸ List.mem_cons_self)
      exact (updateAll_settles r wf ss nested.tail quiet).skip (reach ▸ skipped)
    · simp only [updateAll, skipped, Bool.false_eq_true, ↓reduceIte] at quiet ⊢
      obtain ⟨f, failed, _⟩ | ⟨a, done, first⟩ := (update_rounds r wf s nested.head).cases
      · simp only [failed] at quiet
        cases quiet
      simp only [done] at quiet ⊢
      obtain ⟨rfl, tailQuiet⟩ := or_quiet quiet
      have after := nested.tail.extends first.rounded.grown
      have second := (updateAll_rounds r first.rounded.wellFormed ss after).done tailQuiet
      refine .cons ?_ (updateAll_settles r first.rounded.wellFormed ss after tailQuiet)
      refine settled_mono_one second.rounded.grown
        (second.rounded.env_of_quiet first.rounded.wellFormed)
        (every_fits first.rounded.grown first.fits) ?_ ?_ (update_settles r wf s nested.head done)
      · rw [first.rounded.grown.chain]
        exact fun x mem => second.rounded.outside x (nested.around_tail x mem)
      · rw [first.scopes]
        exact fun x mem => second.rounded.outside x (nested.own_tail x mem)

end

end Statement

structure Design.Still (d d' : Design) : Prop where
  frame : { d' with scopes := d.scopes } = d
  grown : d.Extends d'
  wellFormed : d'.WellFormed
  reach : ∀ x, d'.reachOf x = d.reachOf x

namespace Design

variable {a b c d : Design}

theorem Still.refl (wf : d.WellFormed) : d.Still d := ⟨rfl, .refl d, wf, fun _ => rfl⟩

theorem Still.trans (ab : a.Still b) (bc : b.Still c) : a.Still c where
  frame := by
    have inner : { c with scopes := a.scopes } = { b with scopes := a.scopes } :=
      congrArg (fun x : Design => { x with scopes := a.scopes }) bc.frame
    exact inner.trans ab.frame
  grown := ab.grown.trans bc.grown
  wellFormed := bc.wellFormed
  reach x := (bc.reach x).trans (ab.reach x)

theorem Still.vars (h : a.Still b) : b.vars = a.vars := by rw [← h.frame]

theorem Still.env (h : a.Still b) : b.env = a.env := by
  funext v
  rw [Design.env, Design.env, variableOf, variableOf, h.vars]

theorem Still.setReach (wf : d.WellFormed) {s : ScopeId} {reach : Reach}
    (same : d.reachOf s = reach) (condition : String) : d.Still (d.setReach s reach condition) := by
  refine ⟨rfl, extends_setReach d s reach condition, wf.setReach s reach condition, fun x => ?_⟩
  simp only [reachOf, Design.setReach, scopeOf_modifyScope]
  split
  · rename_i here
    rw [here.1, ← same]
    rfl
  · rfl

theorem assign_covered {v : VariableId} {s : Summary} (h : (d.env v).Covers s) :
    d.assign v s = (false, d) := by
  have kept : { d.variableOf v with summary := (d.variableOf v).summary.absorb s } =
    d.variableOf v := by
    rw [show (d.variableOf v).summary.absorb s = (d.variableOf v).summary from h.kept]
  have vars : d.vars.modify v (fun var => { var with summary := var.summary.absorb s })
    = d.vars := by
    refine Array.ext (by simp) fun i inside inside' => ?_
    rw [Array.getElem_modify]
    split
    · rename_i here
      subst here
      simpa [variableOf, Array.getD, inside'] using kept
    · rfl
  refine Prod.ext h.quiet ?_
  simp only [assign, modifyVariable, vars]

end Design

section Leaves

variable {r : Resolver} {outer : ScopeId} {d : Design}

theorem Declaration.update_of_rests (wf : d.WellFormed) {s : Declaration}
    (h : Statement.Rests r d outer (.declare s)) : s.update r outer d = ⟨s, d, .ok false⟩ := by
  cases written : s.source with
  | none => simp only [update, written]
  | some source =>
    obtain ⟨t, value, held, covers⟩ := h source written
    have uses : (Tree.declaration s.symbol t).uses = t.uses := rfl
    obtain ⟨e, run, dropped⟩ := held.renews wf uses
    simp only [update, written, run, value, dropped, Design.assign_covered covers]
    rw [← value, ← written]

theorem Assignment.update_of_rests (wf : d.WellFormed) {s : Assignment}
    (h : Statement.Rests r d outer (.assign s)) : s.update r outer d = ⟨s, d, .ok false⟩ := by
  obtain ⟨v, t, symbol, value, held, covers⟩ := h
  obtain ⟨e, run, dropped⟩ := held.renews wf rfl
  simp only [update, target, symbol, run, value, dropped, Design.assign_covered covers]
  rw [← value, ← symbol]

theorem accumulate_covered {a s : Summary} (h : a.Covers s) : accumulate (some a) s = (false, a) :=
  Prod.ext h.quiet h.kept

theorem Contribution.update_of_rests (wf : d.WellFormed) {s : Contribution}
    (h : Statement.Rests r d outer (.contribute s)) : s.update r outer d = ⟨s, d, .ok false⟩ := by
  obtain ⟨q, t, a, quantity, value, summary, held, covers, vanishing⟩ := h
  obtain ⟨e, run, dropped⟩ := held.renews wf rfl
  have shorts : (!s.short && vanishes q t) = false := by
    cases vanished : vanishes q t with
    | false => simp
    | true => simp [vanishing vanished]
  simp only [update, locate, quantity, run, accept, value, dropped, shorts, summary,
    accumulate_covered covers, Bool.false_and, Bool.false_eq_true, ↓reduceIte, Bool.or_false]
  rw [← value, ← summary, ← quantity]

theorem Condition.update_of_rests (wf : d.WellFormed) {c : Condition} {thnScope elsScope : ScopeId}
    {thn els : List Statement}
    (h : Statement.Rests r d outer (.conditional c thnScope thn elsScope els)) :
    ∃ d', c.update r outer thnScope elsScope d = ⟨c, d', .ok false⟩ ∧ d.Still d' := by
  obtain ⟨t, a, value, summary, held, covers, reach⟩ := h
  obtain ⟨e, run, dropped⟩ := held.renews wf rfl
  simp only [update, run, value, dropped, summary, accumulate_covered covers, ← reach]
  refine ⟨_, by rw [← value, ← summary], ?_⟩
  have first : d.Still (d.setReach thnScope (d.reachOf thnScope) (t.source d.circuit)) :=
    .setReach wf rfl _
  exact first.trans (.setReach first.wellFormed (first.reach elsScope) _)

end Leaves

namespace Statement

mutual

theorem update_of_rests (r : Resolver) {outer : ScopeId} {d : Design} (wf : d.WellFormed)
    (s : Statement)
    (fits : s.Every (Fits d) outer) (h : ∀ x ∈ s.reached d outer, x.2.Rests r d x.1) :
    ∃ d', s.update r outer d = ⟨s, d', .ok false⟩ ∧ d.Still d' := by
  cases s with
  | declare s =>
    have one := Declaration.update_of_rests wf (h _ (List.mem_singleton_self _))
    exact ⟨d, by rw [update, one], .refl wf⟩
  | assign s =>
    have one := Assignment.update_of_rests wf (h _ (List.mem_singleton_self _))
    exact ⟨d, by rw [update, one], .refl wf⟩
  | contribute s =>
    have one := Contribution.update_of_rests wf (h _ (List.mem_singleton_self _))
    exact ⟨d, by rw [update, one], .refl wf⟩
  | conditional c thnScope thn elsScope els =>
    obtain ⟨own, inner⟩ := List.forall_mem_cons.mp h
    obtain ⟨thnRests, elsRests⟩ := List.forall_mem_append.mp inner
    obtain ⟨d₁, first, still⟩ := Condition.update_of_rests wf own
    have thnSettled : Settled r d₁ thnScope thn :=
      Settled.mono still.grown still.env fits.2.1 (fun x _ => still.reach x)
        (fun x _ => still.reach x) thnRests
    obtain ⟨d₂, second, still₂⟩ := updateAll_of_rests r still.wellFormed thn
      (everyAll_fits still.grown fits.2.1) thnSettled
    have both := still.trans still₂
    have elsSettled : Settled r d₂ elsScope els :=
      Settled.mono both.grown both.env fits.2.2 (fun x _ => both.reach x)
        (fun x _ => both.reach x) elsRests
    obtain ⟨d₃, third, still₃⟩ := updateAll_of_rests r both.wellFormed els
      (everyAll_fits both.grown fits.2.2) elsSettled
    refine ⟨d₃, ?_, both.trans still₃⟩
    simp only [update, first, second, third]
    rfl
  | block inner body =>
    obtain ⟨d', run, still⟩ := updateAll_of_rests r wf body fits.2 h
    exact ⟨d', by simp only [update, run], still⟩

theorem updateAll_of_rests (r : Resolver) {outer : ScopeId} {d : Design} (wf : d.WellFormed)
    (ss : List Statement) (fits : EveryAll (Fits d) outer ss) (h : Settled r d outer ss) :
    ∃ d', updateAll r outer ss d = ⟨ss, d', .ok false⟩ ∧ d.Still d' := by
  cases ss with
  | nil => exact ⟨d, rfl, .refl wf⟩
  | cons s ss =>
    by_cases skipped : (d.reach (s.ownScope outer) == .never) = true
    · simp only [Settled, reachedAll, skipped, ↓reduceIte] at h
      obtain ⟨d', run, still⟩ := updateAll_of_rests r wf ss fits.2 h
      exact ⟨d', by simp only [updateAll, skipped, ↓reduceIte, run], still⟩
    · simp only [Settled, reachedAll, skipped, Bool.false_eq_true, ↓reduceIte] at h
      obtain ⟨head, tail⟩ := List.forall_mem_append.mp h
      obtain ⟨d₁, first, still⟩ := update_of_rests r wf s fits.1 head
      have settled : Settled r d₁ outer ss :=
        Settled.mono still.grown still.env fits.2 (fun x _ => still.reach x)
          (fun x _ => still.reach x) tail
      obtain ⟨d₂, second, still₂⟩ := updateAll_of_rests r still.wellFormed ss
        (everyAll_fits still.grown fits.2) settled
      refine ⟨d₂, ?_, still.trans still₂⟩
      simp only [updateAll, skipped, Bool.false_eq_true, ↓reduceIte, first, second]
      rfl

end

end Statement
end Analog
