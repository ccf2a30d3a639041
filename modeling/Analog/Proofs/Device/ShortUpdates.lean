import Analog.Proofs.Device.OrderedAssembly
import Analog.Proofs.Resolver.MarksIgnored

/-!
Shorts that hold form no cycle. A short is laid only where it does not lead back, and one that was
laid under a guard never comes to hold: a condition tells once and for all how its blocks are
reached. So updates keep the shorts of a design untangled, whatever the statements are resolved to.
-/
namespace Analog

theorem Reach.join_eq_always {a b : Reach} : a.join b = .always ↔ a = .always ∧ b = .always := by
  cases a <;> cases b <;> decide

namespace Design

variable {d e : Design}

theorem always_iff {s : ScopeId} : d.always s = true ↔ ∀ x ∈ d.chain s, d.reachOf x = .always := by
  have folded : ∀ (xs : List ScopeId) (start : Reach),
      xs.foldl (fun r t => r.join (d.scopeOf t).reach) start = .always ↔
        start = .always ∧ ∀ x ∈ xs, d.reachOf x = .always := by
    intro xs
    induction xs with
    | nil => simp
    | cons x xs ih =>
      intro start
      rw [List.foldl_cons, ih, Reach.join_eq_always, List.forall_mem_cons, and_assoc]
      exact Iff.rfl
  rw [always, beq_iff_eq, reach, folded]
  exact ⟨fun h => h.2, fun h => ⟨rfl, h⟩⟩

/-- No scope that may be passed over has become one that is sure to be entered. -/
structure Shuts (d e : Design) : Prop extends d.Spares e where
  shut : ∀ s, e.reachOf s = .always → d.reachOf s = .always

theorem Shuts.always (h : d.Shuts e) {s : ScopeId} (inside : s < d.scopes.size)
    (passed : d.always s = false) : e.always s = false := by
  rw [Bool.eq_false_iff] at passed ⊢
  intro entered
  refine passed (always_iff.mpr fun x mem => h.shut x (always_iff.mp entered x ?_))
  rw [chain_widens h.toSpares inside]
  exact mem

/-- The shorts of a design that is in order: no guard of them holds, and the others form no
cycle. -/
structure Untangled (d : Design) : Prop where
  guards : ∀ i target g, (d.circuit.node i).short = some ⟨target, some g⟩ →
    g < d.scopes.size ∧ d.always g = false
  acyclic : d.circuit.Acyclic d.always

def SameShorts (d e : Design) : Prop := ∀ i, (e.circuit.node i).short = (d.circuit.node i).short

theorem SameShorts.trans {a b c : Design} (ab : a.SameShorts b) (bc : b.SameShorts c) :
    a.SameShorts c :=
  fun i => (bc i).trans (ab i)

theorem short_push (c : Circuit) (name : String) (k : Nat) (i : NodeId) :
    (Circuit.node ⟨c.nodes.push ⟨name, none⟩, c.branches, k⟩ i).short = (c.node i).short := by
  rw [Circuit.node, getD_push]
  split
  · rename_i last
    rw [Circuit.node_of_size_le (Nat.le_of_eq last.symm)]
    rfl
  · rfl

theorem sameShorts_connect {p n : NodeId} {ref : BranchRef} {c : Circuit}
    (made : d.circuit.connect p n = .ok (ref, c)) : d.SameShorts { d with circuit := c } := by
  obtain ⟨-, ⟨-, rfl⟩ | ⟨-, -, rfl⟩⟩ := Circuit.connect_cases made <;> exact fun _ => rfl

theorem upheld_sameShorts : Upheld (fun _ => True) SameShorts where
  refl _ _ := rfl
  trans := .trans
  recount same i := by
    rw [Circuit.node, Circuit.nodes_eq_of_uncounted same]
    rfl
  connect := sameShorts_connect
  filter {d _} _ _ stem i := by
    rw [Circuit.addFilter_eq]
    exact short_push d.circuit _ (d.circuit.freeFilter stem + 1) i

theorem Untangled.mono (h : d.Untangled) (shorts : d.SameShorts e) (shuts : d.Shuts e) :
    e.Untangled where
  guards i target g short := by
    obtain ⟨inside, passed⟩ := h.guards i target g (shorts i ▸ short)
    exact ⟨Nat.lt_of_lt_of_le inside shuts.scopes, shuts.always inside passed⟩
  acyclic i cycle := by
    refine h.acyclic i (Relation.TransGen.mono (fun x y lays => ?_) i i cycle)
    rw [Circuit.Lays, Circuit.activeTarget?, shorts x] at lays
    rw [Circuit.Lays, Circuit.activeTarget?]
    split at lays
    · rename_i short found
      obtain ⟨target, guard⟩ := short
      cases guard with
      | none => exact lays
      | some g =>
        obtain ⟨inside, passed⟩ := h.guards x target g found
        simp [shuts.always inside passed] at lays
    · cases lays

theorem Untangled.lay (h : d.Untangled) (i target : NodeId) {scope : ScopeId}
    (inside : scope < d.scopes.size) : Untangled { d with
      circuit := d.circuit.lay d.always i target (if d.always scope then none else some scope)
      } where
  guards j t g short := by
    rcases d.circuit.lay_cases d.always i target (if d.always scope then none else some scope) with
      same | ⟨laid, -⟩
    · exact h.guards j t g (same ▸ short)
    · rw [laid, Circuit.node_modifyNode] at short
      split at short
      · split at short
        · cases short
        · rename_i passed
          cases short
          exact ⟨inside, Bool.eq_false_iff.mpr passed⟩
      · exact h.guards j t g short
  acyclic := h.acyclic.lay i target _

/-- Work on a design that has no part in its scopes and shorts. -/
structure Idles (d e : Design) : Prop where
  grown : d.Extends e
  wellFormed : e.WellFormed
  scopes : e.scopes = d.scopes
  expressions : e.expressions = d.expressions
  shorts : d.SameShorts e

namespace Idles

theorem refl (wf : d.WellFormed) : d.Idles d := ⟨.refl d, wf, rfl, rfl, fun _ => rfl⟩

theorem trans {a b c : Design} (ab : a.Idles b) (bc : b.Idles c) : a.Idles c :=
  ⟨ab.grown.trans bc.grown, bc.wellFormed, bc.scopes.trans ab.scopes,
    bc.expressions.trans ab.expressions, fun i => (bc.shorts i).trans (ab.shorts i)⟩

theorem recount (wf : d.WellFormed) {c : Circuit} (same : c.uncounted = d.circuit.uncounted) :
    d.Idles { d with circuit := c } := by
  obtain ⟨grown, wf', _, scopes⟩ := Kept.ofUncounted wf same
  exact ⟨grown, wf', scopes, rfl, upheld_sameShorts.recount same⟩

theorem assign (wf : d.WellFormed) (v : VariableId) (s : Summary) : d.Idles (d.assign v s).2 :=
  ⟨extends_modifyVariable d v _, wf.assign v s, rfl, rfl, fun _ => rfl⟩

theorem shuts (h : d.Idles e) : d.Shuts e :=
  ⟨h.grown.spares, fun s always => by rwa [reachOf, scopeOf, h.scopes] at always⟩

end Idles

theorem upheld_idles : Upheld (fun _ => True) fun d e => d.WellFormed → d.Idles e where
  refl _ := .refl
  trans ab bc wf := (ab wf).trans (bc (ab wf).wellFormed)
  recount same wf := .recount wf same
  connect made wf := by
    have grown := Circuit.connect_extends made
    exact ⟨extends_circuit grown (Circuit.keepsNames_connect made),
      wf.withCircuit grown (wf.circuit.connect made), rfl, rfl, sameShorts_connect made⟩
  filter {_ site} allowed fresh stem wf :=
    ⟨extends_addFilter fresh stem, wf.addFilter site stem, rfl, rfl,
      upheld_sameShorts.filter allowed fresh stem⟩

end Design

/-- From `d` to `d'` statements were worked on: the reach of no scope but those of `touched` has
changed, and none was opened. -/
structure Narrows (d : Design) (touched : List ScopeId) (d' : Design) : Prop where
  grown : d.Extends d'
  wellFormed : d'.WellFormed
  outside : ∀ x, x ∉ touched → d'.reachOf x = d.reachOf x
  shut : ∀ x, d'.reachOf x = .always → d.reachOf x = .always
  untangled : d.Untangled → d'.Untangled

namespace Narrows

variable {d d₁ d₂ : Design} {touched touched₁ touched₂ : List ScopeId}

theorem ofIdles (h : d.Idles d₁) : Narrows d touched d₁ where
  grown := h.grown
  wellFormed := h.wellFormed
  outside x _ := by rw [Design.reachOf, Design.scopeOf, h.scopes]; rfl
  shut := h.shuts.shut
  untangled before := before.mono h.shorts h.shuts

theorem refl (wf : d.WellFormed) : Narrows d touched d := .ofIdles (.refl wf)

theorem trans (first : Narrows d touched₁ d₁) (second : Narrows d₁ touched₂ d₂) :
    Narrows d (touched₁ ++ touched₂) d₂ where
  grown := first.grown.trans second.grown
  wellFormed := second.wellFormed
  outside x away := by
    rw [List.mem_append, not_or] at away
    rw [second.outside x away.2, first.outside x away.1]
  shut x always := first.shut x (second.shut x always)
  untangled before := second.untangled (first.untangled before)

theorem mono (h : Narrows d touched₁ d₁) (subset : ∀ x ∈ touched₁, x ∈ touched) :
    Narrows d touched d₁ :=
  ⟨h.grown, h.wellFormed, fun x away => h.outside x fun mem => away (subset x mem),
    h.shut, h.untangled⟩

end Narrows

namespace Statement

/-- A condition that was resolved still tells how its blocks are reached. One that was not leaves
both of them open. -/
def Decided (r : Resolver) (d : Design) (outer : ScopeId) : Statement → Prop
  | .conditional c thnScope _ elsScope _ =>
    (c.value = none → d.reachOf thnScope = .always ∧ d.reachOf elsScope = .always) ∧
    (c.value ≠ none → c.source.Decides r outer (d.reachOf thnScope, d.reachOf elsScope) d)
  | _ => True

section Decided

variable {r : Resolver} {d e : Design} {outer : ScopeId}

theorem Decided.mono {s : Statement} (h : s.Decided r d outer)
    (later : ∀ c thnScope thn elsScope els, s = .conditional c thnScope thn elsScope els →
      c.value ≠ none →
      d.bare.Remains outer e.bare) (own : ∀ x ∈ s.ownScopes, e.reachOf x = d.reachOf x) : s.Decided
      r e outer := by
  cases s with
  | conditional c thnScope thn elsScope els =>
    obtain ⟨unresolved, resolved⟩ := h
    have thnSame := own thnScope List.mem_cons_self
    have elsSame := own elsScope (List.mem_cons_of_mem _ List.mem_cons_self)
    simp only [Decided, thnSame, elsSame]
    exact ⟨unresolved, fun held => (resolved held).mono (later _ _ _ _ _ rfl held)⟩
  | _ => trivial

theorem shallow_decided : Shallow (Decided r d) := by
  intro outer arm new s h
  cases s <;> cases arm <;> exact h

variable {touched : List ScopeId} (narrows : Narrows d touched e)

include narrows

theorem everyAll_decided (ss : List Statement) (apart : ∀ x ∈ scopesAll ss, x ∉ touched)
    (h : EveryAll (Decided r d) outer ss) : EveryAll (Decided r e) outer ss :=
  EveryAll.mono_own (fun outer _ own decided => decided.mono
    (fun _ _ _ _ _ _ _ => (narrows.grown.remains outer).bare)
    fun x mem => narrows.outside x (own x mem)) ss apart h

theorem every_decided (s : Statement) (apart : ∀ x ∈ s.scopes, x ∉ touched)
    (h : s.Every (Decided r d) outer) : s.Every (Decided r e) outer :=
  (everyAll_decided narrows [s] (by rwa [scopesAll, gatherAll_singleton]) ⟨h, trivial⟩).1

end Decided
end Statement

section Leaves

variable {r : Resolver} {d : Design} {outer : ScopeId} {thnScope elsScope : ScopeId}

theorem Design.sustained_narrows (outer : ScopeId) :
    Sustained (fun _ => True) outer fun d e => d.WellFormed → outer < d.scopes.size →
    Narrows d [] e where
  refl _ wf _ := .refl wf
  trans ab bc wf inside := by
    have first := ab wf inside
    exact first.trans (bc first.wellFormed (first.grown.scopes ▸ inside))
  recount same wf _ := .ofIdles (upheld_idles.recount same wf)
  connect made wf _ := .ofIdles (upheld_idles.connect made wf)
  filter allowed fresh stem wf _ := .ofIdles (upheld_idles.filter allowed fresh stem wf)
  assign d v s wf _ := .ofIdles (.assign wf v s)
  shorten d q wf inside := by
    have taken := Idles.recount wf (Circuit.uncounted_take d.circuit q.ref.branch .short)
    have kept := Contribution.shorten_kept wf q outer
    refine ⟨kept.grown, kept.wellFormed, fun x _ => ?_, fun x always => ?_, fun before => ?_⟩
    · rw [reachOf, scopeOf, kept.scopes]
      rfl
    · rwa [reachOf, scopeOf, kept.scopes] at always
    · exact (before.mono taken.shorts taken.shuts).lay _ _ inside

open Statement

theorem Condition.narrows (r : Resolver) (wf : d.WellFormed) (c : Condition)
    {thn els : List Statement} (nested : Nested d outer (.conditional c thnScope thn elsScope els))
    (decided : Decided r d outer (.conditional c thnScope thn elsScope els)) :
    Narrows d [thnScope, elsScope] (c.update r outer thnScope elsScope d).design ∧
      Decided r (c.update r outer thnScope elsScope d).design outer
        (.conditional (c.update r outer thnScope elsScope d).value thnScope thn elsScope els) := by
  obtain ⟨unresolved, resolved⟩ := decided
  have idle : ∀ {d'}, d.Idles d' → Narrows d [thnScope, elsScope] d' ∧
      Decided r d' outer (.conditional c thnScope thn elsScope els) := by
    intro d' idles
    have narrows : Narrows d [] d' := .ofIdles idles
    exact ⟨.ofIdles idles, Decided.mono ⟨unresolved, resolved⟩
      (fun _ _ _ _ _ _ _ => (idles.grown.remains outer).bare) fun x _ =>
        narrows.outside x List.not_mem_nil⟩
  obtain ⟨failed, worked⟩ := c.source.renew_stays (r := r) Design.upheld_idles
    (fun _ _ _ _ => trivial) outer d
    c.value
  unfold update
  split
  · rename_i f d' run
    exact idle (failed _ _ run wf)
  · rename_i t d₁ run
    split
    · rename_i f d' dropped
      exact idle ((worked _ _ run).1 _ _ dropped wf)
    · rename_i d' dropped
      have idles := (worked _ _ run).2 _ _ dropped wf
      have lasts : c.source.Decides r outer (arms t) d' := by
        have drops : DesignM.Stays (fun d e => d.WellFormed → d.Idles e) (dropTree c.value) d₁ :=
          Design.upheld_idles.giveAll _ d₁
        have wf₁ := (Source.kept_of_ok wf run).wellFormed
        exact (Source.decides_of_resolve wf run).mono
          ((drops.ok dropped wf₁).grown.remains outer).bare
      obtain ⟨grown, wf', reach⟩ := Design.setReach_both (idles.scopes ▸ scope_lt nested.fits.1.1)
        (idles.scopes ▸ scope_lt nested.fits.1.2) (arms t) (t.source d'.circuit)
        ("!(" ++ t.source d'.circuit ++ ")")
      have same : ∀ x, d'.reachOf x = d.reachOf x := fun x => by
        rw [Design.reachOf, Design.scopeOf, idles.scopes]
        rfl
      dsimp only
      set d₂ := (d'.setReach thnScope (arms t).1 (t.source d'.circuit)).setReach elsScope (arms t).2
        ("!(" ++ t.source d'.circuit ++ ")")
      have wf₂ : d₂.WellFormed := wf' idles.wellFormed
      have shut : ∀ x, d₂.reachOf x = .always → d.reachOf x = .always := by
        intro x always
        rw [reach] at always
        by_cases held : c.value = none
        · obtain ⟨thnOpen, elsOpen⟩ := unresolved held
          grind
        · have before := (resolved held).arms_eq wf run
          grind
      refine ⟨⟨idles.grown.trans grown, wf₂, fun x away => ?_, shut, fun before => ?_⟩,
        ?_, fun _ => ?_⟩
      · simp only [List.mem_cons, List.not_mem_nil, or_false, not_or] at away
        rw [reach, if_neg away.2, if_neg away.1, same]
      · exact before.mono (fun i => idles.shorts i) ⟨(idles.grown.trans grown).spares, shut⟩
      · exact fun none => absurd none (Option.some_ne_none t)
      · rw [reach, reach, if_neg nested.arms_ne, if_pos rfl, if_pos rfl]
        exact lasts.mono (grown.remains outer).bare

end Leaves

namespace Statement

structure Turns (r : Resolver) (outer : ScopeId) (s : Statement) (d : Design) (s' : Statement)
    (d' : Design) : Prop where
  scopes : s'.scopes = s.scopes
  narrows : Narrows d s.scopes d'
  decided : s'.Every (Decided r d') outer

structure TurnsAll (r : Resolver) (outer : ScopeId) (ss : List Statement) (d : Design)
    (ss' : List Statement) (d' : Design) : Prop where
  scopes : scopesAll ss' = scopesAll ss
  narrows : Narrows d (scopesAll ss) d'
  decided : EveryAll (Decided r d') outer ss'

section Turns

variable {r : Resolver} {outer : ScopeId} {d d₁ d₂ d₃ : Design}

theorem Turns.refl {s : Statement} (wf : d.WellFormed) (decided : s.Every (Decided r d) outer) :
    Turns r outer s d s d := ⟨rfl, .refl wf, decided⟩

theorem TurnsAll.refl {ss : List Statement} (wf : d.WellFormed)
    (decided : EveryAll (Decided r d) outer ss) :
    TurnsAll r outer ss d ss d := ⟨rfl, .refl wf, decided⟩

theorem TurnsAll.cons {s s' : Statement} {ss ss' : List Statement}
    (nested : NestedAll d outer (s :: ss))
    (first : Turns r outer s d s' d₁) (second : TurnsAll r outer ss d₁ ss' d₂) :
    TurnsAll r outer (s :: ss) d (s' :: ss') d₂ where
  scopes := congrArg₂ (· ++ ·) first.scopes second.scopes
  narrows := first.narrows.trans second.narrows
  decided := by
    refine ⟨every_decided second.narrows s' ?_ first.decided, second.decided⟩
    rw [first.scopes]
    exact nested.own_tail

theorem Turns.conditional {c c' : Condition} {thnScope elsScope : ScopeId}
    {thn thn' els els' : List Statement}
    (nested : Nested d outer (.conditional c thnScope thn elsScope els))
    (condition : Narrows d [thnScope, elsScope] d₁)
    (decided : Decided r d₁ outer (.conditional c' thnScope thn elsScope els))
    (first : TurnsAll r thnScope thn d₁ thn' d₂) (second : TurnsAll r elsScope els d₂ els' d₃) :
    Turns r outer (.conditional c thnScope thn elsScope els) d
    (.conditional c' thnScope thn' elsScope els') d₃ := by
  have inner := first.narrows.trans second.narrows
  have own : ∀ x ∈ ownScopes (.conditional c' thnScope thn' elsScope els'), d₃.reachOf x =
    d₁.reachOf x :=
    fun x mem => inner.outside x (nested.arms_apart x mem)
  refine ⟨?_, (condition.trans inner).mono fun x mem => ?_, ?_, ?_, second.decided⟩
  · show [thnScope, elsScope] ++ scopesAll thn' ++ scopesAll els' = _
    rw [first.scopes, second.scopes]
    rfl
  · rwa [← List.append_assoc] at mem
  · exact Decided.mono (s := .conditional c' thnScope thn' elsScope els') decided
      (fun _ _ _ _ _ _ _ => (inner.grown.remains outer).bare) own
  · refine everyAll_decided second.narrows thn' ?_ first.decided
    rw [first.scopes]
    exact nested.blocks_apart

end Turns

mutual

theorem update_turns (r : Resolver) {outer : ScopeId} {d : Design} (wf : d.WellFormed)
    (s : Statement) (inside : outer < d.scopes.size) (nested : s.Nested d outer)
    (decided : s.Every (Decided r d) outer) :
    Turns r outer s d (s.update r outer d).value (s.update r outer d).design := by
  cases s with
  | declare s | assign s | contribute s =>
    exact ⟨rfl, s.update_stays (Design.sustained_narrows outer) (fun _ _ _ _ _ _ => trivial) d wf
      inside, trivial⟩
  | conditional c thnScope thn elsScope els =>
    obtain ⟨own, thnDecided, elsDecided⟩ := decided
    obtain ⟨condition, decided₁⟩ := c.narrows r wf nested own
    have thnDecided₁ := everyAll_decided condition thn
      (fun x mem near => nested.arms_apart x near (List.mem_append_left _ mem)) thnDecided
    have elsDecided₁ := everyAll_decided condition els
      (fun x mem near => nested.arms_apart x near (List.mem_append_right _ mem)) elsDecided
    have thnInside := scope_lt nested.fits.1.1
    have elsInside := scope_lt nested.fits.1.2
    have first := updateAll_turns r condition.wellFormed thn (condition.grown.scopes ▸ thnInside)
      (nested.thnBody.extends condition.grown) thnDecided₁
    have grown := condition.grown.trans first.narrows.grown
    have elsDecided₂ := everyAll_decided first.narrows els
      (fun x mem inThn => nested.blocks_apart x inThn mem)
      elsDecided₁
    have second := updateAll_turns r first.narrows.wellFormed els (grown.scopes ▸ elsInside)
      (nested.elsBody.extends grown) elsDecided₂
    simp only [update]
    split
    · exact .conditional nested condition decided₁ (.refl condition.wellFormed thnDecided₁)
        (.refl condition.wellFormed elsDecided₁)
    · split
      · exact .conditional nested condition decided₁ first
          (.refl first.narrows.wellFormed elsDecided₂)
      · exact .conditional nested condition decided₁ first second
  | block inner body =>
    have whole := updateAll_turns r wf body (scope_lt nested.fits.1) nested.body decided.2
    exact ⟨congrArg (inner :: ·) whole.scopes,
      whole.narrows.mono fun _ mem => List.mem_cons_of_mem inner mem, trivial, whole.decided⟩

theorem updateAll_turns (r : Resolver) {outer : ScopeId} {d : Design} (wf : d.WellFormed)
    (ss : List Statement) (inside : outer < d.scopes.size) (nested : NestedAll d outer ss)
    (decided : EveryAll (Decided r d) outer ss) :
    TurnsAll r outer ss d (updateAll r outer ss d).value (updateAll r outer ss d).design := by
  cases ss with
  | nil => exact .refl wf trivial
  | cons s ss =>
    have tail : ∀ {s' : Statement} {d₁ : Design}, Turns r outer s d s' d₁ →
      EveryAll (Decided r d₁) outer ss :=
      fun first => everyAll_decided first.narrows ss (fun x mem own => nested.own_tail x own mem)
        decided.2
    simp only [updateAll]
    split
    · exact .cons nested (.refl wf decided.1) (updateAll_turns r wf ss inside nested.tail decided.2)
    · have first := update_turns r wf s inside nested.head decided.1
      split
      · exact .cons nested first (.refl first.narrows.wellFormed (tail first))
      · exact .cons nested first (updateAll_turns r first.narrows.wellFormed ss
          (first.narrows.grown.scopes ▸ inside) (nested.tail.extends first.narrows.grown)
            (tail first))

end

theorem TurnsAll.trans {r : Resolver} {outer : ScopeId} {ss ss₁ ss₂ : List Statement}
    {d d₁ d₂ : Design}
    (first : TurnsAll r outer ss d ss₁ d₁) (second : TurnsAll r outer ss₁ d₁ ss₂ d₂) :
    TurnsAll r outer ss d ss₂ d₂ where
  scopes := second.scopes.trans first.scopes
  narrows := (first.narrows.trans second.narrows).mono fun x mem => by
    rw [first.scopes, List.mem_append, or_self] at mem
    exact mem
  decided := second.decided

theorem rounds_turns (r : Resolver) {outer : ScopeId} {d : Design} (wf : d.WellFormed)
    (ss : List Statement) (inside : outer < d.scopes.size) (nested : NestedAll d outer ss)
    (decided : EveryAll (Decided r d) outer ss)
    (bound left i : Nat) : TurnsAll r outer ss d (rounds r outer bound left i ss d).value
      (rounds r outer bound left i ss d).design := by
  induction left generalizing i ss d with
  | zero => exact .refl wf decided
  | succ left ih =>
    have first := updateAll_turns r wf ss inside nested decided
    simp only [rounds]
    obtain ⟨f, failed, _⟩ | ⟨a, found, round⟩ := (updateAll_rounds r wf ss nested).cases
    · simp only [failed]
      exact first
    cases a with
    | false =>
      simp only [found]
      exact first
    | true =>
      simp only [found]
      exact first.trans (ih first.narrows.wellFormed _ (first.narrows.grown.scopes ▸ inside)
        (round.nested nested) first.decided (i + 1))

end Statement
end Analog
