import Analog.Proofs.Dataflow.QuietRound

/-!
What the dataflow ends with. Each expression that is reached is resolved against the summaries that
were found, these are above all that is assigned, and to update the block again changes nothing. On
the way summaries only grow.
-/
namespace Analog

def Design.Ascends (d e : Design) : Prop := ∀ v, (d.env v).Below (e.env v)

theorem Design.Ascends.refl (d : Design) : d.Ascends d := fun v => .refl (d.env v)

theorem Design.Ascends.trans {a b c : Design} (ab : a.Ascends b) (bc : b.Ascends c) : a.Ascends c :=
  fun v => (ab v).trans (bc v)

theorem below_sweep (env : VariableId → Summary) (ws : List Work) (v : VariableId) :
    (env v).Below ((sweep env ws).2.env v) := by
  induction ws generalizing env with
  | nil => exact .refl (env v)
  | cons w ws ih =>
    have first : (env v).Below (w.after env v) := by
      rw [w.after_apply]
      split
      · exact Summary.below_absorb (env v) (w.found env)
      · exact .refl (env v)
    exact first.trans (ih (w.after env))

theorem Rounded.ascends {d d' : Design} {a : Bool} {touched : List ScopeId} {count : Nat}
    {before after : Design → List Work → Prop} (h : Rounded d d' a touched count before after) :
    d.Ascends d' := by
  obtain ⟨us, ws, _, swept, _⟩ := h.flow
  intro v
  have grown := below_sweep d.env us v
  rw [swept] at grown
  exact grown

structure Climbs (d : Design) (way : List Design) (e : Design) : Prop where
  upward : (d :: way).Pairwise Design.Ascends
  below : ∀ x ∈ d :: way, x.Ascends e

namespace Climbs

variable {d e f : Design} {way way' : List Design}

theorem refl (d : Design) : Climbs d [] d :=
  ⟨List.pairwise_singleton _ d, List.forall_mem_singleton.mpr (.refl d)⟩

theorem single (h : d.Ascends e) : Climbs d [e] e :=
  ⟨List.pairwise_pair.mpr h, by simpa using ⟨h, .refl e⟩⟩

theorem trans (first : Climbs d way e) (second : Climbs e way' f) : Climbs d (way ++ way') f := by
  obtain ⟨start, rest⟩ := List.pairwise_cons.mp second.upward
  have onward := second.below e List.mem_cons_self
  refine ⟨List.pairwise_append.mpr ⟨first.upward, rest, fun x mem y mem' => ?_⟩, fun x mem => ?_⟩
  · exact (first.below x mem).trans (start y mem')
  · rcases List.mem_append.mp (show x ∈ (d :: way) ++ way' from mem) with before | after
    · exact (first.below x before).trans onward
    · exact second.below x (List.mem_cons_of_mem e after)

end Climbs

namespace Statement

mutual

/-- The designs that an update of a statement passes, one for each expression that is resolved. -/
def trail (r : Resolver) (outer : ScopeId) (d : Design) : Statement → List Design
  | .declare s => [(s.update r outer d).design]
  | .assign s => [(s.update r outer d).design]
  | .contribute s => [(s.update r outer d).design]
  | .conditional c thnScope thn elsScope els =>
    let d₁ := (c.update r outer thnScope elsScope d).design
    d₁ :: (trailAll r thnScope d₁ thn ++ trailAll r elsScope
      (updateAll r thnScope thn d₁).design els)
  | .block inner body => trailAll r inner d body

def trailAll (r : Resolver) (outer : ScopeId) (d : Design) : List Statement → List Design
  | [] => []
  | s :: ss =>
    if d.reach (s.ownScope outer) == .never then trailAll r outer d ss
    else s.trail r outer d ++ trailAll r outer (s.update r outer d).design ss

end

def trailRounds (r : Resolver) (scope : ScopeId) : Nat → List Statement → Design → List Design
  | 0, _, _ => []
  | left + 1, body, d =>
    let u := updateAll r scope body d
    trailAll r scope d body ++
      match u.result with
      | .ok true => trailRounds r scope left u.value u.design
      | _ => []

mutual

theorem update_climbs (r : Resolver) {outer : ScopeId} {d : Design} (wf : d.WellFormed)
    (s : Statement)
    (nested : s.Nested d outer) {a : Bool} (done : (s.update r outer d).result = .ok a) :
    Climbs d (s.trail r outer d) (s.update r outer d).design := by
  cases s with
  | declare s => exact .single ((s.rounds r outer wf nested.fits).done done).ascends
  | assign s => exact .single ((s.rounds r outer wf nested.fits).done done).ascends
  | contribute s => exact .single ((s.rounds r outer wf).done done).ascends
  | conditional c thnScope thn elsScope els =>
    have apart : thnScope ≠ elsScope := fun same =>
      nested.distinct_arms.2.2 List.mem_cons_self (same ▸ List.mem_cons_self)
    have condition := c.rounds r outer wf (scope_lt nested.fits.1.1)
      (scope_lt nested.fits.1.2) apart
    simp only [update] at done ⊢
    obtain ⟨f, failed, _⟩ | ⟨_, found, first⟩ := condition.cases
    · simp only [failed] at done
      cases done
    simp only [found] at done ⊢
    have thnNested := nested.thnBody.extends first.grown
    obtain ⟨f, failed, _⟩ | ⟨_, thnDone, second⟩ :=
      (updateAll_rounds r first.wellFormed thn thnNested).cases
    · simp only [failed] at done
      cases done
    simp only [thnDone] at done ⊢
    have elsNested := nested.elsBody.extends (first.grown.trans second.rounded.grown)
    cases elsDone : (updateAll r elsScope els
        (updateAll r thnScope thn (c.update r outer thnScope elsScope d).design).design).result with
    | error f =>
      rw [elsDone] at done
      cases done
    | ok b =>
      have blocks := (updateAll_climbs r first.wellFormed thn thnNested thnDone).trans
        (updateAll_climbs r second.rounded.wellFormed els elsNested elsDone)
      exact (Climbs.single first.ascends).trans blocks
  | block inner body => exact updateAll_climbs r wf body nested.body done

theorem updateAll_climbs (r : Resolver) {outer : ScopeId} {d : Design} (wf : d.WellFormed)
    (ss : List Statement) (nested : NestedAll d outer ss) {a : Bool}
    (done : (updateAll r outer ss d).result = .ok a) :
    Climbs d (trailAll r outer d ss) (updateAll r outer ss d).design := by
  cases ss with
  | nil => exact .refl d
  | cons s ss =>
    by_cases skipped : (d.reach (s.ownScope outer) == .never) = true
    · simp only [updateAll, trailAll, skipped, ↓reduceIte] at done ⊢
      exact updateAll_climbs r wf ss nested.tail done
    · simp only [updateAll, trailAll, skipped, Bool.false_eq_true, ↓reduceIte] at done ⊢
      obtain ⟨f, failed, _⟩ | ⟨_, found, first⟩ := (update_rounds r wf s nested.head).cases
      · simp only [failed] at done
        cases done
      simp only [found] at done ⊢
      cases tailDone : (updateAll r outer ss (s.update r outer d).design).result with
      | error f =>
        rw [tailDone] at done
        cases done
      | ok b =>
        exact (update_climbs r wf s nested.head found).trans (updateAll_climbs r
          first.rounded.wellFormed ss (nested.tail.extends first.rounded.grown) tailDone)

end

variable {r : Resolver} {d : Design} {scope : ScopeId} {body : List Statement}

theorem rounds_end {bound left i n : Nat} (wf : d.WellFormed) (nested : NestedAll d scope body)
    (done : (rounds r scope bound left i body d).result = .ok n) :
    ∃ body' d', d'.WellFormed ∧ NestedAll d' scope body' ∧ (updateAll r scope body' d').result =
      .ok false ∧ (rounds r scope bound left i body d).value = (updateAll r scope body' d').value ∧
      (rounds r scope bound left i body d).design = (updateAll r scope body' d').design ∧
      Climbs d (trailRounds r scope left body d) (updateAll r scope body' d').design := by
  induction left generalizing i body d with
  | zero => cases done
  | succ left ih =>
    simp only [rounds, trailRounds] at done ⊢
    obtain ⟨f, failed, _⟩ | ⟨a, found, round⟩ := (updateAll_rounds r wf body nested).cases
    · simp only [failed] at done
      cases done
    have climbs := updateAll_climbs r wf body nested found
    cases a with
    | false =>
      simp only [found] at done ⊢
      exact ⟨body, d, wf, nested, found, rfl, rfl, climbs.trans (.refl _)⟩
    | true =>
      simp only [found] at done ⊢
      obtain ⟨body', d', wf', nested', quiet, value, design, rest⟩ :=
        ih round.rounded.wellFormed (round.nested nested) done
      exact ⟨body', d', wf', nested', quiet, value, design, climbs.trans rest⟩

/-- A statement that holds what its expression resolves to. A variable that it assigns to is above
it. -/
def Current (r : Resolver) (d : Design) (outer : ScopeId) : Statement → Prop
  | .declare s => ∀ source, s.source = some source →
      ∃ t e, s.value = some (.declaration s.symbol t) ∧
      source.resolve r outer d = .ok t e ∧ t.summary.Below (d.env s.symbol.id)
  | .assign s =>
    ∃ v t e, s.symbol = some v ∧ s.value = some t ∧ s.source.resolve r outer d = .ok t e ∧
      t.summary.Below (d.env v.id)
  | .contribute s => ∃ t e, s.value = some t ∧ s.source.resolve r outer d = .ok t e
  | .conditional c _ _ _ _ => ∃ t e, c.value = some t ∧ c.source.resolve r outer d = .ok t e
  | .block _ _ => True

theorem Rests.current (wf : d.WellFormed) {outer : ScopeId} {s : Statement}
    (h : s.Rests r d outer) : s.Current r d outer := by
  cases s with
  | declare s =>
    intro source written
    obtain ⟨t, value, held, covers⟩ := h source written
    obtain ⟨e, run⟩ := held.resolved wf
    exact ⟨t, e, value, run, covers.below⟩
  | assign s =>
    obtain ⟨v, t, symbol, value, held, covers⟩ := h
    obtain ⟨e, run⟩ := held.resolved wf
    exact ⟨v, t, e, symbol, value, run, covers.below⟩
  | contribute s =>
    obtain ⟨_, t, _, _, value, _, held, _⟩ := h
    obtain ⟨e, run⟩ := held.resolved wf
    exact ⟨t, e, value, run⟩
  | conditional c thnScope thn elsScope els =>
    obtain ⟨t, _, value, _, held, _⟩ := h
    obtain ⟨e, run⟩ := held.resolved wf
    exact ⟨t, e, value, run⟩
  | block inner body => trivial

def updated (r : Resolver) (scope : ScopeId) (n : Nat) (body : List Statement) (d : Design) :
    Outcome (List Statement) Bool :=
  (fun u => updateAll r scope u.value u.design)^[n] ⟨body, d, .ok false⟩

theorem updated_of_settled (wf : d.WellFormed) (fits : EveryAll (Fits d) scope body)
    (h : Settled r d scope body) (n : Nat) :
    ∃ d', updated r scope n body d = ⟨body, d', .ok false⟩ ∧ d.Still d' := by
  induction n with
  | zero => exact ⟨d, rfl, .refl wf⟩
  | succ n ih =>
    obtain ⟨d₁, run, still⟩ := ih
    have settled : Settled r d₁ scope body :=
      h.mono still.grown still.env fits (fun x _ => still.reach x) fun x _ => still.reach x
    obtain ⟨d₂, next, still₂⟩ :=
      updateAll_of_rests r still.wellFormed body (everyAll_fits still.grown fits) settled
    refine ⟨d₂, ?_, still.trans still₂⟩
    rw [updated] at run ⊢
    rw [Function.iterate_succ_apply', run]
    exact next

/-- A dataflow that ends well ends at rest. All that is reached is current; further updates report
no change and leave variables, nodes and branches with their counters as they are; and on the whole
way the summaries of variables only grew. -/
theorem fixpoint_rests (wf : d.WellFormed) (nested : NestedAll d scope body) {n : Nat}
    (done : (fixpoint r scope body d).result = .ok n) :
    let u := fixpoint r scope body d
    let way := trailRounds r scope (roundBound r body) body d
    (∀ x ∈ reachedAll u.design scope u.value, x.2.Current r u.design x.1) ∧
    (∀ k, let w := updated r scope k u.value u.design
      w.result = .ok false ∧ w.value = u.value ∧ w.design.vars = u.design.vars ∧
        w.design.circuit = u.design.circuit) ∧
    (d :: way ++ [u.design]).Pairwise fun a b => ∀ v, (a.env v).Below (b.env v) := by
  obtain ⟨body', d', wf', nested', quiet, value, design, climbs⟩ := rounds_end wf nested done
  have round := (updateAll_rounds r wf' body' nested').done quiet
  have settled := updateAll_settles r wf' body' nested' quiet
  have fits := everyAll_fits round.rounded.grown round.fits
  simp only [fixpoint, value, design]
  refine ⟨fun x mem => (settled x mem).current round.rounded.wellFormed, fun k => ?_, ?_⟩
  · obtain ⟨e, run, still⟩ := updated_of_settled round.rounded.wellFormed fits settled k
    rw [run]
    exact ⟨rfl, rfl, still.vars, by rw [← still.frame]⟩
  · exact (climbs.trans (.single (.refl _))).upward

theorem fixpoint_rests_ring :
    let r : Resolver := ⟨.default, 0⟩
    let u := fixpoint r Device.analogScope ring.body ring.design
    let way := trailRounds r Device.analogScope 17 ring.body ring.design
    ring.design.WellFormed ∧ NestedAll ring.design Device.analogScope ring.body ∧ u.result = .ok 4 ∧
    (reachedAll u.design Device.analogScope u.value).length = 4 ∧ way.length = 16 ∧
    (∀ x ∈ reachedAll u.design Device.analogScope u.value, x.2.Current r u.design x.1) ∧
    (updated r Device.analogScope 3 u.value u.design).design.circuit = u.design.circuit ∧
    (ring.design :: way ++ [u.design]).Pairwise fun a b => ∀ v, (a.env v).Below (b.env v) := by
  have sound : ring.Sound := Editor.sound_performAll ringCalls (Device.sound_create "ring" .default)
  have settled :
      (fixpoint ⟨.default, 0⟩ Device.analogScope ring.body ring.design).result.toOption
        = some 4 := by
    decide +kernel
  have done : (fixpoint ⟨.default, 0⟩ Device.analogScope ring.body ring.design).result = .ok 4 := by
    cases result : (fixpoint ⟨.default, 0⟩ Device.analogScope ring.body ring.design).result with
    | error f =>
      rw [result] at settled
      cases settled
    | ok n =>
      rw [result] at settled
      cases settled
      rfl
  have bound : roundBound ⟨.default, 0⟩ ring.body = 17 := by decide +kernel
  obtain ⟨current, still, upward⟩ := fixpoint_rests sound.wellFormed sound.nested done
  rw [bound] at upward
  refine ⟨sound.wellFormed, sound.nested, done, ?_, ?_, current, (still 3).2.2.2, upward⟩
  · decide +kernel
  · decide +kernel

end Statement
end Analog
