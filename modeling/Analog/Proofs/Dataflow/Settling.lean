import Analog.Proofs.Dataflow.Round
import Analog.Proofs.Device.CallCounters

/-!
The dataflow settles. Every round of updates after the first does the works of the first one again,
and there are no more works than statements. So a block of `n` statements changes nothing in round
`4 * n + 1`, if not before, unless an update fails.
-/
namespace Analog

theorem Device.Sound.nested {m : Device} (h : m.Sound) :
    Statement.NestedAll m.design Device.analogScope m.body := by
  refine ⟨?_, h.distinct, ?_⟩
  · have weaken : ∀ outer s, True → Statement.Sound m.design outer s → s.Fits m.design outer :=
      fun _ _ _ known => known.1
    exact Statement.EveryAll.mono weaken (fun _ _ _ _ _ => trivial) trivial _ h.every
  · intro x mem around
    have inner := (h.scopes x mem).1
    rw [Design.chain, h.outer.2] at around
    simp only [List.mem_cons, List.not_mem_nil, or_false] at around
    rcases around with rfl | rfl
    · exact absurd inner (by decide)
    · exact absurd inner (by decide)

namespace Statement

variable {r : Resolver} {d : Design} {scope : ScopeId} {body : List Statement}

structure Follows (r : Resolver) (scope : ScopeId) (x : Flow) (n : Nat) (body : List Statement)
    (d : Design) : Prop where
  wellFormed : d.WellFormed
  nested : NestedAll d scope body
  env : d.env = (x.rounds n).env
  works : ∃ ws, CarriesAll r d scope body ws ∧ List.Forall₂ Work.Same (x.rounds n).works ws

theorem RoundAll.nested {body' : List Statement} {d' : Design} {a : Bool}
    (h : RoundAll r scope body d a body' d') (nested : NestedAll d scope body) :
    NestedAll d' scope body' := by
  have before : NestedAll d scope body' := by
    refine ⟨h.fits, ?_, ?_⟩
    · rw [h.scopes]
      exact nested.distinct
    · rw [h.scopes]
      exact nested.apart
  exact before.extends h.rounded.grown

theorem updateAll_starts (r : Resolver) (wf : d.WellFormed) (nested : NestedAll d scope body) :
    (updateAll r scope body d).Yields fun a body' d' => ∃ x : Flow, (∀ v, (x.env v).Tidy) ∧
      x.works.length ≤ countAll body ∧ (a = true → 0 < x.works.length) ∧
      Follows r scope x 1 body' d' := by
  obtain ⟨f, failed, admissible⟩ | ⟨a, done, round⟩ := (updateAll_rounds r wf body nested).cases
  · exact .failed failed admissible
  · obtain ⟨us, ws, length, swept, carried, _⟩ := round.rounded.flow
    have next : (⟨d.env, us⟩ : Flow).rounds 1 = ⟨(updateAll r scope body d).design.env, ws⟩ := by
      show (sweep d.env us).2 = _
      rw [swept]
    refine .returned done ⟨⟨d.env, us⟩, wf.summaries, length, ?_, round.rounded.wellFormed,
      round.nested nested, ?_, ws, carried, ?_⟩
    · rintro rfl
      -- A round without works changes nothing.
      cases us with
      | nil => cases swept
      | cons u us => exact Nat.succ_pos _
    · rw [next]
    · rw [next]
      exact List.forall₂_same.mpr fun w _ => ⟨rfl, rfl, fun _ => rfl⟩

theorem Follows.step {x : Flow} {n : Nat} (h : Follows r scope x n body d) :
    (updateAll r scope body d).Yields fun a body' d' =>
      a = (sweep (x.rounds n).env (x.rounds n).works).1 ∧ Follows r scope x (n + 1) body' d' := by
  obtain ⟨f, failed, admissible⟩ | ⟨a, done, round⟩ :=
    (updateAll_rounds r h.wellFormed body h.nested).cases
  · exact .failed failed admissible
  · obtain ⟨us, ws, _, swept, carried, again⟩ := round.rounded.flow
    obtain ⟨known, carriedBefore, same⟩ := h.works
    -- The works of this round are those of the flow, with the variables read anew.
    have found := same_trans same (again known carriedBefore).2
    obtain ⟨flag, envs, works⟩ := sweep_same found (x.rounds n).env
    rw [← h.env, swept] at flag envs works
    rw [h.env] at flag envs works
    refine .returned done ⟨flag, round.rounded.wellFormed, round.nested h.nested, ?_,
      ws, carried, ?_⟩
    · rw [Flow.rounds_succ]
      exact envs
    · rw [Flow.rounds_succ]
      exact works

/-- `n` rounds in a row that changed something. -/
inductive Changing (r : Resolver) (scope : ScopeId) :
    Nat → List Statement → Design → List Statement → Design → Prop
  | zero (body : List Statement) (d : Design) : Changing r scope 0 body d body d
  | succ {n : Nat} {body body' : List Statement} {d d' : Design}
      (changed : (updateAll r scope body d).result = .ok true)
      (more : Changing r scope n (updateAll r scope body d).value (updateAll r scope body d).design
        body' d') : Changing r scope (n + 1) body d body' d'

def Ends (u : Outcome (List Statement) Bool) : Prop :=
  u.result = .ok false ∨ ∃ f, u.result = .error f ∧ f.Admissible u.design

theorem rounds_of_changing {n left : Nat} {body' : List Statement} {d' : Design}
    (h : Changing r scope n body d body' d') (bound i : Nat) :
    rounds r scope bound (n + left) i body d = rounds r scope bound left (i + n) body' d' := by
  induction h generalizing i with
  | zero body d => rw [Nat.zero_add, Nat.add_zero]
  | @succ n body body' d d' changed more ih =>
    rw [show n + 1 + left = (n + left) + 1 by omega, rounds]
    simp only [changed]
    rw [ih, show i + 1 + n = i + (n + 1) by omega]

theorem Follows.ends {x : Flow} (tidy : ∀ v, (x.env v).Tidy) {n left : Nat}
    (h : Follows r scope x n body d) (reaches : n + left = x.works.length * 4) :
    ∃ k body' d', k ≤ left ∧ Changing r scope k body d body' d' ∧
    Ends (updateAll r scope body' d') := by
  induction left generalizing n body d with
  | zero =>
    refine ⟨0, body, d, Nat.le_refl 0, .zero body d, ?_⟩
    obtain ⟨f, failed, admissible⟩ | ⟨a, done, quiet, _⟩ := h.step.cases
    · exact .inr ⟨f, failed, admissible⟩
    · rw [show n = x.works.length * 4 by omega, Flow.quiet tidy] at quiet
      rw [quiet] at done
      exact .inl done
  | succ left ih =>
    obtain ⟨f, failed, admissible⟩ | ⟨a, done, _, next⟩ := h.step.cases
    · exact ⟨0, body, d, Nat.zero_le _, .zero body d, .inr ⟨f, failed, admissible⟩⟩
    · cases a with
      | false => exact ⟨0, body, d, Nat.zero_le _, .zero body d, .inl done⟩
      | true =>
        obtain ⟨k, body', d', few, changing, ends⟩ := ih next (by omega)
        exact ⟨k + 1, body', d', Nat.succ_le_succ few, .succ done changing, ends⟩

theorem changing_ends (r : Resolver) (wf : d.WellFormed) (nested : NestedAll d scope body) :
    ∃ n body' d', n < countAll body * 4 + 1 ∧ Changing r scope n body d body' d' ∧
      Ends (updateAll r scope body' d') := by
  obtain ⟨f, failed, admissible⟩ | ⟨a, done, x, tidy, length, some, follows⟩ :=
    (updateAll_starts r wf nested).cases
  · exact ⟨0, body, d, Nat.succ_pos _, .zero body d, .inr ⟨f, failed, admissible⟩⟩
  · cases a with
    | false => exact ⟨0, body, d, Nat.succ_pos _, .zero body d, .inl done⟩
    | true =>
      have works := some rfl
      obtain ⟨k, body', d', few, changing, ends⟩ :=
        follows.ends tidy (show 1 + (x.works.length * 4 - 1) = x.works.length * 4 by omega)
      exact ⟨k + 1, body', d', by omega, .succ done changing, ends⟩

theorem not_unstable {f : Failure} (h : f.Admissible d) :
    ∀ p bound, f = .problem p → p.cause ≠ .unstable bound := by
  rintro p bound rfl unstable
  obtain ⟨q, same, classed⟩ | ⟨u, same⟩ | ⟨same, -⟩ := h
  · cases same
    rw [unstable] at classed
    cases classed
  · cases same
  · cases same

theorem cycle_of_endless (h : Failure.Admissible .endless d) :
    ∃ i, Relation.TransGen (d.circuit.Lays d.always) i i := by
  obtain ⟨q, same, -⟩ | ⟨u, same⟩ | ⟨-, tangled⟩ := h
  · cases same
  · cases same
  · simpa [Circuit.Acyclic] using tangled

/-- Unless the number of rounds is set, the dataflow ends with a round that changes nothing, or with
the failure of an update, after at most four rounds for each statement. It never runs out of rounds.
An update goes on for ever only where the shorts that hold have come to form a cycle. -/
theorem fixpoint_settles (wf : d.WellFormed) (nested : NestedAll d scope body)
    (free : r.config.maxIterations = 0) :
    ∃ n body' d', n < countAll body * 4 + 1 ∧ Changing r scope n body d body' d' ∧
      let last := updateAll r scope body' d'
      ((last.result = .ok false ∧ fixpoint r scope body d = ⟨last.value, last.design,
        .ok (n + 1)⟩) ∨
        ∃ f, last.result = .error f ∧
          fixpoint r scope body d = ⟨last.value, last.design, .error f⟩ ∧
          (∀ p bound, f = .problem p → p.cause ≠ .unstable bound) ∧
          (f = .endless →
            ∃ i, Relation.TransGen (last.design.circuit.Lays last.design.always) i i)) := by
  obtain ⟨n, body', d', few, changing, ends⟩ := changing_ends r wf nested
  refine ⟨n, body', d', few, changing, ?_⟩
  have bound : roundBound r body = n + ((countAll body * 4 - n) + 1) := by
    simp only [roundBound, free, beq_self_eq_true, ↓reduceIte, orderLevels]
    omega
  have run : fixpoint r scope body d =
      rounds r scope (roundBound r body) ((countAll body * 4 - n) + 1) (1 + n) body' d' := by
    rw [fixpoint]
    nth_rewrite 2 [bound]
    exact rounds_of_changing changing _ 1
  rw [run, rounds]
  obtain quiet | ⟨f, failed, admissible⟩ := ends
  · refine .inl ⟨quiet, ?_⟩
    simp only [quiet, Nat.add_comm 1 n]
  · refine .inr ⟨f, failed, by simp only [failed], not_unstable admissible, ?_⟩
    rintro rfl
    exact cycle_of_endless admissible

/-- Three variables that are assigned in a ring, one of them under a condition on another. -/
def ringCalls : List Operation :=
  [.port "p", .port "n", .variable "a" .real, .variable "b" .real, .variable "c" .real, .analog,
    .assign "a" [.identifier "b"], .openConditional [.identifier "a"],
      .assign "b" [.identifier "c"],
    .close, .assign "c" [.marker, .identifier "p", .identifier "n", .arguments, .identifier "V",
      .identifier "a", .binary .add]]

def ring : Device := ((Editor.ofDevice (Device.create "ring" .default)).performAll ringCalls).device

theorem fixpoint_settles_ring : ring.design.WellFormed ∧
    NestedAll ring.design Device.analogScope ring.body ∧ Config.default.maxIterations = 0 ∧
    countAll ring.body = 4 ∧
    (fixpoint ⟨.default, 0⟩ Device.analogScope ring.body ring.design).result.toOption = some 4 ∧
    ∃ n body' d', n < 17 ∧ Changing ⟨.default, 0⟩ Device.analogScope n ring.body ring.design
      body' d' ∧ (updateAll ⟨.default, 0⟩ Device.analogScope body' d').result = .ok false := by
  have sound : ring.Sound := Editor.sound_performAll ringCalls (Device.sound_create "ring" .default)
  have count : countAll ring.body = 4 := by decide +kernel
  have settled :
      (fixpoint ⟨.default, 0⟩ Device.analogScope ring.body ring.design).result.toOption
        = some 4 := by
    decide +kernel
  refine ⟨sound.wellFormed, sound.nested, rfl, count, settled, ?_⟩
  obtain ⟨n, body', d', few, changing, ends⟩ :=
    fixpoint_settles (r := ⟨.default, 0⟩) sound.wellFormed sound.nested rfl
  rw [count] at few
  refine ⟨n, body', d', few, changing, ?_⟩
  obtain ⟨quiet, _⟩ | ⟨f, _, run, _⟩ := ends
  · exact quiet
  · rw [run] at settled
    cases settled

/-- Two nodes that are laid onto each other, one of them under a condition on a function, and a
third contribution that vanishes once a parameter has taken the name of that function. -/
def crossedCalls : List Operation :=
  [.port "a", .port "b", .port "c", .analog, .openConditional [.identifier "$vt"],
    .contribute [.marker, .identifier "a", .identifier "b", .arguments, .identifier "V"]
      [.literal (.int 0)],
    .close,
    .contribute [.marker, .identifier "b", .identifier "a", .arguments, .identifier "V"]
      [.literal (.int 0)],
    .contribute [.marker, .identifier "a", .identifier "c", .arguments, .identifier "V"]
      [.identifier "$vt", .literal (.int 1), .binary .sub],
    .settle 0, .parameter "$vt" .real [.literal (.int 1)] true]

def crossed : Device :=
  ((Editor.ofDevice (Device.create "crossed" .default)).performAll crossedCalls).device

/-- The condition comes to hold, the shorts form a cycle, and the next update never returns. -/
theorem fixpoint_endless_crossed :
    (fixpoint crossed.resolver Device.analogScope crossed.body crossed.design).result = .error
    .endless := by
  decide +kernel

end Statement
end Analog
