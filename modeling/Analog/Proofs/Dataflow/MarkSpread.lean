import Analog.Proofs.Dataflow.Marking

/-!
Marking a body. If the summaries under contributions are complete, a branch is marked as needing
just what the contributions to it depend on: what their own summary mentions, and what the summaries
of the conditions around them mention.
-/
namespace Analog

namespace Standing

def goal? (c : Circuit) (y : Standing) : Option BranchId :=
  match y.statement with
  | .contribute s => s.quantity.map fun q => c.base q.ref.branch
  | _ => none

def summary? (y : Standing) : Option Summary :=
  match y.statement with
  | .contribute s => s.summary
  | _ => none

/-- The summaries that a contribution stands on: its own, and those of the conditions around it. -/
def summaries (y : Standing) :
    List Summary := y.summary?.toList ++ y.conditions.filterMap (·.summary)

def Aims (d : Design) (y : Standing) (b : BranchId) : Prop :=
  d.reach y.scope ≠ .never ∧ y.goal? d.circuit = some b

def Mentions (y : Standing) (x : Mention) : Prop := ∃ a ∈ y.summaries, a.Mentions x

def under (around : List Condition) (y : Standing) : Standing :=
  { y with conditions := y.conditions ++ around }

variable {d d' : Design} {y : Standing} {around : List Condition}

theorem mem_summaries_under {a : Summary} :
    a ∈ (y.under around).summaries ↔ a ∈ y.summaries ∨ a ∈ around.filterMap (·.summary) := by
  have own : (y.under around).summary? = y.summary? := rfl
  rw [summaries, summaries, own, under, List.filterMap_append, ← List.append_assoc, List.mem_append]

theorem mentions_under {x : Mention} :
    (y.under around).Mentions x ↔ y.Mentions x ∨ ∃ a ∈ around.filterMap (·.summary),
    a.Mentions x := by
  simp only [Mentions, mem_summaries_under, or_and_right, exists_or]

theorem aims_marked (h : d.Marked d') {b : BranchId} : y.Aims d' b ↔ y.Aims d b := by
  have goal : y.goal? d'.circuit = y.goal? d.circuit := by
    have base : d'.circuit.base = d.circuit.base := funext h.base
    unfold goal?
    rw [base]
  rw [Aims, Aims, goal, Design.reach_eq h.scopes]

/-- What is needed to mark a contribution: it was resolved as a whole, and its summaries are
complete. -/
structure Told (d : Design) (y : Standing) : Prop where
  whole : ∀ b, y.goal? d.circuit = some b → ∃ a, y.summary? = some a
  complete : ∀ a ∈ y.summaries, d.Complete a

theorem Told.marked (h : y.Told d) (marked : d.Marked d') : y.Told d' where
  whole b goal := by
    have base : d'.circuit.base = d.circuit.base := funext marked.base
    unfold goal? at goal
    rw [base] at goal
    exact h.whole b goal
  complete a mem := by
    have before := h.complete a mem
    refine ⟨fun x mentioned => (marked.has x).mpr (before.there x mentioned),
      fun v read x mentioned => ?_⟩
    rw [marked.env] at mentioned
    exact before.closed v read x mentioned

theorem Told.of_under (h : (y.under around).Told d) : y.Told d :=
  ⟨h.whole, fun a mem => h.complete a (mem_summaries_under.mpr (.inl mem))⟩

end Standing

namespace Statement

mutual

theorem leaves_under (s : Statement) (outer : ScopeId) (inner around : List Condition) :
    s.leaves outer (inner ++ around) = (s.leaves outer inner).map (Standing.under around) := by
  cases s with
  | declare s | assign s | contribute s => rfl
  | conditional c thnScope thn elsScope els =>
    rw [leaves, leaves, List.map_append, ← leavesAll_under thn, ← leavesAll_under els]
    rfl
  | block scope body => exact leavesAll_under body scope inner around

theorem leavesAll_under (ss : List Statement) (outer : ScopeId) (inner around : List Condition) :
    leavesAll outer (inner ++ around) ss = (leavesAll outer inner ss).map
    (Standing.under around) := by
  cases ss with
  | nil => rfl
  | cons s ss => rw [leavesAll, leavesAll, List.map_append, leaves_under s, leavesAll_under ss]

end

section Unreached

variable {d : Design}

mutual

theorem unreached (s : Statement) {outer : ScopeId} (around : List Condition)
    (fits : s.Every (Fits d) outer) (never : d.reach (s.ownScope outer) = .never) :
    ∀ y ∈ s.leaves outer around, d.reach y.scope = .never := by
  cases s with
  | declare s | assign s | contribute s => exact List.forall_mem_singleton.mpr never
  | conditional c thnScope thn elsScope els =>
    exact List.forall_mem_append.mpr
      ⟨unreachedAll thn (c :: around) fits.2.1 (Design.reach_of_unreached fits.1.1 never),
        unreachedAll els (c :: around) fits.2.2 (Design.reach_of_unreached fits.1.2 never)⟩
  | block inner body => exact unreachedAll body around fits.2 never

theorem unreachedAll (ss : List Statement) {outer : ScopeId} (around : List Condition)
    (fits : EveryAll (Fits d) outer ss) (never : d.reach outer = .never) :
    ∀ y ∈ leavesAll outer around ss, d.reach y.scope = .never := by
  cases ss with
  | nil => nofun
  | cons s ss =>
    have own : d.reach (s.ownScope outer) = .never := by
      cases s with
      | block inner body => exact Design.reach_of_unreached fits.1.1 never
      | _ => exact never
    exact List.forall_mem_append.mpr ⟨unreached s around fits.1 own,
      unreachedAll ss around fits.2 never⟩

end

end Unreached

/-- From `d` to `d'` the marks of `m` were made for the contributions among `ys`. -/
structure Spread (d : Design) (ys : List Standing) (m : Markers) (d' : Design) : Prop where
  passed : d'.PassedOn fun _ => False
  markers : ∀ b, b ∈ m.items ↔ ∃ y ∈ ys, y.Aims d b
  marks : ∀ x b, b ∈ (d'.marks x).items ↔ b ∈ (d.marks x).items ∨
    ∃ y ∈ ys, y.Aims d b ∧ y.Mentions x

namespace Spread

variable {d d₁ d₂ : Design} {ys zs : List Standing} {m n : Markers}

theorem none (passed : d.PassedOn fun _ => False) (idle : ∀ y ∈ ys, ∀ b, ¬ y.Aims d b) :
    Spread d ys .empty d where
  passed := passed
  markers b := by
    refine ⟨nofun, ?_⟩
    rintro ⟨y, mem, aims⟩
    exact absurd aims (idle y mem b)
  marks x b := by
    refine ⟨Or.inl, ?_⟩
    rintro (old | ⟨y, mem, aims, _⟩)
    · exact old
    · exact absurd aims (idle y mem b)

theorem append (marked : d.Marked d₁) (first : Spread d ys m d₁) (second : Spread d₁ zs n d₂) :
    Spread d (ys ++ zs) (m.union n) d₂ where
  passed := second.passed
  markers b := by
    simp only [OrderedSet.mem_union, first.markers, second.markers, Standing.aims_marked marked,
      List.mem_append, or_and_right, exists_or]
  marks x b := by
    simp only [second.marks, first.marks, Standing.aims_marked marked,
      List.mem_append, or_and_right, exists_or, or_assoc]

theorem skip (idle : ∀ y ∈ zs, ∀ b, ¬ y.Aims d b) (h : Spread d ys m d₁) :
    Spread d (zs ++ ys) m d₁ where
  passed := h.passed
  markers b := by
    rw [h.markers b]
    refine ⟨fun ⟨y, mem, aims⟩ => ⟨y, List.mem_append_right _ mem, aims⟩, ?_⟩
    rintro ⟨y, mem, aims⟩
    rcases List.mem_append.mp mem with none | mem
    · exact absurd aims (idle y none b)
    · exact ⟨y, mem, aims⟩
  marks x b := by
    rw [h.marks x b]
    refine or_congr_right ⟨fun ⟨y, mem, aims⟩ => ⟨y, List.mem_append_right _ mem, aims⟩, ?_⟩
    rintro ⟨y, mem, aims⟩
    rcases List.mem_append.mp mem with none | mem
    · exact absurd aims.1 (idle y none b)
    · exact ⟨y, mem, aims⟩

theorem condition {c : Condition} (marked : d.Marked d₁) (grounded : d.Grounded)
    (h : Spread d ys m d₁) (told : ∀ y ∈ ys, d.reach y.scope ≠ .never → (y.under [c]).Told d) :
    Spread d (ys.map (Standing.under [c])) m (c.mark m d₁) := by
  have aims : ∀ {y : Standing} {b}, (y.under [c]).Aims d b ↔ y.Aims d b := Iff.rfl
  have found : ∀ b, b ∈ m.items ↔ ∃ y ∈ ys.map (Standing.under [c]), y.Aims d b := by
    intro b
    simp only [h.markers b, List.mem_map, exists_exists_and_eq_and, aims]
  -- without a summary, or with no contribution under it, the condition adds nothing
  have bare : (∀ b ∈ m.items, ∀ a, c.summary ≠ some a) →
      Spread d (ys.map (Standing.under [c])) m d₁ := by
    intro idle
    refine ⟨h.passed, found, fun x b => ?_⟩
    simp only [h.marks x b, List.mem_map, exists_exists_and_eq_and, aims, Standing.mentions_under]
    refine or_congr_right (exists_congr fun y => and_congr_right fun mem => and_congr_right
      fun aim => ?_)
    refine ⟨Or.inl, ?_⟩
    rintro (own | ⟨a, near, _⟩)
    · exact own
    · have needs := (h.markers b).mpr ⟨y, mem, aim⟩
      simp only [List.filterMap_cons, List.filterMap_nil] at near
      cases known : c.summary with
      | none => simp [known] at near
      | some a => exact absurd known (idle b needs a)
  unfold Condition.mark
  split
  · rename_i a summary
    split
    · rename_i empty
      refine bare fun b mem => ?_
      rw [OrderedSet.isEmpty, List.isEmpty_iff] at empty
      rw [empty] at mem
      cases mem
    · rename_i filled
      have one : ∃ y ∈ ys, d.reach y.scope ≠ .never := by
        obtain ⟨b, mem⟩ : ∃ b, b ∈ m.items := by
          rw [OrderedSet.isEmpty, List.isEmpty_iff] at filled
          exact List.exists_mem_of_ne_nil _ filled
        obtain ⟨y, mem, aim⟩ := (h.markers b).mp mem
        exact ⟨y, mem, aim.1⟩
      obtain ⟨y, mem, reached⟩ := one
      have complete : d₁.Complete a := by
        refine ((told y mem reached).marked marked).complete a
          (Standing.mem_summaries_under.mpr (.inr ?_))
        simp [summary]
      refine ⟨Design.passedOn_mark (grounded.marked marked) complete h.passed, found, fun x b => ?_⟩
      have under : (∃ a' ∈ [c].filterMap (·.summary), a'.Mentions x) ↔ a.Mentions x := by
        simp [summary]
      simp only [Design.mem_marks_mark (grounded.marked marked) complete h.passed,
        h.marks x b, h.markers b,
        List.mem_map, exists_exists_and_eq_and, aims, Standing.mentions_under, under]
      constructor
      · rintro ((old | ⟨y, mem, aim, mentions⟩) | ⟨mentions, y, mem, aim⟩)
        · exact .inl old
        · exact .inr ⟨y, mem, aim, .inl mentions⟩
        · exact .inr ⟨y, mem, aim, .inr mentions⟩
      · rintro (old | ⟨y, mem, aim, mentions | mentions⟩)
        · exact .inl (.inl old)
        · exact .inl (.inr ⟨y, mem, aim, mentions⟩)
        · exact .inr ⟨mentions, y, mem, aim⟩
  · rename_i unknown
    exact bare fun _ _ a known => by rw [unknown] at known; cases known

theorem contribution {s : Contribution} {outer : ScopeId} (grounded : d.Grounded)
    (passed : d.PassedOn fun _ => False) (reached : d.reach outer ≠ .never)
    (told : Standing.Told d ⟨outer, [], .contribute s⟩) :
    Spread d [⟨outer, [], .contribute s⟩] (s.mark d).1 (s.mark d).2 := by
  unfold Contribution.mark
  split
  · rename_i q a quantity summary
    have complete : d.Complete a :=
      told.complete a (by simp [Standing.summaries, Standing.summary?, summary])
    have aims : ∀ b, Standing.Aims d ⟨outer, [], .contribute s⟩ b ↔
        b = d.circuit.base q.ref.branch := by
      intro b
      simp only [Standing.Aims, Standing.goal?, quantity, Option.map_some,
        Option.some.injEq, reached, ne_eq, not_false_eq_true, true_and, eq_comm]
    have mentions : ∀ x, Standing.Mentions ⟨outer, [], .contribute s⟩ x ↔ a.Mentions x := by
      intro x
      simp [Standing.Mentions, Standing.summaries, Standing.summary?, summary]
    refine ⟨Design.passedOn_mark grounded complete passed, fun b => ?_, fun x b => ?_⟩
    · simp only [List.mem_singleton, exists_eq_left, aims]
    · rw [Design.mem_marks_mark grounded complete passed]
      simp only [List.mem_singleton, exists_eq_left, aims, mentions]
      rw [and_comm]
  · rename_i partly
    refine none passed (List.forall_mem_singleton.mpr fun b aim => ?_)
    obtain ⟨a, summary⟩ := told.whole b aim.2
    obtain ⟨q, quantity, _⟩ := Option.map_eq_some_iff.mp aim.2
    exact partly q a quantity summary

end Spread

variable {d : Design}

theorem idle_of_unreached {e : Design} (marked : d.Marked e) {ys : List Standing}
    (never : ∀ y ∈ ys, d.reach y.scope = .never) : ∀ y ∈ ys, ∀ b, ¬ y.Aims e b :=
  fun y mem _ aim => ((Standing.aims_marked marked).mp aim).1 (never y mem)

mutual

/-- The marks that are made for a statement are those that its contributions call for. -/
theorem spread_mark (s : Statement) {outer : ScopeId} (fits : s.Every (Fits d) outer)
    (grounded : d.Grounded) (told : ∀ y ∈ s.leaves outer [], d.reach y.scope ≠ .never → y.Told d)
    (reached : d.reach (s.ownScope outer) ≠ .never) {e : Design} (marked : d.Marked e)
    (passed : e.PassedOn fun _ => False) :
    Spread e (s.leaves outer []) (s.mark e).1 (s.mark e).2 := by
  cases s with
  | declare s | assign s =>
    exact .none passed (List.forall_mem_singleton.mpr fun b aim => by cases aim.2)
  | contribute s =>
    have here := told _ (List.mem_singleton_self _) reached
    refine .contribution (grounded.marked marked) passed ?_ (here.marked marked)
    rw [Design.reach_eq marked.scopes]
    exact reached
  | conditional c thnScope thn elsScope els =>
    have split : (conditional c thnScope thn elsScope els).leaves outer [] =
        (leavesAll thnScope [] thn ++ leavesAll elsScope [] els).map (Standing.under [c]) := by
      rw [List.map_append, ← leavesAll_under, ← leavesAll_under]
      rfl
    rw [split] at told ⊢
    have under : ∀ y ∈ leavesAll thnScope [] thn ++ leavesAll elsScope [] els,
        d.reach y.scope ≠ .never → (y.under [c]).Told d :=
      fun y mem here => told _ (List.mem_map_of_mem mem) here
    have first := spread_markAll thn fits.2.1 grounded
      (fun y mem here => (under y (List.mem_append_left _ mem) here).of_under) marked passed
    have marked₁ := Design.markKept_marked.statements thnScope thn e
    have second := spread_markAll els fits.2.2 grounded
      (fun y mem here => (under y (List.mem_append_right _ mem) here).of_under)
      (Design.markKept_marked.trans marked marked₁) first.passed
    have marked₂ := Design.markKept_marked.statements elsScope els (markAll thnScope thn e).2
    refine (first.append marked₁ second).condition (Design.markKept_marked.trans marked₁ marked₂)
      (grounded.marked marked) fun y mem here => (under y mem ?_).marked marked
    rw [← Design.reach_eq marked.scopes]
    exact here
  | block inner body => exact spread_markAll body fits.2 grounded told marked passed

theorem spread_markAll (ss : List Statement) {outer : ScopeId} (fits : EveryAll (Fits d) outer ss)
    (grounded : d.Grounded)
    (told : ∀ y ∈ leavesAll outer [] ss, d.reach y.scope ≠ .never → y.Told d)
    {e : Design} (marked : d.Marked e) (passed : e.PassedOn fun _ => False) :
    Spread e (leavesAll outer [] ss) (markAll outer ss e).1 (markAll outer ss e).2 := by
  cases ss with
  | nil => exact .none passed nofun
  | cons s ss =>
    obtain ⟨first, rest⟩ := List.forall_mem_append.mp told
    have same : e.reach (s.ownScope outer) = d.reach (s.ownScope outer) :=
      Design.reach_eq marked.scopes _
    rw [markAll, same]
    split
    · rename_i never
      exact .skip (idle_of_unreached marked (unreached s [] fits.1 (beq_iff_eq.mp never)))
        (spread_markAll ss fits.2 grounded rest marked passed)
    · rename_i reached
      have one := spread_mark s fits.1 grounded first (by simpa using reached) marked passed
      have marked₁ := Design.markKept_marked.statement s e
      exact one.append marked₁ (spread_markAll ss fits.2 grounded rest
        (Design.markKept_marked.trans marked marked₁) one.passed)

end

end Statement
end Analog
