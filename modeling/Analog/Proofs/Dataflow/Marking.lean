import Analog.Proofs.Statement.Positions
import Analog.Proofs.Tree.Mentions

/-!
Marks. Nothing changes by marking but marks, and these only grow. A mark goes to all that a value
mentions, and from a variable on to all that its value mentions; it goes nowhere else, and the way
to go is bounded by the number of variables that lack it.
-/
namespace Analog

namespace Design

def marks (d : Design) : Mention → Markers
  | .probe q => d.circuit.probeNeeded q
  | .variable v => (d.variableOf v).needed

def Has (d : Design) : Mention → Prop
  | .probe q => q.branch < d.circuit.branches.size
  | .variable v => v < d.vars.size

structure Marked (d d' : Design) : Prop where
  scopes : d'.scopes = d.scopes
  vars : d'.vars.size = d.vars.size
  env : ∀ v, d'.env v = d.env v
  branches : d'.circuit.branches.size = d.circuit.branches.size
  base : ∀ b, d'.circuit.base b = d.circuit.base b
  more : ∀ x, ∀ b ∈ (d.marks x).items, b ∈ (d'.marks x).items

end Design

theorem Circuit.branch_need (c : Circuit) (q : Probe) (m : Markers) (b : BranchId) :
    (c.need q m).branch b = if b = q.branch ∧ q.branch < c.branches.size then
      (match q.access with
        | .potential => { c.branch b with
            needed := (c.branch b).needed.union m
            potentialNeeded := (c.branch b).potentialNeeded.union m }
        | .flow => { c.branch b with
            needed := (c.branch b).needed.union m
            flowNeeded := (c.branch b).flowNeeded.union m })
      else c.branch b := by
  rw [need, branch_modifyBranch]
  split
  · rename_i same
    obtain ⟨rfl, -⟩ := same
    cases q.access <;> rfl
  · rfl

namespace Design

variable {d : Design} {m : Markers} {x : Mention} {b : BranchId}

theorem mem_marks_markVariable {v : VariableId} : b ∈ ((d.markVariable v m).marks x).items ↔
      b ∈ (d.marks x).items ∨ x = .variable v ∧ d.Has x ∧ b ∈ m.items := by
  cases x with
  | probe q =>
    constructor
    · exact Or.inl
    · rintro (known | ⟨⟨⟩, _⟩)
      exact known
  | «variable» w =>
    rw [marks, marks, markVariable, variableOf_modifyVariable]
    split
    · rename_i same
      obtain ⟨rfl, inside⟩ := same
      simp only [OrderedSet.mem_union, Has, inside, true_and]
    · rename_i other
      constructor
      · exact Or.inl
      · rintro (known | ⟨⟨⟩, inside, _⟩)
        · exact known
        · exact absurd ⟨rfl, inside⟩ other

theorem mem_marks_need {q : Probe} :
    b ∈ (marks { d with circuit := d.circuit.need q m } x).items ↔
      b ∈ (d.marks x).items ∨ x = .probe q ∧ d.Has x ∧ b ∈ m.items := by
  cases x with
  | «variable» v =>
    constructor
    · exact Or.inl
    · rintro (known | ⟨⟨⟩, _⟩)
      exact known
  | probe p =>
    obtain ⟨branch, access⟩ := p
    rw [marks, marks, Circuit.probeNeeded, Circuit.probeNeeded, Circuit.branch_need]
    obtain ⟨branch', access'⟩ := q
    by_cases here : branch = branch' ∧ branch' < d.circuit.branches.size
    · obtain ⟨rfl, inside⟩ := here
      simp only [inside, and_self, ↓reduceIte, Has, true_and, Mention.probe.injEq, Probe.mk.injEq]
      cases access <;> cases access' <;> simp [Branch.probeNeeded, OrderedSet.mem_union]
    · rw [if_neg here]
      constructor
      · exact Or.inl
      · rintro (known | ⟨⟨⟩, inside, _⟩)
        · exact known
        · exact absurd ⟨rfl, inside⟩ here

theorem markKept_marked : MarkKept Marked where
  refl _ := ⟨rfl, rfl, fun _ => rfl, rfl, fun _ => rfl, fun _ _ mem => mem⟩
  trans ab bc := ⟨bc.scopes.trans ab.scopes, bc.vars.trans ab.vars,
    fun v => (bc.env v).trans (ab.env v),
    bc.branches.trans ab.branches, fun b => (bc.base b).trans (ab.base b),
    fun x b mem => bc.more x b (ab.more x b mem)⟩
  ofVariable d v m := by
    refine ⟨rfl, by simp [markVariable, modifyVariable], fun w => ?_, rfl, fun _ => rfl,
      fun _ _ mem => mem_marks_markVariable.mpr (.inl mem)⟩
    rw [env, markVariable, variableOf_modifyVariable]
    split
    · rename_i same
      rw [same.1]
      rfl
    · rfl
  ofProbe d q m := by
    refine ⟨rfl, rfl, fun _ => rfl, ?_, fun b => ?_, fun _ _ mem => mem_marks_need.mpr (.inl mem)⟩
    · exact Circuit.size_modifyBranch _ _ _
    · rw [Circuit.base, Circuit.base, Circuit.branch_need]
      split
      · cases q.access <;> rfl
      · rfl

theorem Marked.has {d' : Design} (h : d.Marked d') (x : Mention) : d'.Has x ↔ d.Has x := by
  cases x with
  | probe q => rw [Has, Has, h.branches]
  | «variable» v => rw [Has, Has, h.vars]

theorem mem_marks_markProbes {edges : List Edge} : b ∈ ((d.markProbes edges m).2.marks x).items ↔
      b ∈ (d.marks x).items ∨ (∃ e ∈ edges, x = .probe e.probe) ∧ d.Has x ∧ b ∈ m.items := by
  have folded : ∀ y : Bool × Design, b ∈ ((edges.foldl (fun y e =>
      (y.1 || (y.2.circuit.probeNeeded e.probe).grows m,
        { y.2 with circuit := y.2.circuit.need e.probe m })) y).2.marks x).items ↔
      b ∈ (y.2.marks x).items ∨ (∃ e ∈ edges, x = .probe e.probe) ∧ y.2.Has x ∧ b ∈ m.items := by
    induction edges with
    | nil => simp
    | cons e edges ih =>
      intro y
      have has := (markKept_marked.ofProbe y.2 e.probe m).has x
      rw [List.foldl_cons, ih, mem_marks_need, has]
      simp only [List.mem_cons, exists_eq_or_imp]
      tauto
  exact folded (false, d)

section Walk

variable {v : VariableId} {s : Summary} {m : Markers}

def pass (fuel : Nat) (m : Markers) (d : Design) (v : VariableId) : Design :=
  if (d.variableOf v).needed.grows m then (markFuel fuel (d.markVariable v m) (d.env v) m).2 else d

theorem markFuel_succ (fuel : Nat) (d : Design) (s : Summary) (m : Markers) :
    markFuel (fuel + 1) d s m = (s.consumers.items.foldl (pass fuel m) d).markProbes
    s.deps.edges m := rfl

theorem marked_pass (fuel : Nat) (d : Design) (v : VariableId) : d.Marked (pass fuel m d v) := by
  unfold pass
  split
  · exact markKept_marked.trans (markKept_marked.ofVariable d v m)
      (markKept_marked.markFuel fuel _ _ m)
  · exact markKept_marked.refl d

theorem marked_passes (fuel : Nat) (vs : List VariableId) (d : Design) :
    d.Marked (vs.foldl (pass fuel m) d) := by
  induction vs generalizing d with
  | nil => exact markKept_marked.refl d
  | cons v vs ih => exact markKept_marked.trans (marked_pass fuel d v) (ih _)

def lacking (d : Design) (m : Markers) : Finset VariableId :=
  (Finset.range d.vars.size).filter fun v => (d.variableOf v).needed.grows m

theorem lacking_subset {d' : Design} (h : d.Marked d') : d'.lacking m ⊆ d.lacking m := by
  intro v mem
  simp only [lacking, Finset.mem_filter, Finset.mem_range] at mem ⊢
  refine ⟨h.vars ▸ mem.1, ?_⟩
  by_contra full
  rw [Bool.not_eq_true, OrderedSet.grows_eq_false] at full
  have still : (d'.variableOf v).needed.grows m = false :=
    OrderedSet.grows_eq_false.mpr fun b needs => h.more (.variable v) b (full b needs)
  rw [still] at mem
  cases mem.2

theorem lacking_markVariable (inside : v < d.vars.size)
    (lacks : (d.variableOf v).needed.grows m = true) :
    ((d.markVariable v m).lacking m).card < (d.lacking m).card := by
  apply Finset.card_lt_card
  refine ⟨lacking_subset (markKept_marked.ofVariable d v m), fun all => ?_⟩
  have before : v ∈ d.lacking m := by
    simp only [lacking, Finset.mem_filter, Finset.mem_range]
    exact ⟨inside, lacks⟩
  have after := all before
  simp only [lacking, Finset.mem_filter, Finset.mem_range] at after
  have full : ((d.markVariable v m).variableOf v).needed.grows m = false := by
    refine OrderedSet.grows_eq_false.mpr fun b needs => ?_
    exact (mem_marks_markVariable (x := .variable v)).mpr (.inr ⟨rfl, inside, needs⟩)
  rw [full] at after
  cases after.2

/-- Marks go to what is mentioned, and from variables on to what their values mention: they stay
within every collection that is closed under this. -/
theorem markFuel_within {env : VariableId → Summary} {within : Mention → Prop}
    (closed : ∀ v, within (.variable v) → ∀ x, (env v).Mentions x → within x)
    (fuel : Nat) (d : Design)
    (same : ∀ v, d.env v = env v) (s : Summary) (inside : ∀ x, s.Mentions x → within x)
    (mem : b ∈ ((markFuel fuel d s m).2.marks x).items) : b ∈ (d.marks x).items ∨ within x ∧
    b ∈ m.items := by
  induction fuel generalizing d s x b with
  | zero => exact .inl mem
  | succ fuel ih =>
    have passed : ∀ (vs : List VariableId) (e : Design), (∀ v, e.env v = env v) →
        (∀ v ∈ vs, within (.variable v)) → ∀ {x b}, b ∈ ((vs.foldl (pass fuel m) e).marks x).items →
        b ∈ (e.marks x).items ∨ within x ∧ b ∈ m.items := by
      intro vs
      induction vs with
      | nil => exact fun e _ _ _ _ known => .inl known
      | cons v vs ihv =>
        intro e agree all x b known
        obtain ⟨first, rest⟩ := List.forall_mem_cons.mp all
        have agree' : ∀ w, (pass fuel m e v).env w = env w :=
          fun w => ((marked_pass fuel e v).env w).trans (agree w)
        rcases ihv (pass fuel m e v) agree' rest known with here | new
        · unfold pass at here
          split at here
          · have marked := markKept_marked.ofVariable e v m
            have found := ih (e.markVariable v m) (fun w => (marked.env w).trans (agree w)) _
              (fun y mentioned => closed v first y (by rw [← agree v]; exact mentioned)) here
            rcases found with old | new
            · rcases mem_marks_markVariable.mp old with old | ⟨rfl, _, new⟩
              · exact .inl old
              · exact .inr ⟨first, new⟩
            · exact .inr new
          · exact .inl here
        · exact .inr new
    rw [markFuel_succ] at mem
    rcases mem_marks_markProbes.mp mem with old | ⟨⟨e, edge, rfl⟩, _, new⟩
    · exact passed _ d same (fun v read => inside (.variable v) read) old
    · exact .inr ⟨inside _ (Summary.mentions_of_mem edge), new⟩

/-- All variables, but for those that are still at it, have passed on their marks to what their
values mention. -/
def PassedOn (busy : VariableId → Prop) (d : Design) : Prop :=
  ∀ v, ¬ busy v → ∀ b ∈ (d.marks (.variable v)).items, ∀ x, (d.env v).Mentions x →
    b ∈ (d.marks x).items

def Grounded (d : Design) : Prop := ∀ v x, (d.env v).Mentions x → d.Has x

theorem Grounded.marked {d d' : Design} (h : d.Grounded) (marked : d.Marked d') : d'.Grounded := by
  intro v x mentioned
  rw [marked.env v] at mentioned
  exact (marked.has x).mpr (h v x mentioned)

theorem pass_closes {fuel : Nat} {busy : VariableId → Prop}
    (walk : ∀ {busy : VariableId → Prop} {e : Design}, e.Grounded →
      (∀ x, (d.env v).Mentions x → e.Has x) →
      (e.lacking m).card < fuel → e.PassedOn busy → (markFuel fuel e (d.env v) m).2.PassedOn busy ∧
        ∀ x, (d.env v).Mentions x →
        ∀ b ∈ m.items, b ∈ ((markFuel fuel e (d.env v) m).2.marks x).items)
    (grounded : d.Grounded) (inside : v < d.vars.size) (enough : (d.lacking m).card ≤ fuel)
    (passed : d.PassedOn busy) : (pass fuel m d v).PassedOn busy ∧
      ∀ b ∈ m.items, b ∈ ((pass fuel m d v).marks (.variable v)).items := by
  unfold pass
  split
  · rename_i lacks
    have marked := markKept_marked.ofVariable d v m
    have fewer := Nat.lt_of_lt_of_le (lacking_markVariable inside lacks) enough
    have begun : (d.markVariable v m).PassedOn fun w => busy w ∨ w = v := by
      intro w idle b mem x mentioned
      rw [not_or] at idle
      rw [marked.env] at mentioned
      rcases mem_marks_markVariable.mp mem with old | ⟨same, _⟩
      · exact marked.more x b (passed w idle.1 b old x mentioned)
      · exact absurd (Mention.variable.inj same) idle.2
    obtain ⟨after, reached⟩ := walk (grounded.marked marked)
      (fun x mentioned => (marked.has x).mpr (grounded v x mentioned)) fewer begun
    have grown := markKept_marked.markFuel fuel (d.markVariable v m) (d.env v) m
    constructor
    · intro w idle b mem x mentioned
      by_cases same : w = v
      · subst same
        rw [grown.env, marked.env] at mentioned
        -- a mark of the variable is one that it had before, or one that was passed on just now
        have origin : b ∈ ((d.markVariable w m).marks (.variable w)).items ∨ True ∧ b ∈ m.items :=
          markFuel_within (fun _ _ _ _ => trivial) fuel (d.markVariable w m) marked.env _
            (fun _ _ => trivial) mem
        rcases origin with old | ⟨_, new⟩
        · rcases mem_marks_markVariable.mp old with old | ⟨_, _, new⟩
          · exact grown.more x b (marked.more x b (passed w idle b old x mentioned))
          · exact reached x mentioned b new
        · exact reached x mentioned b new
      · exact after w (fun out => out.elim idle same) b mem x mentioned
    · intro b new
      exact grown.more _ b (mem_marks_markVariable.mpr (.inr ⟨rfl, inside, new⟩))
  · rename_i full
    rw [Bool.not_eq_true, OrderedSet.grows_eq_false] at full
    exact ⟨passed, full⟩

theorem markFuel_closes (fuel : Nat) {busy : VariableId → Prop} (grounded : d.Grounded)
    (there : ∀ x, s.Mentions x → d.Has x) (enough : (d.lacking m).card < fuel)
    (passed : d.PassedOn busy) :
    (markFuel fuel d s m).2.PassedOn busy ∧
      ∀ x, s.Mentions x → ∀ b ∈ m.items, b ∈ ((markFuel fuel d s m).2.marks x).items := by
  induction fuel generalizing busy d s with
  | zero => omega
  | succ fuel ih =>
    have passes : ∀ (vs : List VariableId) (e : Design), e.Grounded → (∀ v ∈ vs, v < e.vars.size) →
        (e.lacking m).card ≤ fuel → e.PassedOn busy → (vs.foldl (pass fuel m) e).PassedOn busy ∧
          ∀ v ∈ vs, ∀ b ∈ m.items, b ∈ ((vs.foldl (pass fuel m) e).marks (.variable v)).items := by
      intro vs
      induction vs with
      | nil => exact fun e _ _ _ known => ⟨known, nofun⟩
      | cons v vs ihv =>
        intro e grounded inside enough passed
        obtain ⟨first, rest⟩ := List.forall_mem_cons.mp inside
        have marked := marked_pass (m := m) fuel e v
        have fewer := Nat.le_trans (Finset.card_le_card (lacking_subset (m := m) marked)) enough
        obtain ⟨passed', own⟩ := pass_closes ih grounded first enough passed
        obtain ⟨done, others⟩ := ihv _ (grounded.marked marked)
          (by rw [marked.vars]; exact rest) fewer passed'
        refine ⟨done, List.forall_mem_cons.mpr ⟨fun b new => ?_, others⟩⟩
        exact (marked_passes fuel vs _).more _ b (own b new)
    have read : ∀ v ∈ s.consumers.items, v < d.vars.size := fun v known => there (.variable v) known
    obtain ⟨after, own⟩ := passes s.consumers.items d grounded read
      (Nat.le_of_lt_succ enough) passed
    have walked := marked_passes (m := m) fuel s.consumers.items d
    have probes := markKept_marked.markProbes (s.consumers.items.foldl (pass fuel m) d)
      s.deps.edges m
    rw [markFuel_succ]
    constructor
    · intro v idle b mem x mentioned
      rw [probes.env] at mentioned
      rcases mem_marks_markProbes.mp mem with old | ⟨⟨e, _, same⟩, _⟩
      · exact probes.more x b (after v idle b old x mentioned)
      · cases same
    · intro x mentioned b new
      cases x with
      | probe q =>
        obtain ⟨e, edge, same⟩ := Summary.exists_of_mentions mentioned
        refine mem_marks_markProbes.mpr (.inr ⟨⟨e, edge, by rw [same]⟩, ?_, new⟩)
        exact (walked.has _).mpr (there _ mentioned)
      | «variable» v => exact probes.more _ b (own v mentioned b new)

/-- What a value mentions is there, and with a variable it mentions all that the value of the
variable mentions. -/
structure Complete (d : Design) (s : Summary) : Prop where
  there : ∀ x, s.Mentions x → d.Has x
  closed : ∀ v, s.Mentions (.variable v) → ∀ x, (d.env v).Mentions x → s.Mentions x

theorem card_lacking_le (d : Design) : (d.lacking m).card ≤ d.vars.size := by
  have all := Finset.card_filter_le (Finset.range d.vars.size) fun v =>
    (d.variableOf v).needed.grows m = true
  rw [Finset.card_range] at all
  exact all

theorem mem_marks_mark (grounded : d.Grounded) (complete : d.Complete s)
    (passed : d.PassedOn fun _ => False) :
    b ∈ ((d.mark s m).2.marks x).items ↔ b ∈ (d.marks x).items ∨ s.Mentions x ∧ b ∈ m.items := by
  constructor
  · exact markFuel_within complete.closed _ d (fun _ => rfl) s fun _ mentioned => mentioned
  · rintro (old | ⟨mentioned, new⟩)
    · exact (markKept_marked.mark d s m).more x b old
    · exact (markFuel_closes _ grounded complete.there (Nat.lt_succ_of_le (card_lacking_le d))
        passed).2
        x mentioned b new

theorem passedOn_mark (grounded : d.Grounded) (complete : d.Complete s)
    (passed : d.PassedOn fun _ => False) : (d.mark s m).2.PassedOn fun _ => False :=
  (markFuel_closes _ grounded complete.there (Nat.lt_succ_of_le (card_lacking_le d)) passed).1

end Walk

end Design

end Analog
