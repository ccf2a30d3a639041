import Analog.Proofs.Design.Growth

/-!
The counters of a circuit against the uses that something holds. A use of an alias counts for the
alias and for what it stands for. Taking a use and giving it back move the counters by what that
use counts for, and what is held can always be given back.
-/
namespace Analog.Circuit

variable {held us : List (BranchId × Usage)} {c c' : Circuit} {b : BranchId}
  {start : BranchId → Usage → Nat} {base : BranchId} {u : Usage}

/-- Whether a use of `a` counts for `b`: it is `b` itself, or an alias of it. -/
def countsFor (c : Circuit) (b a : BranchId) : Bool := a == b || (c.branch a).base == some b

/-- How many of some uses count for a branch in one way. -/
def footprint (c : Circuit) (uses : List (BranchId × Usage)) (b : BranchId) (u : Usage) : Nat :=
  uses.countP fun x => x.2 == u && c.countsFor b x.1

/-- The counters stand where they stood at the start, and above it by the uses that are held. -/
structure Holds (c : Circuit) (start : BranchId → Usage → Nat) (held : List (BranchId × Usage)) :
    Prop where
  inside : ∀ x ∈ held, x.1 < c.branches.size
  counts : ∀ b u, c.count b u = start b u + c.footprint held b u

theorem footprint_append (c : Circuit) (us vs : List (BranchId × Usage)) (b : BranchId)
    (u : Usage) : c.footprint (us ++ vs) b u = c.footprint us b u + c.footprint vs b u := by
  simp [footprint]

theorem footprint_cons (c : Circuit) (x : BranchId × Usage) (us : List (BranchId × Usage))
    (b : BranchId) (u : Usage) :
    c.footprint (x :: us) b u = c.footprint [x] b u + c.footprint us b u :=
  footprint_append c [x] us b u

theorem footprint_perm (c : Circuit) {vs : List (BranchId × Usage)} (perm : us.Perm vs)
    (b : BranchId) (u : Usage) : c.footprint us b u = c.footprint vs b u :=
  perm.countP_eq _

theorem Holds.perm {vs : List (BranchId × Usage)} (h : c.Holds start us) (perm : us.Perm vs) :
    c.Holds start vs where
  inside x mem := h.inside x (perm.mem_iff.mpr mem)
  counts b u := by rw [← footprint_perm c perm]; exact h.counts b u

theorem footprint_congr (same : ∀ x ∈ us, (c'.branch x.1).base = (c.branch x.1).base) (b : BranchId)
    (u : Usage) : c'.footprint us b u = c.footprint us b u := by
  apply List.countP_congr
  intro x mem
  simp only [countsFor, same x mem]

theorem footprint_extends (ext : c.Extends c') (inside : ∀ x ∈ us, x.1 < c.branches.size)
    (b : BranchId) (u : Usage) : c'.footprint us b u = c.footprint us b u :=
  footprint_congr (fun x mem => Branch.base_eq_of_uncounted (ext.kept x.1 (inside x mem))) b u

theorem count_of_size_le (outside : c.branches.size ≤ b) (u : Usage) : c.count b u = 0 := by
  unfold count
  rw [branch_of_size_le outside]
  cases u <;> rfl

theorem count_setCount (c : Circuit) (a b : BranchId) (u v : Usage) (n : Nat) :
      (c.setCount b u n).count a v =
      if a = b ∧ v = u ∧ b < c.branches.size then n else c.count a v := by
  unfold count setCount
  rw [branch_modifyBranch]
  by_cases inside : a = b ∧ b < c.branches.size
  · simp [inside, Counts.get_set]
  · simp only [inside, ↓reduceIte]
    split
    · rename_i h
      exact absurd ⟨h.1, h.2.2⟩ inside
    · rfl

@[simp] theorem size_setCount (c : Circuit) (b : BranchId) (u : Usage) (n : Nat) :
    (c.setCount b u n).branches.size = c.branches.size := size_modifyBranch c b _

theorem base_setCount (c : Circuit) (a b : BranchId) (u : Usage) (n : Nat) :
    ((c.setCount b u n).branch a).base = (c.branch a).base :=
  Branch.base_eq_of_uncounted (branch_eq_of_uncounted (uncounted_setCount c b u n) a)

theorem WellFormed.base_ne (wf : c.WellFormed) {a : BranchId} (h : (c.branch a).base = some b) :
    a ≠ b := by
  rintro rfl
  have own := (wf.base a a h).2
  simp [Branch.isAlias, h] at own

theorem countsFor_none (own : (c.branch b).base = none) (a : BranchId) :
    c.countsFor a b = (b == a) := by
  simp [countsFor, own]

theorem countsFor_some (h : (c.branch b).base = some base) (a : BranchId) :
    c.countsFor a b = (b == a || base == a) := by
  simp [countsFor, h]

theorem footprint_single (c : Circuit) (b : BranchId) (u : Usage) (a : BranchId) (v : Usage) :
    c.footprint [(b, u)] a v = if u = v ∧ c.countsFor a b then 1 else 0 := by
  simp [footprint, List.countP_cons]

theorem count_take (wf : c.WellFormed) (inside : b < c.branches.size) (u : Usage) (a : BranchId)
    (v : Usage) : (c.take b u).count a v = c.count a v + c.footprint [(b, u)] a v := by
  rw [footprint_single]
  unfold take
  cases own : (c.branch b).base with
  | none =>
    simp only [raiseOne, count_setCount, countsFor_none own, beq_iff_eq]
    grind
  | some base =>
    have known := (wf.base b base own).1
    have apart := wf.base_ne own
    simp only [raiseOne, count_setCount, size_setCount, countsFor_some own,
      Bool.or_eq_true, beq_iff_eq]
    grind

theorem lowerOne_eq (positive : 0 < c.count b u) :
    lowerOne b u c = .ok () (c.setCount b u (c.count b u - 1)) := by
  obtain ⟨n, hn⟩ := Nat.exists_eq_succ_of_ne_zero (Nat.ne_of_gt positive)
  simp [lowerOne, hn]

theorem footprint_single_self (c : Circuit) (b : BranchId) (u : Usage) :
    c.footprint [(b, u)] b u = 1 := by
  simp [footprint_single, countsFor]

theorem footprint_single_base (own : (c.branch b).base = some base) (u : Usage) :
    c.footprint [(b, u)] base u = 1 := by
  simp [footprint_single, countsFor, own]

theorem give_eq (wf : c.WellFormed) (inside : b < c.branches.size)
    (enough : ∀ a, c.footprint [(b, u)] a u ≤ c.count a u) :
      ∃ c', give b u c = .ok () c' ∧ c'.uncounted = c.uncounted ∧
      ∀ a v, c.count a v = c'.count a v + c.footprint [(b, u)] a v := by
  have one : 0 < c.count b u := by
    have := enough b
    rw [footprint_single_self] at this
    exact this
  let c₁ := c.setCount b u (c.count b u - 1)
  have first : lowerOne b u c = .ok () c₁ := lowerOne_eq one
  cases own : (c.branch b).base with
  | none =>
    have base₁ : (c₁.branch b).base = none := (base_setCount c b b u _).trans own
    refine ⟨c₁, ?_, uncounted_setCount c b u _, ?_⟩
    · simp only [give, bind, EStateM.bind, first, get, getThe, MonadStateOf.get, EStateM.get, base₁]
      rfl
    · intro a v
      rw [footprint_single]
      simp only [c₁, count_setCount, countsFor_none own, beq_iff_eq]
      grind
  | some base =>
    have base₁ : (c₁.branch b).base = some base := (base_setCount c b b u _).trans own
    have known := (wf.base b base own).1
    have apart := wf.base_ne own
    have two : 0 < c₁.count base u := by
      have := enough base
      rw [footprint_single_base own] at this
      simp only [c₁, count_setCount]
      grind
    let c₂ := c₁.setCount base u (c₁.count base u - 1)
    have second : lowerOne base u c₁ = .ok () c₂ := lowerOne_eq two
    refine ⟨c₂, ?_, (uncounted_setCount c₁ base u _).trans (uncounted_setCount c b u _), ?_⟩
    · simp only [give, bind, EStateM.bind, first, get, getThe, MonadStateOf.get, EStateM.get, base₁]
      exact second
    · intro a v
      rw [footprint_single]
      simp only [c₂, c₁, count_setCount, size_setCount, countsFor_some own, Bool.or_eq_true,
        beq_iff_eq] at two ⊢
      grind

theorem Holds.take (wf : c.WellFormed) (h : c.Holds start held) (inside : b < c.branches.size)
    (u : Usage) : (c.take b u).Holds start ((b, u) :: held) := by
  have same := uncounted_take c b u
  have size := size_eq_of_uncounted same
  have ext := extends_of_uncounted same
  have all : ∀ x ∈ (b, u) :: held, x.1 < c.branches.size := by
    intro x mem
    rcases List.mem_cons.mp mem with rfl | mem
    · exact inside
    · exact h.inside x mem
  refine ⟨fun x mem => by rw [size]; exact all x mem, ?_⟩
  intro a v
  rw [footprint_extends ext all, count_take wf inside, h.counts a v, footprint_cons c (b, u) held]
  omega

theorem Holds.give (wf : c.WellFormed) (h : c.Holds start ((b, u) :: held)) :
    ∃ c', give b u c = .ok () c' ∧ c'.uncounted = c.uncounted ∧ c'.Holds start held := by
  have inside : b < c.branches.size := h.inside (b, u) (List.mem_cons_self ..)
  have rest : ∀ x ∈ held, x.1 < c.branches.size := fun x mem =>
    h.inside x (List.mem_cons_of_mem _ mem)
  have counts : ∀ a v, c.count a v = start a v +
      (c.footprint [(b, u)] a v + c.footprint held a v) := by
    intro a v
    rw [h.counts a v, footprint_cons c (b, u) held]
  obtain ⟨c', run, same, moved⟩ := give_eq wf inside (u := u) (fun a => by rw [counts a u]; omega)
  refine ⟨c', run, same, ?_, ?_⟩
  · intro x mem
    rw [size_eq_of_uncounted same]
    exact rest x mem
  · intro a v
    rw [footprint_extends (extends_of_uncounted same) rest]
    have before := counts a v
    have after := moved a v
    omega

theorem Holds.giveAll (wf : c.WellFormed) (h : c.Holds start (us ++ held)) :
    ∃ c', giveAll us c = .ok () c' ∧ c'.uncounted = c.uncounted ∧ c'.Holds start held := by
  induction us generalizing c with
  | nil => exact ⟨c, rfl, rfl, h⟩
  | cons x us ih =>
    obtain ⟨c₁, first, same₁, held₁⟩ := Holds.give wf (b := x.1) (u := x.2) h
    obtain ⟨c₂, rest, same₂, held₂⟩ := ih (wf.of_uncounted same₁) held₁
    refine ⟨c₂, ?_, same₂.trans same₁, held₂⟩
    simp only [Circuit.giveAll, bind, EStateM.bind, first]
    exact rest

theorem Holds.addBranch (h : c.Holds start held) {new : Branch} (unused : new.usage = .zero) :
    (c.addBranch new).2.Holds start held where
  inside x mem := by
    rw [size_addBranch]
    exact Nat.lt_succ_of_lt (h.inside x mem)
  counts b u := by
    have same : (c.addBranch new).2.footprint held b u = c.footprint held b u := by
      apply footprint_congr
      intro x mem
      rw [branch_addBranch, if_neg (Nat.ne_of_lt (h.inside x mem))]
    have count : (c.addBranch new).2.count b u = c.count b u := by
      by_cases at_end : b = c.branches.size
      · rw [count_of_size_le (Nat.le_of_eq at_end.symm), count, branch_addBranch,
          if_pos at_end, unused]
        cases u <;> rfl
      · simp only [count, branch_addBranch, if_neg at_end]
    rw [count, same]
    exact h.counts b u

theorem Holds.withNodes (h : c.Holds start held) (nodes : Array Node) (filters : Nat) :
    Holds ⟨nodes, c.branches, filters⟩ start held :=
  ⟨h.inside, h.counts⟩

theorem Holds.connect (h : c.Holds start held) {p n : NodeId} {r : BranchRef}
    (run : c.connect p n = .ok (r, c')) : c'.Holds start held := by
  obtain ⟨_, ⟨_, rfl⟩ | ⟨_, _, rfl⟩⟩ := connect_cases run
  · exact h
  · exact h.addBranch rfl

theorem Holds.addFilter (h : c.Holds start held) (stem : String) :
    (c.addFilter stem).2.Holds start held := by
  rw [addFilter_eq]
  exact (h.withNodes _ _).addBranch rfl

end Analog.Circuit
