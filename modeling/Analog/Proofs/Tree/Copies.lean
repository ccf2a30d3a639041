import Analog.Proofs.Resolver.MarksIgnored
import Analog.Tree.Copy

/-!
Copies of trees and the counters. A copy is the tree again and takes what dropping the tree gives
back, so a tree and its copies can be dropped in any order, with more copies made in between, and in
the end the counters stand where they stood before the tree was made.
-/
namespace Analog

theorem CircuitM.bind_eq_ok {α β : Type} {act : CircuitM α} {next : α → CircuitM β} {c c' : Circuit}
    {b : β} : (act >>= next) c = .ok b c' ↔ ∃ a c₁, act c = .ok a c₁ ∧ next a c₁ = .ok b c' := by
  simp only [bind, EStateM.bind]
  cases act c <;> simp

namespace Circuit

theorem giveAll_append (us vs : List (BranchId × Usage)) :
    giveAll (us ++ vs) = giveAll us >>= fun _ => giveAll vs := by
  induction us with
  | nil => rfl
  | cons x us ih =>
    simp only [List.cons_append, giveAll, ih, bind_assoc]

theorem takeAll_append (c : Circuit) (us vs : List (BranchId × Usage)) :
    c.takeAll (us ++ vs) = (c.takeAll us).takeAll vs := List.foldl_append

theorem uncounted_takeAll (c : Circuit) (us : List (BranchId × Usage)) :
    (c.takeAll us).uncounted = c.uncounted := by
  induction us generalizing c with
  | nil => rfl
  | cons x us ih => exact (ih (c.take x.1 x.2)).trans (uncounted_take c x.1 x.2)

theorem Holds.takeAll {c : Circuit} (wf : c.WellFormed) {start : BranchId → Usage → Nat}
    {us held : List (BranchId × Usage)} (h : c.Holds start held)
    (inside : ∀ x ∈ us, x.1 < c.branches.size) : (c.takeAll us).Holds start (us ++ held) := by
  induction us generalizing c held with
  | nil => exact h
  | cons x us ih =>
    obtain ⟨first, rest⟩ := List.forall_mem_cons.mp inside
    have same := uncounted_take c x.1 x.2
    have taken := ih (wf.of_uncounted same) (h.take wf first x.2)
      (by rw [size_eq_of_uncounted same]; exact rest)
    exact taken.perm List.perm_middle

theorem count_takeAll {c : Circuit} (wf : c.WellFormed) {us : List (BranchId × Usage)}
    (inside : ∀ x ∈ us, x.1 < c.branches.size) (b : BranchId) (u : Usage) :
    (c.takeAll us).count b u = c.count b u + c.footprint us b u := by
  have none : c.Holds c.count [] := ⟨List.forall_mem_nil _, fun _ _ => rfl⟩
  have taken := none.takeAll wf inside
  rw [List.append_nil] at taken
  rw [taken.counts b u, footprint_extends (extends_of_uncounted (uncounted_takeAll c us)) inside]

section Given

variable {c c' : Circuit} {b : BranchId} {u : Usage}

theorem lowerOne_eq_ok (run : lowerOne b u c = .ok () c') :
    0 < c.count b u ∧ c' = c.setCount b u (c.count b u - 1) := by
  unfold lowerOne at run
  split at run
  · cases run
  · rename_i n known
    cases run
    exact ⟨by omega, by rw [known, Nat.succ_sub_one]⟩

theorem footprint_le_of_give (wf : c.WellFormed) (run : give b u c = .ok () c') (a : BranchId) :
    c.footprint [(b, u)] a u ≤ c.count a u := by
  unfold give at run
  obtain ⟨x, c₁, first, rest⟩ := CircuitM.bind_eq_ok.mp run
  obtain ⟨one, rfl⟩ := lowerOne_eq_ok first
  obtain ⟨_, _, look, rest⟩ := CircuitM.bind_eq_ok.mp rest
  cases look
  rw [base_setCount] at rest
  rw [footprint_single]
  cases own : (c.branch b).base with
  | none =>
    simp only [countsFor_none own, beq_iff_eq]
    split
    · rename_i same
      rw [← same.2]
      omega
    · omega
  | some base =>
    simp only [own] at rest
    have apart := wf.base_ne own
    have two := (lowerOne_eq_ok rest).1
    rw [count_setCount, if_neg fun same => apart same.1.symm] at two
    simp only [countsFor_some own, Bool.or_eq_true, beq_iff_eq]
    split
    · rename_i same
      rcases same.2 with rfl | rfl <;> omega
    · omega

theorem count_of_give (wf : c.WellFormed) (inside : b < c.branches.size)
    (run : give b u c = .ok () c')
    (a : BranchId) (v : Usage) : c.count a v = c'.count a v + c.footprint [(b, u)] a v := by
  obtain ⟨c₁, run₁, _, moved⟩ := give_eq wf inside (footprint_le_of_give wf run)
  rw [run] at run₁
  cases run₁
  exact moved a v

theorem count_of_giveAll (wf : c.WellFormed) {us : List (BranchId × Usage)}
    (inside : ∀ x ∈ us, x.1 < c.branches.size) (run : giveAll us c = .ok () c') (a : BranchId)
    (v : Usage) : c.count a v = c'.count a v + c.footprint us a v := by
  induction us generalizing c with
  | nil =>
    cases run
    rfl
  | cons x us ih =>
    obtain ⟨first, rest⟩ := List.forall_mem_cons.mp inside
    unfold giveAll at run
    obtain ⟨_, c₁, one, others⟩ := CircuitM.bind_eq_ok.mp run
    have same := (recounts_give _ _ _).1 _ _ one
    have size := size_eq_of_uncounted same
    have moved := ih (wf.of_uncounted same) (by rw [size]; exact rest) others
    rw [footprint_extends (extends_of_uncounted same) rest] at moved
    have lowered : c.count a v = c₁.count a v + c.footprint [x] a v :=
      count_of_give wf first one a v
    rw [lowered, moved, footprint_cons c x us]
    omega

end Given

end Circuit

namespace Tree

mutual

theorem copy_eq (t : Tree) (c : Circuit) : t.copy c = (t, t.acquire c) := by
  cases t with
  | literal | parameter | «variable» | access | node | port | marker | deferred => rfl
  | declaration v init =>
    simp only [copy, bind, StateT.bind, copy_eq init]
    rfl
  | unary op x s =>
    simp only [copy, bind, StateT.bind, copy_eq x]
    rfl
  | binary op l r s =>
    simp only [copy, bind, StateT.bind, copy_eq l, copy_eq r, acquire, uses, Circuit.takeAll_append]
    rfl
  | ternary k t e s =>
    simp only [copy, bind, StateT.bind, copy_eq k, copy_eq t, copy_eq e, acquire, uses,
      Circuit.takeAll_append]
    rfl
  | call f args filter s =>
    cases filter with
    | none =>
      simp only [copy, bind, StateT.bind, copyAll_eq args]
      rfl
    | some b =>
      simp only [copy, bind, StateT.bind, modify, modifyGet, MonadStateOf.modifyGet,
        StateT.modifyGet, pure, copyAll_eq args]
      rfl
  | arguments items =>
    simp only [copy, bind, StateT.bind, copyAll_eq items]
    rfl

theorem copyAll_eq (ts : List Tree) (c : Circuit) :
    copyAll ts c = (ts, c.takeAll (allUses ts)) := by
  cases ts with
  | nil => rfl
  | cons t ts =>
    simp only [copyAll, bind, StateT.bind, copy_eq t, copyAll_eq ts, allUses,
      Circuit.takeAll_append]
    rfl

end

def own : Tree → List (BranchId × Usage)
  | .access q => [(q.ref.branch, q.probe.access.probe)]
  | .call _ _ (some b) _ => [(b, .potentialProbe), (b, .flowSource)]
  | _ => []

theorem giveOwn_eq (t : Tree) : t.giveOwn = Circuit.giveAll t.own := by
  cases t with
  | access q => exact bind_pure_unit.symm
  | call f args filter s =>
    cases filter with
    | none => rfl
    | some b => simp only [giveOwn, own, Circuit.giveFilter, Circuit.giveAll, bind_pure_unit]
  | _ => rfl

theorem uses_eq (t : Tree) : t.uses = t.own ++ allUses t.children := by
  cases t with
  | call f args filter s => cases filter <;> simp [uses, own, children, allUses]
  | _ => simp [uses, own, children, allUses]

theorem forM_giveAll {α : Type} (act : α → CircuitM Unit) (f : α → Tree) (ts : List α)
    (same : ∀ x ∈ ts, act x = Circuit.giveAll (f x).uses) :
    ts.forM act = Circuit.giveAll (allUses (ts.map f)) := by
  induction ts with
  | nil => rfl
  | cons x ts ih =>
    obtain ⟨first, rest⟩ := List.forall_mem_cons.mp same
    rw [List.map_cons, allUses, Circuit.giveAll_append, ← ih rest, ← first]
    rfl

theorem drop_eq (t : Tree) : t.drop = t.release := by
  rw [drop, release, uses_eq, Circuit.giveAll_append, giveOwn_eq]
  congr
  funext _
  rw [forM_giveAll _ (fun u => u.1) _ fun u _ => drop_eq u.1, List.attach_map_subtype_val]
termination_by sizeOf t
decreasing_by exact sizeOf_lt_of_mem_children u.2

theorem source_of_uncounted {c c' : Circuit} (same : c'.uncounted = c.uncounted) (t : Tree) :
    t.source c' = t.source c :=
  source_congr (Circuit.nodeName_of_uncounted same) (Circuit.refText_of_uncounted same) t

/-- What may be done to one of some trees, told by its place. -/
inductive Handling where
  | copy (k : Nat)
  | drop (k : Nat)

/-- Copies trees and drops them; a place where no tree stands is passed over. -/
def handle : List Handling → List Tree → CircuitM (List Tree)
  | [], live => return live
  | .copy k :: rest, live => do
    match live[k]? with
    | some t =>
      let (copied, c) := t.copy (← get)
      set c
      handle rest (live ++ [copied])
    | none => handle rest live
  | .drop k :: rest, live => do
    match live[k]? with
    | some t =>
      t.drop
      handle rest (live.eraseIdx k)
    | none => handle rest live

section Handled

variable {t : Tree} {start : BranchId → Usage → Nat}

theorem mem_allUses {ts : List Tree} (mem : t ∈ ts) {x : BranchId × Usage} (used : x ∈ t.uses) :
    x ∈ allUses ts := by
  induction ts with
  | nil => exact absurd mem List.not_mem_nil
  | cons u ts ih =>
    rw [allUses]
    rcases List.mem_cons.mp mem with rfl | later
    · exact List.mem_append_left _ used
    · exact List.mem_append_right _ (ih later)

theorem footprint_copies (c : Circuit) {ts : List Tree} (same : ∀ u ∈ ts, u = t) (b : BranchId)
    (u : Usage) : c.footprint (allUses ts) b u = ts.length * c.footprint t.uses b u := by
  induction ts with
  | nil => simp [allUses, Circuit.footprint]
  | cons x ts ih =>
    obtain ⟨first, rest⟩ := List.forall_mem_cons.mp same
    rw [allUses, Circuit.footprint_append, ih rest, first, List.length_cons,
      Nat.succ_mul, Nat.add_comm]

structure Live (t : Tree) (start : BranchId → Usage → Nat) (live : List Tree) (c : Circuit) :
    Prop where
  wellFormed : c.WellFormed
  same : ∀ u ∈ live, u = t
  holds : c.Holds start (allUses live)

theorem Live.copy {live : List Tree} {c : Circuit} (h : Live t start live c) {u : Tree}
    (mem : u ∈ live) :
    (u.acquire c).uncounted = c.uncounted ∧ Live t start (live ++ [u]) (u.acquire c) := by
  have inside : ∀ x ∈ u.uses, x.1 < c.branches.size := by
    intro x used
    exact h.holds.inside x (mem_allUses mem used)
  have same := Circuit.uncounted_takeAll c u.uses
  refine ⟨same, h.wellFormed.of_uncounted same, ?_, ?_⟩
  · intro w there
    rcases List.mem_append.mp there with old | new
    · exact h.same w old
    · rw [List.mem_singleton.mp new]
      exact h.same u mem
  · have taken := h.holds.takeAll h.wellFormed inside
    rw [allUses_append, allUses, allUses, List.append_nil]
    exact taken.perm List.perm_append_comm

theorem Live.drop {live : List Tree} {c : Circuit} (h : Live t start live c) {k : Nat} {u : Tree}
    (found : live[k]? = some u) : ∃ c', u.release c = .ok () c' ∧ c'.uncounted = c.uncounted ∧
      Live t start (live.eraseIdx k) c' := by
  have perm : live.Perm (u :: live.eraseIdx k) := by
    obtain ⟨inside, rfl⟩ := List.getElem?_eq_some_iff.mp found
    exact (List.getElem_cons_eraseIdx_perm inside).symm
  obtain ⟨c', run, same, rest⟩ := (h.holds.perm (allUses_perm perm)).giveAll h.wellFormed
  refine ⟨c', run, same, h.wellFormed.of_uncounted same, ?_, rest⟩
  intro w mem
  exact h.same w (List.mem_of_mem_eraseIdx mem)

/-- Nothing that is done to the trees fails, and what they use is held all the time. -/
theorem Live.handle (hs : List Handling) {live : List Tree} {c : Circuit}
    (h : Live t start live c) :
    ∃ live' c', handle hs live c = .ok live' c' ∧ c'.uncounted = c.uncounted ∧
    Live t start live' c' := by
  induction hs generalizing live c with
  | nil => exact ⟨live, c, rfl, rfl, h⟩
  | cons step hs ih =>
    cases step with
    | copy k =>
      cases found : live[k]? with
      | none =>
        obtain ⟨live', c', run, rest⟩ := ih h
        exact ⟨live', c', by simpa only [Tree.handle, found] using run, rest⟩
      | some u =>
        obtain ⟨same, next⟩ := h.copy (List.mem_of_getElem? found)
        obtain ⟨live', c', run, same', rest⟩ := ih next
        refine ⟨live', c', ?_, same'.trans same, rest⟩
        simp only [Tree.handle, found, bind, EStateM.bind, get, getThe, MonadStateOf.get,
          EStateM.get, copy_eq, set, EStateM.set]
        exact run
    | drop k =>
      cases found : live[k]? with
      | none =>
        obtain ⟨live', c', run, rest⟩ := ih h
        exact ⟨live', c', by simpa only [Tree.handle, found] using run, rest⟩
      | some u =>
        obtain ⟨c₁, given, same, next⟩ := h.drop found
        obtain ⟨live', c', run, same', rest⟩ := ih next
        refine ⟨live', c', ?_, same'.trans same, rest⟩
        simp only [Tree.handle, found, bind, EStateM.bind, drop_eq, given]
        exact run

end Handled

end Tree

theorem Source.holds_of_resolve {s : Source} {r : Resolver} {scope : ScopeId} {t : Tree}
    {d d' : Design} (wf : d.WellFormed) (run : s.resolve r scope d = .ok t d') :
    d'.circuit.WellFormed ∧ d'.circuit.Holds d.circuit.count t.uses := by
  obtain ⟨tally, _⟩ := (resolve_meets (Tally.initial wf) r s scope).of_ok run
  rw [List.append_nil] at tally
  exact ⟨tally.wellFormed.circuit, tally.holds⟩

namespace Tree

/-- Copies and drops balance. A copy is the same tree, with the same text, and raises each counter
by what dropping the tree lowers it by. Where the uses of a tree are held, above the counters
`start`, the tree and its copies can be copied and dropped in any order, and the counters stand
above `start` by the uses of the trees that are left. So it is after a tree was resolved. -/
theorem copies_balance (t : Tree) :
    (∀ (s : Source) (r : Resolver) (scope : ScopeId) (d d' : Design), d.WellFormed →
      s.resolve r scope d = .ok t d' →
        d'.circuit.WellFormed ∧ d'.circuit.Holds d.circuit.count t.uses) ∧
    ∀ c : Circuit, c.WellFormed → (∀ x ∈ t.uses, x.1 < c.branches.size) →
      ∃ c', t.copy c = (t, c') ∧ c'.uncounted = c.uncounted ∧ t.source c' = t.source c ∧
        (∀ e e' : Circuit, e.uncounted = c.uncounted → t.drop e = .ok () e' →
          ∀ b u, c'.count b u + e'.count b u = c.count b u + e.count b u) ∧
        ∀ start : BranchId → Usage → Nat, c.Holds start t.uses → ∀ hs : List Handling,
          ∃ live e, handle hs [t] c = .ok live e ∧ e.uncounted = c.uncounted ∧ (∀ u ∈ live, u = t) ∧
            ∀ b u, e.count b u = start b u + live.length * c.footprint t.uses b u := by
  refine ⟨fun s r scope d d' wf run => Source.holds_of_resolve wf run, ?_⟩
  intro c wf inside
  have same := Circuit.uncounted_takeAll c t.uses
  refine ⟨t.acquire c, copy_eq t c, same, source_of_uncounted same t, ?_, ?_⟩
  · intro e e' like dropped b u
    rw [drop_eq] at dropped
    have within : ∀ x ∈ t.uses, x.1 < e.branches.size := by
      rw [Circuit.size_eq_of_uncounted like]
      exact inside
    have raised := Circuit.count_takeAll wf inside b u
    have lowered := Circuit.count_of_giveAll (wf.of_uncounted like) within dropped b u
    rw [Circuit.footprint_extends (Circuit.extends_of_uncounted like) inside] at lowered
    rw [acquire]
    omega
  · intro start held hs
    have live : Live t start [t] c := by
      refine ⟨wf, fun u mem => List.mem_singleton.mp mem, ?_⟩
      rw [allUses, allUses, List.append_nil]
      exact held
    obtain ⟨left, e, run, like, still⟩ := live.handle hs
    refine ⟨left, e, run, like, still.same, ?_⟩
    intro b u
    rw [still.holds.counts b u, footprint_copies e still.same,
      Circuit.footprint_extends (Circuit.extends_of_uncounted like) inside]

def dampedReading : Source where
  raw := [.marker, .identifier "back", .arguments, .identifier "V",
    .marker, .marker, .identifier "p", .identifier "n", .arguments, .identifier "I", .arguments,
    .identifier "ddt", .binary .add]
  key := 0

theorem copies_balance_damped :
    ∃ t d, dampedReading.resolve ⟨.default, 0⟩ 0 Source.bridged = .ok t d ∧
    t.uses.length = 4 ∧ (∃ c, t.copy d.circuit = (t, c)) ∧
    ∃ live e, handle [.copy 0, .drop 0, .copy 0, .drop 1, .drop 0] [t] d.circuit = .ok live e ∧
      ∀ b u, e.count b u = Source.bridged.circuit.count b u + live.length * d.circuit.footprint
      t.uses b u := by
  have known : ∃ t d, dampedReading.resolve ⟨.default, 0⟩ 0 Source.bridged = .ok t d ∧
    t.uses.length = 4 :=
    ⟨_, _, rfl, rfl⟩
  obtain ⟨t, d, run, four⟩ := known
  obtain ⟨resolved, copied⟩ := copies_balance t
  obtain ⟨wf, held⟩ := resolved dampedReading ⟨.default, 0⟩ 0 Source.bridged d
    Source.wellFormed_bridged run
  obtain ⟨c, copy, _, _, _, handled⟩ := copied d.circuit wf held.inside
  obtain ⟨live, e, done, _, _, counts⟩ := handled _ held [.copy 0, .drop 0, .copy 0,
    .drop 1, .drop 0]
  exact ⟨t, d, run, four, ⟨c, copy⟩, live, e, done, counts⟩

end Tree
end Analog
