import Analog.Proofs.Dataflow.QuietRound
import Analog.Proofs.Summary.Containment

/-!
The order of assignments. Each assignment of a block asks for a summary that grows with those of the
variables it reads, so all that a run of the dataflow finds is below anything that meets what the
assignments ask for. A run that ends meets it, whatever the order it took them in. So two orders end
with the same probes, the same consumers and the same flags; the orders of probes are left out,
since they are not monotone.
-/
namespace Analog

/-- Designs with the same names, nodes, branches and scopes. Summaries and counters may differ. -/
structure Design.Level (d x : Design) : Prop where
  forth : d.Extends x
  back : x.Extends d
  scopes : x.scopes = d.scopes

namespace Design

variable {d x y : Design}

theorem Level.refl (d : Design) : d.Level d := ⟨.refl d, .refl d, rfl⟩

theorem Level.trans (dx : d.Level x) (xy : x.Level y) : d.Level y :=
  ⟨dx.forth.trans xy.forth, xy.back.trans dx.back, xy.scopes.trans dx.scopes⟩

theorem level_of_uncounted (same : x.uncounted = d.uncounted) : d.Level x := by
  refine ⟨extends_of_uncounted same, extends_of_uncounted same.symm, ?_⟩
  show x.uncounted.scopes = d.uncounted.scopes
  rw [same]

theorem extends_vars (d : Design) {vars : Array Variable} (size : vars.size = d.vars.size) :
    d.Extends { d with vars := vars } :=
  ⟨.refl _, .refl _, fun _ => rfl, fun _ => rfl, rfl, rfl, size, fun _ _ h => h⟩

theorem level_assign (d : Design) (v : VariableId) (s : Summary) : d.Level (d.assign v s).2 := by
  have size : (d.assign v s).2.vars.size = d.vars.size := by simp [assign, modifyVariable]
  exact ⟨extends_vars d size, extends_vars (d.assign v s).2 size.symm, rfl⟩

theorem Level.reach (h : d.Level x) (scope : ScopeId) : x.reach scope = d.reach scope := by
  simp only [Design.reach, chain, scopeOf, h.scopes]

end Design

theorem uncounted_of_dropTree {old : Option Tree} {d d' : Design}
    (run : dropTree old d = .ok () d') : d'.uncounted = d.uncounted := by
  unfold dropTree DesignM.onCircuit Tree.releaseAll at run
  cases given : Circuit.giveAll (Tree.allUses old.toList) d.circuit with
  | error u c =>
    rw [given] at run
    cases run
  | ok _ c =>
    rw [given] at run
    cases run
    exact Design.uncounted_withCircuit ((Circuit.recounts_giveAll _ _).1 _ _ given)

/-- An expression whose branches are all there: where it resolves among what `d` has, it makes
nothing new. -/
def Source.Grounded (r : Resolver) (scope : ScopeId) (d : Design) (s : Source) : Prop :=
  ∀ x, d.Level x → x.WellFormed → ∀ t e, s.resolve r scope x = .ok t e → e.uncounted = x.uncounted

theorem Source.grounded_of_resolve {r : Resolver} {scope : ScopeId} {s : Source} {d e : Design}
    {t : Tree}
    (wf : d.WellFormed) (run : s.resolve r scope d = .ok t e) (same : e.uncounted = d.uncounted) :
    s.Grounded r scope d := by
  intro x level wfx t' e' run'
  have ext : e.Extends x := (Design.level_of_uncounted same).back.trans level.forth
  obtain ⟨e₁, again, bare⟩ := Source.resolve_again wf run ext wfx
  rw [run'] at again
  cases again
  exact bare

namespace Assignment

variable {r : Resolver} {scope : ScopeId} {d x y : Design}

structure Finds (r : Resolver) (scope : ScopeId) (d : Design) (a : Assignment) (v : Symbol)
    (t : Tree) : Prop where
  target : a.target scope d = .ok v
  fixed : a.source.Fixed r scope t d

def Met (r : Resolver) (scope : ScopeId) (d : Design) (env : VariableId → Summary)
    (a : Assignment) : Prop :=
  ∀ v t, a.Finds r scope d v t → (t.refresh (reading env)).summary.Within (env v.id)

/-- Assignments that find the same. -/
structure Alike (scope : ScopeId) (d : Design) (a b : Assignment) : Prop where
  source : b.source = a.source
  target : b.target scope d = a.target scope d

theorem Alike.finds {a b : Assignment} (h : a.Alike scope d b) {v : Symbol} {t : Tree}
    (found : b.Finds r scope d v t) : a.Finds r scope d v t :=
  ⟨h.target ▸ found.target, h.source ▸ found.fixed⟩

theorem target_level (level : d.Level x) (a : Assignment) :
    a.target scope x = a.target scope d := by
  simp only [target, level.forth.lookup?]

structure Taken (r : Resolver) (scope : ScopeId) (d x : Design) (a : Assignment) (g : Bool)
    (b : Assignment) (y : Design) (v : Symbol) (t : Tree) : Prop where
  finds : a.Finds r scope d v t
  alike : a.Alike scope d b
  fits : ∀ w, b.symbol = some w → w.id < d.vars.size
  level : d.Level y
  wellFormed : y.WellFormed
  env : y.env = Function.update x.env v.id ((x.env v.id).absorb (t.refresh (reading x.env)).summary)
  flag : g = (x.env v.id).grows (t.refresh (reading x.env)).summary

theorem update_taken (wf : x.WellFormed) (level : d.Level x) {a : Assignment}
    (grounded : a.source.Grounded r scope d) (fits : ∀ v, a.symbol = some v → v.id < d.vars.size)
    {g : Bool} (done : (a.update r scope x).result = .ok g) :
    ∃ v t, a.Taken r scope d x g (a.update r scope x).value (a.update r scope x).design v t := by
  have fitsNow : ∀ v, a.symbol = some v → v.id < x.vars.size := level.forth.vars ▸ fits
  cases found : a.target scope x with
  | error cause =>
    simp only [update, found] at done
    cases done
  | ok v =>
    have inside := target_lt wf fitsNow found
    obtain ⟨f, d', run, _⟩ | ⟨t, x₁, run, ⟨u, d', dropped⟩ | ⟨x₂, dropped, renewed⟩⟩ :=
      a.source.renewal wf r scope a.value
    · simp only [update, found, run] at done
      cases done
    · simp only [update, found, run, dropped] at done
      cases done
    · have bare := grounded x level wf t x₁ run
      have back : x₁.Extends d := (Design.level_of_uncounted bare).back.trans level.back
      have fixed : a.source.Fixed r scope t d := fun e later wfe =>
        Source.resolve_again wf run (back.trans later) wfe
      have released := (uncounted_of_dropTree dropped).trans bare
      have inside₂ : v.id < x₂.vars.size := renewed.kept.vars ▸ inside
      have read : (t.refresh (reading x.env)).summary = t.summary :=
        congrArg Tree.summary renewed.read
      simp only [update, found, run, dropped] at done ⊢
      refine ⟨v, t, ⟨target_level level a ▸ found, fixed⟩, ⟨rfl, ?_⟩, ?_, ?_, ?_, ?_, ?_⟩
      · rw [← target_level level a, found]
        rfl
      · intro w same
        cases same
        exact level.forth.vars ▸ inside
      · exact (level.trans (Design.level_of_uncounted released)).trans
          (Design.level_assign x₂ v.id t.summary)
      · exact renewed.kept.wellFormed.assign v.id t.summary
      · rw [read, Design.env_assign inside₂, renewed.kept.env]
      · rw [read]
        exact (Except.ok.inj done).symm.trans (congrArg (fun env => (env v.id).grows t.summary)
          renewed.kept.env)

end Assignment

namespace Statement

variable {r : Resolver} {scope : ScopeId} {d x y z : Design} {as bs cs : List Assignment}

/-- Updates of assignments. Summaries grow, but not above what meets all that is asked for. -/
structure Passed (r : Resolver) (scope : ScopeId) (d : Design) (as : List Assignment) (x : Design)
    (bs : List Assignment) (y : Design) : Prop where
  alike : List.Forall₂ (Assignment.Alike scope d) as bs
  fits : ∀ b ∈ bs, ∀ v, b.symbol = some v → v.id < d.vars.size
  level : d.Level y
  wellFormed : y.WellFormed
  grown : ∀ v, (x.env v).Within (y.env v)
  bounded : ∀ env, (∀ a ∈ as, a.Met r scope d env) → (∀ v, (x.env v).Within (env v)) →
    ∀ v, (y.env v).Within (env v)

theorem forall_of_alike {P : Assignment → Prop} (kept : ∀ {a b : Assignment}, a.Alike scope d b →
      P a → P b) (alike : List.Forall₂ (Assignment.Alike scope d) as bs) (all : ∀ a ∈ as, P a) :
    ∀ b ∈ bs, P b := by
  induction alike with
  | nil => exact all
  | cons head _ ih =>
    obtain ⟨first, rest⟩ := List.forall_mem_cons.mp all
    exact List.forall_mem_cons.mpr ⟨kept head first, ih rest⟩

theorem met_of_alike {env : VariableId → Summary}
    (alike : List.Forall₂ (Assignment.Alike scope d) as bs)
    (met : ∀ a ∈ as, a.Met r scope d env) : ∀ b ∈ bs, b.Met r scope d env := by
  refine forall_of_alike ?_ alike met
  intro a b same first v t found
  exact first v t (same.finds found)

theorem alike_symm (alike : List.Forall₂ (Assignment.Alike scope d) as bs) :
    List.Forall₂ (Assignment.Alike scope d) bs as := by
  induction alike with
  | nil => exact .nil
  | cons head _ ih => exact .cons ⟨head.source.symm, head.target.symm⟩ ih

theorem alike_trans (ab : List.Forall₂ (Assignment.Alike scope d) as bs)
    (bc : List.Forall₂ (Assignment.Alike scope d) bs cs) :
    List.Forall₂ (Assignment.Alike scope d) as cs := by
  induction ab generalizing cs with
  | nil => exact bc
  | cons head _ ih =>
    cases bc with
    | cons next rest =>
      exact .cons ⟨next.source.trans head.source, next.target.trans head.target⟩ (ih rest)

theorem Passed.trans (first : Passed r scope d as x bs y) (second : Passed r scope d bs y cs z) :
    Passed r scope d as x cs z where
  alike := alike_trans first.alike second.alike
  fits := second.fits
  level := second.level
  wellFormed := second.wellFormed
  grown v := (first.grown v).trans (second.grown v)
  bounded env met below := second.bounded env (met_of_alike first.alike met)
    (first.bounded env met below)

theorem Passed.cons {a b : Assignment} {g : Bool} {v : Symbol} {t : Tree}
    (tidy : ∀ v, (x.env v).Tidy)
    (head : a.Taken r scope d x g b y v t) (rest : Passed r scope d as y bs z) :
    Passed r scope d (a :: as) x (b :: bs) z := by
  have found : (t.refresh (reading x.env)).summary.Tidy := Tree.nodup_refresh (tidy_reading tidy) t
  have env (w : VariableId) : y.env w =
      if w = v.id then (x.env w).absorb (t.refresh (reading x.env)).summary else x.env w := by
    rw [head.env]
    by_cases same : w = v.id
    · subst same
      rw [Function.update_self, if_pos rfl]
    · rw [Function.update_of_ne same, if_neg same]
  refine ⟨.cons head.alike rest.alike, List.forall_mem_cons.mpr ⟨head.fits, rest.fits⟩, rest.level,
    rest.wellFormed, ?_, ?_⟩
  · intro w
    refine Summary.Within.trans ?_ (rest.grown w)
    rw [env]
    split
    · exact (Summary.below_absorb _ _).within
    · exact .refl _
  · intro bound met below
    obtain ⟨first, others⟩ := List.forall_mem_cons.mp met
    refine rest.bounded bound others fun w => ?_
    rw [env]
    split
    · rename_i same
      subst same
      have brought := Tree.within_refresh (fun u => (below u).addConsumer u) t
      exact (below v.id).absorb found (brought.trans (first v t head.finds))
    · exact below w

theorem updateAll_passed (reached : d.reach scope ≠ .never) (as : List Assignment)
    (grounded : ∀ a ∈ as, a.source.Grounded r scope d)
    (fits : ∀ a ∈ as, ∀ v, a.symbol = some v → v.id < d.vars.size) (wf : x.WellFormed)
    (level : d.Level x) {g : Bool} (done : (updateAll r scope (as.map .assign) x).result = .ok g) :
    ∃ bs, (updateAll r scope (as.map .assign) x).value = bs.map .assign ∧
      Passed r scope d as x bs (updateAll r scope (as.map .assign) x).design ∧
      (g = false → (updateAll r scope (as.map .assign) x).design.env = x.env ∧ ∀ a ∈ as,
      a.Met r scope d x.env) := by
  induction as generalizing x g with
  | nil =>
    refine ⟨[], rfl, ⟨.nil, fits, level, wf, fun v => .refl _, fun env _ below => below⟩,
      fun _ => ⟨rfl, ?_⟩⟩
    simp
  | cons a as ih =>
    obtain ⟨groundedHead, groundedTail⟩ := List.forall_mem_cons.mp grounded
    obtain ⟨fitsHead, fitsTail⟩ := List.forall_mem_cons.mp fits
    have entered : ¬ (x.reach (ownScope scope (.assign a)) == .never) = true := by
      show ¬ (x.reach scope == .never) = true
      rw [level.reach]
      simpa using reached
    simp only [List.map_cons, updateAll, update, if_neg entered] at done ⊢
    cases first : (a.update r scope x).result with
    | error f =>
      simp only [first] at done
      cases done
    | ok h =>
      simp only [first] at done ⊢
      obtain ⟨v, t, taken⟩ := Assignment.update_taken wf level groundedHead fitsHead first
      cases second : (updateAll r scope (as.map .assign) (a.update r scope x).design).result with
      | error f =>
        simp only [second] at done
        cases done
      | ok k =>
        simp only [second] at done
        obtain ⟨bs, value, passed, quiet⟩ := ih groundedTail fitsTail taken.wellFormed
          taken.level second
        refine ⟨_ :: bs, by rw [value, List.map_cons], .cons wf.summaries taken passed, ?_⟩
        rintro rfl
        obtain ⟨still, calm⟩ := Bool.or_eq_false_iff.mp (Except.ok.inj done)
        obtain ⟨same, met⟩ := quiet calm
        rw [taken.flag] at still
        have covers : (x.env v.id).Covers (t.refresh (reading x.env)).summary :=
          Summary.covers_of_grows (wf.summaries v.id) still
        have kept : (a.update r scope x).design.env = x.env := by
          rw [taken.env, covers.kept, Function.update_eq_self]
        rw [kept] at same met
        refine ⟨same, List.forall_mem_cons.mpr ⟨fun w u found => ?_, met⟩⟩
        have target : v = w := Except.ok.inj (taken.finds.target.symm.trans found.target)
        subst target
        have tree : u.refresh (reading x.env) = t.refresh (reading x.env) := by
          have unique := found.fixed.mono level.forth |>.unique
            (taken.finds.fixed.mono level.forth) wf
          exact unique
        rw [tree]
        exact covers.below.within

theorem rounds_passed (reached : d.reach scope ≠ .never) {bound left i n : Nat}
    (grounded : ∀ a ∈ as, a.source.Grounded r scope d)
    (fits : ∀ a ∈ as, ∀ v, a.symbol = some v → v.id < d.vars.size) (wf : x.WellFormed)
    (level : d.Level x) (done : (rounds r scope bound left i (as.map .assign) x).result = .ok n) :
    ∃ bs, Passed r scope d as x bs (rounds r scope bound left i (as.map .assign) x).design ∧
      ∀ a ∈ as, a.Met r scope d (rounds r scope bound left i (as.map .assign) x).design.env := by
  induction left generalizing i as x with
  | zero => cases done
  | succ left ih =>
    simp only [rounds] at done ⊢
    cases round : (updateAll r scope (as.map .assign) x).result with
    | error f =>
      simp only [round] at done
      cases done
    | ok g =>
      obtain ⟨bs, value, passed, quiet⟩ := updateAll_passed reached as grounded fits wf level round
      cases g with
      | false =>
        obtain ⟨same, met⟩ := quiet rfl
        exact ⟨bs, passed, same ▸ met⟩
      | true =>
        simp only [round, value] at done ⊢
        have sources : ∀ b ∈ bs, b.source.Grounded r scope d :=
          forall_of_alike (fun same => same.source ▸ id) passed.alike grounded
        obtain ⟨cs, more, met⟩ := ih sources passed.fits passed.wellFormed passed.level done
        exact ⟨cs, passed.trans more, met_of_alike (alike_symm passed.alike) met⟩

theorem updateAll_unreached (unreached : d.reach scope = .never) (as : List Assignment) :
    updateAll r scope (as.map .assign) d = ⟨as.map .assign, d, .ok false⟩ := by
  induction as with
  | nil => rfl
  | cons a as ih =>
    have skipped : (d.reach (ownScope scope (.assign a)) == .never) = true := by
      show (d.reach scope == .never) = true
      rw [unreached]
      rfl
    rw [List.map_cons, updateAll, if_pos skipped, ih]

theorem rounds_unreached (unreached : d.reach scope = .never) {bound left i n : Nat}
    (done : (rounds r scope bound left i (as.map .assign) d).result = .ok n) :
    (rounds r scope bound left i (as.map .assign) d).design = d := by
  cases left with
  | zero => cases done
  | succ left => simp only [rounds, updateAll_unreached unreached]

theorem fixpoint_within (wf : d.WellFormed) (perm : as.Perm bs)
    (fits : ∀ a ∈ as, ∀ v, a.symbol = some v → v.id < d.vars.size)
    (grounded : ∀ a ∈ as, a.source.Grounded r scope d) {m n : Nat}
    (first : (fixpoint r scope (as.map .assign) d).result = .ok m)
    (second : (fixpoint r scope (bs.map .assign) d).result = .ok n) (v : VariableId) :
    ((fixpoint r scope (as.map .assign) d).design.env v).Within
      ((fixpoint r scope (bs.map .assign) d).design.env v) := by
  by_cases unreached : d.reach scope = .never
  · rw [fixpoint, fixpoint, rounds_unreached unreached first, rounds_unreached unreached second]
    exact .refl _
  · obtain ⟨_, passed, _⟩ := rounds_passed unreached grounded fits wf (.refl d) first
    obtain ⟨_, other, met⟩ :=
      rounds_passed unreached (fun b mem => grounded b (perm.mem_iff.mpr mem))
      (fun b mem => fits b (perm.mem_iff.mpr mem)) wf (.refl d) second
    exact passed.bounded _ (fun a mem => met a (perm.mem_iff.mp mem)) other.grown v

/-- The dataflow of a block of assignments ends with the same probes, consumers and flags in every
order of the assignments. -/
theorem fixpoint_of_perm (wf : d.WellFormed) (perm : as.Perm bs)
    (fits : ∀ a ∈ as, ∀ v, a.symbol = some v → v.id < d.vars.size)
    (grounded : ∀ a ∈ as, a.source.Grounded r scope d) {m n : Nat}
    (first : (fixpoint r scope (as.map .assign) d).result = .ok m)
    (second : (fixpoint r scope (bs.map .assign) d).result = .ok n) (v : VariableId) :
    let s := (fixpoint r scope (as.map .assign) d).design.env v
    let t := (fixpoint r scope (bs.map .assign) d).design.env v
    (∀ q, q ∈ s.deps.probes ↔ q ∈ t.deps.probes) ∧
      (∀ w, w ∈ s.consumers.items ↔ w ∈ t.consumers.items) ∧
      s.offset = t.offset ∧ s.constant = t.constant := by
  have forth := fixpoint_within wf perm fits grounded first second v
  have back := fixpoint_within wf perm.symm (fun b mem => fits b (perm.mem_iff.mpr mem))
    (fun b mem => grounded b (perm.mem_iff.mpr mem)) second first v
  refine ⟨fun q => ?_, fun w => ⟨forth.consumers w, back.consumers w⟩, ?_, ?_⟩
  · rw [← Summary.dependsOn_iff, ← Summary.dependsOn_iff]
    exact ⟨forth.probes q, back.probes q⟩
  · exact Bool.eq_iff_iff.mpr ⟨forth.offset, back.offset⟩
  · rw [← Bool.not_inj_iff, Bool.eq_iff_iff, Bool.not_eq_true', Bool.not_eq_true']
    exact ⟨forth.varies, back.varies⟩

def coupled : Design where
  circuit := Source.bridged.circuit
  scopes := #[⟨[], [("p", .port 1), ("n", .port 2), ("back", .branch 1), ("a", .variable 0),
    ("b", .variable 1)], .always, ""⟩]
  parameters := #[]
  vars := #[.ofType "a" .real, .ofType "b" .real]
  filters := []
  expressions := 3

theorem wellFormed_coupled : coupled.WellFormed where
  circuit := Source.wellFormed_bridged.circuit
  filters := by decide
  bindings
    | 0 => by decide
    | s + 1 => by simp [coupled, Design.scopeOf, default, Scope.inside]
  summaries
    | 0 => by decide
    | 1 => by decide
    | v + 2 => by
      simp [coupled, Design.variableOf, default, Variable.ofType, Summary.fixed, Summary.plain,
        EdgeSet.empty, EdgeSet.probes]

def coupledAssignments : List Assignment :=
  [⟨"a", none, ⟨[.identifier "b", .identifier "b", .binary .mul], 0⟩, none⟩,
    ⟨"b", none, ⟨[.marker, .identifier "back", .arguments, .identifier "V", .identifier "a",
      .binary .add], 1⟩, none⟩,
    ⟨"a", none, ⟨[.literal (.int 1)], 2⟩, none⟩]

theorem grounded_coupled : ∀ a ∈ coupledAssignments, a.source.Grounded ⟨.default, 0⟩ 0 coupled := by
  simp only [coupledAssignments, List.forall_mem_cons, List.not_mem_nil,
    IsEmpty.forall_iff, implies_true, and_true]
  refine ⟨?_, ?_, ?_⟩
  · exact Source.grounded_of_resolve wellFormed_coupled (by rfl) (by rfl)
  · refine Source.grounded_of_resolve wellFormed_coupled (by rfl) ?_
    exact Design.uncounted_withCircuit (Circuit.uncounted_take _ _ _)
  · exact Source.grounded_of_resolve wellFormed_coupled (by rfl) (by rfl)

/-- The second order of the assignments brings the consumers in another order, but the same ones. -/
theorem fixpoint_of_perm_coupled :
    let run := fun as : List Assignment => fixpoint ⟨.default, 0⟩ 0 (as.map .assign) coupled
    let s := (run coupledAssignments).design.env 0
    let t := (run coupledAssignments.reverse).design.env 0
    s.consumers.items = [1, 0] ∧ t.consumers.items = [0, 1] ∧
      (∀ q, q ∈ s.deps.probes ↔ q ∈ t.deps.probes) ∧
        (∀ w, w ∈ s.consumers.items ↔ w ∈ t.consumers.items) ∧
      s.offset = t.offset ∧ s.constant = t.constant := by
  refine ⟨by rfl, by rfl, ?_⟩
  exact fixpoint_of_perm wellFormed_coupled (List.reverse_perm coupledAssignments).symm (by decide)
    grounded_coupled (by rfl) (by rfl) 0

end Statement
end Analog
