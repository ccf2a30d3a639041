import Analog.Proofs.Dataflow.Postfixpoint

/-!
Where statements stand: the scope of each one that is no block, and the conditions around it. A
statement is reached if its scope is, and a device that was finished is at rest in all that is
reached.
-/
namespace Analog

/-- A statement in its place. -/
structure Standing where
  scope : ScopeId
  /-- The conditions around it, the nearest first. -/
  conditions : List Condition
  statement : Statement

namespace Statement

mutual

/-- The declarations, assignments and contributions of a statement. -/
def leaves (outer : ScopeId) (around : List Condition) : Statement → List Standing
  | .declare s => [⟨outer, around, .declare s⟩]
  | .assign s => [⟨outer, around, .assign s⟩]
  | .contribute s => [⟨outer, around, .contribute s⟩]
  | .conditional c thnScope thn elsScope els =>
    leavesAll thnScope (c :: around) thn ++ leavesAll elsScope (c :: around) els
  | .block inner body => leavesAll inner around body

def leavesAll (outer : ScopeId) (around : List Condition) : List Statement → List Standing
  | [] => []
  | s :: ss => s.leaves outer around ++ leavesAll outer around ss

end

end Statement

/-- All statements of a device in their places. -/
def Device.leaves (m : Device) : List Standing := Statement.leavesAll Device.analogScope [] m.body

theorem Reach.join_ne_never {a b : Reach} : a.join b ≠ .never ↔ a ≠ .never ∧ b ≠ .never := by
  cases a <;> cases b <;> decide

namespace Design

variable {d : Design} {outer inner : ScopeId}

theorem reach_ne_never {s : ScopeId} :
    d.reach s ≠ .never ↔ ∀ x ∈ d.chain s, d.reachOf x ≠ .never := by
  have folded : ∀ (xs : List ScopeId) (start : Reach),
      xs.foldl (fun r t => r.join (d.scopeOf t).reach) start ≠ .never ↔
        start ≠ .never ∧ ∀ x ∈ xs, d.reachOf x ≠ .never := by
    intro xs
    induction xs with
    | nil => simp
    | cons x xs ih =>
      intro start
      rw [List.foldl_cons, ih, Reach.join_ne_never, List.forall_mem_cons, and_assoc]
      exact Iff.rfl
  rw [reach, folded]
  exact ⟨fun h => h.2, fun h => ⟨by decide, h⟩⟩

theorem reach_inner (fits : (d.scopeOf inner).enclosing = d.chain outer) :
    d.reach inner ≠ .never ↔ d.reachOf inner ≠ .never ∧ d.reach outer ≠ .never := by
  have chain : d.chain inner = inner :: d.chain outer := congrArg (inner :: ·) fits
  rw [reach_ne_never, reach_ne_never, chain, List.forall_mem_cons]

theorem reach_of_unreached (fits : (d.scopeOf inner).enclosing = d.chain outer)
    (never : d.reach outer = .never) : d.reach inner = .never := by
  by_contra reached
  exact ((reach_inner fits).mp reached).2 never

theorem reach_eq_never {s x : ScopeId} (mem : x ∈ d.chain s) (never : d.reachOf x = .never) :
    d.reach s = .never := by
  by_contra reached
  exact reach_ne_never.mp reached x mem never

theorem reach_eq {d' : Design} (same : d'.scopes = d.scopes) (s : ScopeId) :
    d'.reach s = d.reach s := by
  simp only [reach, chain, scopeOf, same]

end Design

namespace Statement

def ownPlain : Statement → List ScopeId
  | .block inner _ => [inner]
  | _ => []

mutual

theorem perm_scopes (s : Statement) : s.scopes.Perm (s.guarded ++ gather ownPlain s) := by
  cases s with
  | declare s | assign s | contribute s => exact .nil
  | conditional c thnScope thn elsScope els =>
    have first := (perm_scopesAll thn).count_eq
    have second := (perm_scopesAll els).count_eq
    simp only [scopesAll, guardedAll, List.count_append] at first second
    simp only [scopes, guarded, gather, ownScopes, ownGuarded, ownPlain, List.perm_iff_count,
      List.count_append, List.count_nil]
    intro x
    have thnCount := first x
    have elsCount := second x
    omega
  | block inner body =>
    have inside := (perm_scopesAll body).count_eq
    simp only [scopesAll, guardedAll, List.count_append] at inside
    simp only [scopes, guarded, gather, ownScopes, ownGuarded, ownPlain, List.perm_iff_count,
      List.count_append, List.count_nil]
    intro x
    have count := inside x
    omega

theorem perm_scopesAll (ss : List Statement) :
    (scopesAll ss).Perm (guardedAll ss ++ gatherAll ownPlain ss) := by
  cases ss with
  | nil => exact .nil
  | cons s ss =>
    have first := (perm_scopes s).count_eq
    have rest := (perm_scopesAll ss).count_eq
    simp only [scopes, scopesAll, guarded, guardedAll, List.count_append] at first rest
    simp only [scopesAll, guardedAll, gatherAll, List.perm_iff_count, List.count_append]
    intro x
    have count := first x
    have others := rest x
    omega

end

def Open (d : Design) : Statement → Prop
  | .block inner _ => d.reachOf inner = .always
  | _ => True

theorem everyAll_open {d : Design} {ss : List Statement} {outer : ScopeId}
    (fits : EveryAll (Fits d) outer ss)
    (always : ∀ x ∈ gatherAll ownPlain ss, d.reachOf x = .always) :
    EveryAll (fun _ => Open d) outer ss := by
  refine EveryAll.imp (fun _ s (_ : True) own _ => ?_) (fun _ _ _ _ _ _ _ => trivial) ss trivial
    always fits fits
  cases s with
  | block inner body => exact own inner (List.mem_singleton_self inner)
  | _ => trivial

/-- Statements at rest in a scope that is reached, inside which only conditions decide what is
reached. -/
structure Live (r : Resolver) (d : Design) (outer : ScopeId) (s : Statement) : Prop where
  fits : s.Every (Fits d) outer
  plain : s.Every (fun _ => Open d) outer
  rests : ∀ x ∈ s.reached d outer, x.2.Rests r d x.1
  reached : d.reach outer ≠ .never

structure LiveAll (r : Resolver) (d : Design) (outer : ScopeId) (ss : List Statement) : Prop where
  fits : EveryAll (Fits d) outer ss
  plain : EveryAll (fun _ => Open d) outer ss
  settled : Settled r d outer ss
  reached : d.reach outer ≠ .never

namespace Live

variable {r : Resolver} {d : Design} {outer : ScopeId}

theorem thn {c : Condition} {thnScope elsScope : ScopeId} {thn els : List Statement}
    (h : Live r d outer (.conditional c thnScope thn elsScope els))
    (own : d.reachOf thnScope ≠ .never) :
    LiveAll r d thnScope thn :=
  ⟨h.fits.2.1, h.plain.2.1,
    fun x mem => h.rests x (List.mem_cons_of_mem _ (List.mem_append_left _ mem)),
    (Design.reach_inner h.fits.1.1).mpr ⟨own, h.reached⟩⟩

theorem els {c : Condition} {thnScope elsScope : ScopeId} {thn els : List Statement}
    (h : Live r d outer (.conditional c thnScope thn elsScope els))
    (own : d.reachOf elsScope ≠ .never) :
    LiveAll r d elsScope els :=
  ⟨h.fits.2.2, h.plain.2.2,
    fun x mem => h.rests x (List.mem_cons_of_mem _ (List.mem_append_right _ mem)),
    (Design.reach_inner h.fits.1.2).mpr ⟨own, h.reached⟩⟩

theorem reach_plain {inner : ScopeId} {body : List Statement}
    (fits : Fits d outer (.block inner body))
    (plain : Open d (.block inner body)) (reached : d.reach outer ≠ .never) :
    d.reach inner ≠ .never := by
  rw [Open] at plain
  exact (Design.reach_inner fits).mpr ⟨by rw [plain]; decide, reached⟩

theorem body {inner : ScopeId} {body : List Statement} (h : Live r d outer (.block inner body)) :
    LiveAll r d inner body :=
  ⟨h.fits.2, h.plain.2, h.rests, reach_plain h.fits.1 h.plain.1 h.reached⟩

end Live

namespace LiveAll

variable {r : Resolver} {d : Design} {outer : ScopeId} {s : Statement} {ss : List Statement}

theorem reachedAll_cons (h : LiveAll r d outer (s :: ss)) :
    reachedAll d outer (s :: ss) = s.reached d outer ++ reachedAll d outer ss := by
  have own : d.reach (s.ownScope outer) ≠ .never := by
    cases s with
    | block inner body => exact Live.reach_plain h.fits.1.1 h.plain.1.1 h.reached
    | _ => exact h.reached
  rw [reachedAll, if_neg (by simpa using own)]

theorem head (h : LiveAll r d outer (s :: ss)) : Live r d outer s := by
  refine ⟨h.fits.1, h.plain.1, fun x mem => h.settled x ?_, h.reached⟩
  rw [h.reachedAll_cons]
  exact List.mem_append_left _ mem

theorem tail (h : LiveAll r d outer (s :: ss)) : LiveAll r d outer ss := by
  refine ⟨h.fits.2, h.plain.2, fun x mem => h.settled x ?_, h.reached⟩
  rw [h.reachedAll_cons]
  exact List.mem_append_right _ mem

end LiveAll

end Statement

/-- A device after it was finished: `d` is its design as the dataflow left it, before it was
marked. -/
structure Device.Finished (m : Device) (r : Resolver) (d : Design) : Prop where
  wellFormed : d.WellFormed
  nested : Statement.NestedAll d Device.analogScope m.body
  settled : Statement.Settled r d Device.analogScope m.body
  always : ∀ s, s ∉ Statement.guardedAll m.body → d.reachOf s = .always
  marked : Statement.markAll Device.analogScope m.body d = (m.markers, m.design)

theorem Device.Finished.live {m : Device} {r : Resolver} {d : Design} (h : m.Finished r d) :
    Statement.LiveAll r d Device.analogScope m.body := by
  have split := Statement.perm_scopesAll m.body
  have disjoint := (List.nodup_append.mp (split.nodup_iff.mp h.nested.distinct)).2.2
  have always : ∀ x ∈ Statement.gatherAll Statement.ownPlain m.body, d.reachOf x = .always :=
    fun x plain => h.always x fun guarded => disjoint x guarded x plain rfl
  refine ⟨h.nested.fits, Statement.everyAll_open h.nested.fits always, h.settled, ?_⟩
  refine Design.reach_ne_never.mpr fun x mem => ?_
  have outside : x ∉ Statement.guardedAll m.body := fun guarded =>
    h.nested.apart x (split.mem_iff.mpr (List.mem_append_left _ guarded)) mem
  rw [h.always x outside]
  decide

namespace DeviceM

variable {m m' : Device}

theorem runDataflow_eq_ok {r : Resolver} {n : Nat} (run : runDataflow r m = .ok n m') :
    ∃ d body, Statement.fixpoint r Device.analogScope m.body m.design = ⟨body, d, .ok n⟩ ∧
      m' = { m with design := d, body := body } := by
  unfold runDataflow at run
  simp only [bind, EStateM.bind, get, getThe, MonadStateOf.get, EStateM.get, set, MonadStateOf.set,
    EStateM.set] at run
  cases flow : Statement.fixpoint r Device.analogScope m.body m.design with
  | mk body d result =>
    rw [flow] at run
    cases result with
    | error f => cases run
    | ok k =>
      cases run
      exact ⟨d, body, rfl, rfl⟩

/-- A device that was finished without problems went through the dataflow, and was marked. -/
theorem finish_ensures (m : Device) : Ensures finish m fun problems m' => problems = [] →
    ∃ n d, Statement.fixpoint m.resolver Device.analogScope m.body m.design = ⟨m'.body, d, .ok n⟩ ∧
      Statement.markAll Device.analogScope m'.body d = (m'.markers, m'.design) := by
  refine Meets.modify (Meets.get ?_)
  split
  · rename_i some
    refine Meets.pure fun none => ?_
    rw [none] at some
    cases some
  · split
    · refine Meets.set (Meets.pure fun none => ?_)
      cases none
    · trivial
    · rename_i n m₁ done
      obtain ⟨d, body, flow, rfl⟩ := runDataflow_eq_ok done
      exact fun _ => ⟨n, d, flow, rfl⟩

theorem finished_of_finish (h : m.Sound) (run : finish m = .ok [] m') :
    ∃ n d, Statement.fixpoint m.resolver Device.analogScope m.body m.design = ⟨m'.body, d, .ok n⟩ ∧
      m'.Finished m.resolver d := by
  obtain ⟨n, d, flow, marked⟩ := (finish_ensures m).of_ok run rfl
  have rounds := flow
  unfold Statement.fixpoint at rounds
  obtain ⟨ledger, every, ⟨scopes, guarded, reach⟩, -⟩ := Statement.rounds_keeps m.resolver
    Device.analogScope
    (Statement.roundBound m.resolver m.body) (Statement.roundBound m.resolver m.body) 1
      m.body h.every
    h.ledger
  rw [rounds] at ledger every scopes guarded reach
  have sound := h.ofLedger ledger every scopes guarded reach
  have done : (Statement.rounds m.resolver Device.analogScope
      (Statement.roundBound m.resolver m.body)
      (Statement.roundBound m.resolver m.body) 1 m.body m.design).result = .ok n := by rw [rounds]
  obtain ⟨body', d', wf', nested', quiet, value, design, -⟩ :=
    Statement.rounds_end h.wellFormed h.nested done
  have settled := Statement.updateAll_settles m.resolver wf' body' nested' quiet
  rw [← value, ← design, rounds] at settled
  exact ⟨n, d, flow, sound.wellFormed, sound.nested, settled, sound.reach, marked⟩

end DeviceM

theorem Device.exists_finished {m : Device} {p : Device → Prop} [DecidablePred p]
    (h : (match DeviceM.finish m with
      | .ok [] m' => decide (p m')
      | _ => false) = true) : ∃ m', DeviceM.finish m = .ok [] m' ∧ p m' := by
  split at h
  · rename_i m' run
    exact ⟨m', run, of_decide_eq_true h⟩
  · cases h

end Analog
