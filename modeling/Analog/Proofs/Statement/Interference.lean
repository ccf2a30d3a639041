import Analog.Proofs.Dataflow.Marking
import Analog.Proofs.Statement.Execution

/-!
What a contribution can depend on. Two runs of a finished device over different probes make the same
of a contribution if the probes agree that bear on it: those of its summary, those of the conditions
around it, and those of the conditions around any assignment to a variable that it was read from.
The conditions around assignments do not enter the summary of the variable, so that the summaries of
a contribution and of its own conditions are not enough.
-/
namespace Analog

def Standing.target? (y : Standing) : Option VariableId :=
  match y.statement with
  | .declare s => s.source.map fun _ => s.symbol.id
  | .assign s => s.symbol.map (·.id)
  | _ => none

/-- The summaries that bear on a statement. -/
inductive Device.Bears (m : Device) (y : Standing) : Summary → Prop
  | own {s : Contribution} {a : Summary} (stands : y.statement = .contribute s)
    (found : s.summary = some a) : m.Bears y a
  | around {k : Condition} {a : Summary} (near : k ∈ y.conditions) (found : k.summary = some a) :
    m.Bears y a
  | assigned {a b : Summary} {v : VariableId} {z : Standing} {k : Condition} (bears : m.Bears y a)
    (read : v ∈ a.consumers.items) (stands : z ∈ m.leaves) (target : z.target? = some v)
    (reached : m.design.reach z.scope ≠ .never) (near : k ∈ z.conditions)
      (found : k.summary = some b) :
    m.Bears y b

namespace Statement

/-- Records of the same statements that agree on those of interest. -/
inductive Matching (interest : Standing → Prop) : List Standing → List Event → List Event → Prop
  | nil : Matching interest [] [] []
  | cons {y : Standing} {ys : List Standing} {e f : Event} {es fs : List Event}
    (same : interest y → e = f) (rest : Matching interest ys es fs) :
    Matching interest (y :: ys) (e :: es) (f :: fs)

namespace Matching

variable {interest : Standing → Prop} {ys zs : List Standing} {es es' fs fs' : List Event}

theorem append (first : Matching interest ys es fs) (second : Matching interest zs es' fs') :
    Matching interest (ys ++ zs) (es ++ es') (fs ++ fs') := by
  induction first with
  | nil => exact second
  | cons same _ ih => exact .cons same ih

theorem of_none (none : ∀ y ∈ ys, ¬ interest y) (left : es.length = ys.length)
    (right : fs.length = ys.length) : Matching interest ys es fs := by
  induction ys generalizing es fs with
  | nil =>
    obtain rfl := List.eq_nil_of_length_eq_zero left
    obtain rfl := List.eq_nil_of_length_eq_zero right
    exact .nil
  | cons y ys ih =>
    obtain ⟨e, es, rfl⟩ := List.exists_cons_of_length_eq_add_one left
    obtain ⟨f, fs, rfl⟩ := List.exists_cons_of_length_eq_add_one right
    obtain ⟨first, rest⟩ := List.forall_mem_cons.mp none
    exact .cons (fun h => absurd h first) (ih rest (Nat.succ.inj left) (Nat.succ.inj right))

theorem same (length : es.length = ys.length) : Matching interest ys es es := by
  induction ys generalizing es with
  | nil =>
    obtain rfl := List.eq_nil_of_length_eq_zero length
    exact .nil
  | cons y ys ih =>
    obtain ⟨e, es, rfl⟩ := List.exists_cons_of_length_eq_add_one length
    exact .cons (fun _ => rfl) (ih (Nat.succ.inj length))

theorem at_index (h : Matching interest ys es fs) {i : Nat} {y : Standing} (there : ys[i]? = some y)
    (of_interest : interest y) : ∃ e, es[i]? = some e ∧ fs[i]? = some e := by
  induction h generalizing i with
  | nil => cases there
  | cons same _ ih =>
    cases i with
    | zero =>
      cases there
      exact ⟨_, rfl, congrArg some (same of_interest).symm⟩
    | succ i => exact ih there

end Matching

/-- Summaries `bearing` of which the probes agree, with all that bears on them in the list
`whole`. -/
structure Secured (d : Design) (whole : List Standing) (bearing : Summary → Prop) (x : Setting)
    (other : Probe → Int64) : Prop where
  probes : ∀ a, bearing a → ∀ q, a.dependsOn q = true → x.probe q = other q
  conditions : ∀ a, bearing a → ∀ v ∈ a.consumers.items, ∀ z ∈ whole, z.target? = some v →
    d.reach z.scope ≠ .never → ∀ k ∈ z.conditions, ∀ b, k.summary = some b → bearing b

/-- A variable of which all that is known is part of a summary that bears. -/
def Tracked (d : Design) (bearing : Summary → Prop) (v : VariableId) : Prop :=
  ∃ a, bearing a ∧ ∀ y, (d.snapshot v).Mentions y → a.Mentions y

/-- A contribution of which the summary and those of its conditions bear. -/
def Watched (bearing : Summary → Prop) (y : Standing) : Prop :=
  (∃ s, y.statement = .contribute s ∧ ∀ a, s.summary = some a → bearing a) ∧
    ∀ k ∈ y.conditions, ∀ b, k.summary = some b → bearing b

section Runs

variable {r : Resolver} {d : Design} {whole : List Standing} {bearing : Summary → Prop}
  {x : Setting} {other : Probe → Int64} {σ τ : Memory}

theorem evaluate_eq (secured : Secured d whole bearing x other)
    (agree : ∀ v, Tracked d bearing v → σ v = τ v) {t : Tree}
    (read : t.refresh d.snapshot = t) {a : Summary}
    (bears : bearing a) (part : ∀ y, t.summary.Mentions y → a.Mentions y) :
    t.evaluate x σ = t.evaluate { x with probe := other } τ := by
  have brings : ∀ y ∈ t.reads, ∀ z, y.Brings d.snapshot z → a.Mentions z := by
    intro y mem z brought
    apply part
    rw [← read]
    exact t.mentions_refresh.mpr ⟨y, mem, brought⟩
  refine t.evaluate_congr fun y mem => ?_
  cases y with
  | probe q => exact secured.probes a bears q (brings _ mem (.probe q) rfl)
  | «variable» v => exact agree v ⟨a, bears, brings _ mem⟩

theorem agree_update (secured : Secured d whole bearing x other)
    (agree : ∀ v, Tracked d bearing v → σ v = τ v) {t : Tree} (read : t.refresh d.snapshot = t)
    {w : VariableId} (covers : (d.env w).Covers t.summary) :
    ∀ v, Tracked d bearing v → Function.update σ w (t.evaluate x σ) v =
      Function.update τ w (t.evaluate { x with probe := other } τ) v := by
  intro v tracked
  by_cases same : v = w
  · subst same
    obtain ⟨a, bears, part⟩ := tracked
    rw [Function.update_self, Function.update_self]
    refine evaluate_eq secured agree read bears fun y known => part y ?_
    exact Summary.mentions_addConsumer.mpr (.inl (covers.mentions known))
  · rw [Function.update_of_ne same, Function.update_of_ne same]
    exact agree v tracked

theorem reach_of_selects {c : Condition} {t : Tree} {thnScope elsScope : ScopeId}
    (value : c.value = some t)
    (arms : (d.reachOf thnScope, d.reachOf elsScope) = Condition.arms t) {b : Bool}
    (selects : c.selects? x σ = some b) :
    if b then d.reachOf thnScope ≠ .never else d.reachOf elsScope ≠ .never := by
  obtain ⟨thn, els⟩ := Prod.mk.inj arms
  rw [thn, els]
  unfold Condition.selects? at selects
  rw [value] at selects
  cases t with
  | literal v o =>
    simp only [show v.truth? = some b from selects]
    cases b <;> decide
  | _ => cases b <;> simp

mutual

theorem execute_frame (s : Statement) {outer : ScopeId} (around : List Condition)
    (live : Live r d outer s)
    {σ : Memory} {v : VariableId} (free : ∀ y ∈ s.leaves outer around, d.reach y.scope ≠ .never →
      y.target? ≠ some v) :
    (s.execute x σ).1 v = σ v := by
  cases s with
  | declare s =>
    have other := free _ (List.mem_singleton_self _) live.reached
    simp only [execute]
    split
    · rename_i source _
      simp only [Standing.target?, source, Option.map_some, ne_eq, Option.some.injEq] at other
      exact Function.update_of_ne (Ne.symm other) _ _
    · rfl
  | assign s =>
    have other := free _ (List.mem_singleton_self _) live.reached
    simp only [execute]
    split
    · rename_i symbol _
      simp only [Standing.target?, symbol, Option.map_some, ne_eq, Option.some.injEq] at other
      exact Function.update_of_ne (Ne.symm other) _ _
    · rfl
  | contribute s => rfl
  | conditional c thnScope thn elsScope els =>
    obtain ⟨thnFree, elsFree⟩ := List.forall_mem_append.mp free
    obtain ⟨t, a, value, summary, held, covers, arms⟩ := live.rests _ List.mem_cons_self
    simp only [execute]
    split
    · rename_i selects
      exact executeAll_frame thn (c :: around) (live.thn (reach_of_selects value arms selects))
        thnFree
    · rename_i selects
      exact executeAll_frame els (c :: around) (live.els (reach_of_selects value arms selects))
        elsFree
    · rfl
  | block inner body => exact executeAll_frame body around live.body free

theorem executeAll_frame (ss : List Statement) {outer : ScopeId} (around : List Condition)
    (live : LiveAll r d outer ss) {σ : Memory} {v : VariableId}
    (free : ∀ y ∈ leavesAll outer around ss, d.reach y.scope ≠ .never → y.target? ≠ some v) :
    (executeAll x σ ss).1 v = σ v := by
  cases ss with
  | nil => rfl
  | cons s ss =>
    obtain ⟨first, rest⟩ := List.forall_mem_append.mp free
    simp only [executeAll]
    rw [executeAll_frame ss around live.tail rest, execute_frame s around live.head first]

end

mutual

theorem around_of_leaves (s : Statement) {outer : ScopeId} {around : List Condition} {k : Condition}
    (near : k ∈ around) : ∀ y ∈ s.leaves outer around, k ∈ y.conditions := by
  cases s with
  | declare s => exact List.forall_mem_singleton.mpr near
  | assign s => exact List.forall_mem_singleton.mpr near
  | contribute s => exact List.forall_mem_singleton.mpr near
  | conditional c thnScope thn elsScope els =>
    exact List.forall_mem_append.mpr ⟨around_of_leavesAll thn (List.mem_cons_of_mem c near),
      around_of_leavesAll els (List.mem_cons_of_mem c near)⟩
  | block inner body => exact around_of_leavesAll body near

theorem around_of_leavesAll (ss : List Statement) {outer : ScopeId} {around : List Condition}
    {k : Condition} (near : k ∈ around) : ∀ y ∈ leavesAll outer around ss, k ∈ y.conditions := by
  cases ss with
  | nil => exact fun y mem => absurd mem List.not_mem_nil
  | cons s ss =>
    exact List.forall_mem_append.mpr ⟨around_of_leaves s near, around_of_leavesAll ss near⟩

end

theorem untracked (secured : Secured d whole bearing x other) {c : Condition} {b : Summary}
    (summary : c.summary = some b) (apart : ¬ bearing b) {ys : List Standing}
    (near : ∀ y ∈ ys, c ∈ y.conditions) (inside : ∀ y ∈ ys, y ∈ whole) {v : VariableId}
    (tracked : Tracked d bearing v) : ∀ y ∈ ys, d.reach y.scope ≠ .never → y.target? ≠ some v := by
  intro y mem reached target
  obtain ⟨a, bears, part⟩ := tracked
  have read : v ∈ a.consumers.items :=
    part (.variable v) (Summary.mentions_addConsumer.mpr (.inr rfl))
  exact apart (secured.conditions a bears v read y (inside y mem) target reached c
    (near y mem) b summary)

/-- What one conditional does to the memory, if its condition does not bear: nothing that is
tracked. -/
theorem execute_untracked (secured : Secured d whole bearing x other) {c : Condition}
    {thnScope elsScope outer : ScopeId} {thn els : List Statement} {around : List Condition}
    (live : Live r d outer (.conditional c thnScope thn elsScope els)) {b : Summary}
    (summary : c.summary = some b) (apart : ¬ bearing b)
    (inside : ∀ y ∈ (conditional c thnScope thn elsScope els).leaves outer around, y ∈ whole)
    (y : Setting) {v : VariableId} (tracked : Tracked d bearing v) :
    ((conditional c thnScope thn elsScope els).execute y σ).1 v = σ v := by
  have near : ∀ z ∈ (conditional c thnScope thn elsScope els).leaves outer around,
    c ∈ z.conditions :=
    List.forall_mem_append.mpr ⟨around_of_leavesAll thn List.mem_cons_self,
      around_of_leavesAll els List.mem_cons_self⟩
  exact execute_frame _ around live (untracked secured summary apart near inside tracked)

mutual

/-- Two runs of a statement keep to the same values of what is tracked, and make the same of what is
watched. -/
theorem execute_agrees (secured : Secured d whole bearing x other) (s : Statement) {outer : ScopeId}
    {around : List Condition} (live : Live r d outer s)
    (inside : ∀ y ∈ s.leaves outer around, y ∈ whole)
    {σ τ : Memory} (agree : ∀ v, Tracked d bearing v → σ v = τ v) :
    (∀ v, Tracked d bearing v →
      (s.execute x σ).1 v = (s.execute { x with probe := other } τ).1 v) ∧
    Matching (Watched bearing) (s.leaves outer around) (s.execute x σ).2
      (s.execute { x with probe := other } τ).2 := by
  cases s with
  | declare s =>
    have quiet : ∀ {e f : Event}, Matching (Watched bearing)
        [⟨outer, around, .declare s⟩] [e] [f] := by
      refine .of_none (List.forall_mem_singleton.mpr ?_) rfl rfl
      rintro ⟨⟨_, ⟨⟩, _⟩, _⟩
    cases source : s.source with
    | none =>
      simp only [execute, source]
      exact ⟨agree, quiet⟩
    | some written =>
      obtain ⟨t, value, held, covers⟩ := live.rests _ (List.mem_singleton_self _) written source
      simp only [execute, source, value]
      have read := congrArg (Tree.declaration s.symbol) held.read
      exact ⟨agree_update (t := .declaration s.symbol t) secured agree read covers, quiet⟩
  | assign s =>
    obtain ⟨v, t, symbol, value, held, covers⟩ := live.rests _ (List.mem_singleton_self _)
    simp only [execute, symbol, value]
    refine ⟨agree_update secured agree held.read covers, ?_⟩
    refine .of_none (List.forall_mem_singleton.mpr ?_) rfl rfl
    rintro ⟨⟨_, ⟨⟩, _⟩, _⟩
  | contribute s =>
    obtain ⟨q, t, a, _, value, summary, held, covers, _⟩ := live.rests _ (List.mem_singleton_self _)
    refine ⟨agree, .cons ?_ .nil⟩
    rintro ⟨⟨_, ⟨⟩, bears⟩, _⟩
    simp only [value, Option.map_some]
    exact congrArg some
      (evaluate_eq secured agree held.read (bears a summary) fun y known => covers.mentions known)
  | conditional c thnScope thn elsScope els =>
    obtain ⟨t, a, value, summary, held, covers, arms⟩ := live.rests _ List.mem_cons_self
    by_cases bears : bearing a
    · -- Both runs take the same way.
      have same : c.selects? { x with probe := other } τ = c.selects? x σ := by
        have equal := evaluate_eq secured agree held.read bears fun y known => covers.mentions known
        simp only [Condition.selects?, value]
        cases t with
        | literal v o => rfl
        | _ => exact congrArg (Option.map _) equal.symm
      obtain ⟨thnInside, elsInside⟩ := List.forall_mem_append.mp inside
      simp only [execute, same]
      split
      · rename_i selects
        obtain ⟨kept, matching⟩ := executeAll_agrees secured thn
          (live.thn (reach_of_selects value arms selects)) thnInside agree
        exact ⟨kept, matching.append (.same (length_skippedAll elsScope (c :: around) els))⟩
      · rename_i selects
        obtain ⟨kept, matching⟩ := executeAll_agrees secured els
          (live.els (reach_of_selects value arms selects)) elsInside agree
        exact ⟨kept, .append (.same (length_skippedAll thnScope (c :: around) thn)) matching⟩
      · exact ⟨agree, .append (.same (length_skippedAll thnScope (c :: around) thn))
          (.same (length_skippedAll elsScope (c :: around) els))⟩
    · -- The runs may part here, but nothing inside is tracked or watched.
      refine ⟨fun v tracked => ?_, .of_none ?_ (length_execute x outer around _ σ)
        (length_execute _ outer around _ τ)⟩
      · rw [execute_untracked secured live summary bears inside x tracked,
          execute_untracked secured live summary bears inside { x with probe := other } tracked]
        exact agree v tracked
      · have near : ∀ y ∈ (conditional c thnScope thn elsScope els).leaves outer around,
            c ∈ y.conditions := List.forall_mem_append.mpr
          ⟨around_of_leavesAll thn List.mem_cons_self, around_of_leavesAll els List.mem_cons_self⟩
        rintro y mem ⟨_, all⟩
        exact bears (all c (near y mem) a summary)
  | block inner body => exact executeAll_agrees secured body live.body inside agree

theorem executeAll_agrees (secured : Secured d whole bearing x other) (ss : List Statement)
    {outer : ScopeId} {around : List Condition} (live : LiveAll r d outer ss)
    (inside : ∀ y ∈ leavesAll outer around ss, y ∈ whole) {σ τ : Memory}
    (agree : ∀ v, Tracked d bearing v → σ v = τ v) :
    (∀ v, Tracked d bearing v →
      (executeAll x σ ss).1 v = (executeAll { x with probe := other } τ ss).1 v) ∧
    Matching (Watched bearing) (leavesAll outer around ss) (executeAll x σ ss).2
      (executeAll { x with probe := other } τ ss).2 := by
  cases ss with
  | nil => exact ⟨agree, .nil⟩
  | cons s ss =>
    obtain ⟨first, rest⟩ := List.forall_mem_append.mp inside
    obtain ⟨kept, matching⟩ := execute_agrees secured s live.head first agree
    obtain ⟨keptRest, matchingRest⟩ := executeAll_agrees secured ss live.tail rest kept
    exact ⟨keptRest, matching.append matchingRest⟩

end

end Runs

end Statement

/-- Whether a statement is a contribution under no condition, with a summary that has no probes. -/
def Standing.isFree (y : Standing) : Bool :=
  y.conditions.isEmpty && match y.statement with
    | .contribute s => s.summary.all (·.deps.probes.isEmpty)
    | _ => false

theorem Standing.contribute_of_isFree {y : Standing} (free : y.isFree = true) : y.conditions = [] ∧
    ∃ s, y.statement = .contribute s ∧ ∀ a, s.summary = some a → ∀ q, ¬ a.dependsOn q = true := by
  obtain ⟨scope, conditions, statement⟩ := y
  simp only [Standing.isFree, Bool.and_eq_true, List.isEmpty_iff] at free
  obtain ⟨rfl, free⟩ := free
  cases statement with
  | contribute s =>
    refine ⟨rfl, s, rfl, fun a found q depends => ?_⟩
    simp only [found, Option.all_some, List.isEmpty_iff] at free
    exact List.not_mem_nil (free ▸ Summary.dependsOn_iff.mp depends)
  | _ => cases free

namespace Device

variable {m : Device} {r : Resolver} {d : Design}

theorem Finished.reach (h : m.Finished r d) (s : ScopeId) : m.design.reach s = d.reach s := by
  have marked := Design.markKept_marked.statements analogScope m.body d
  rw [h.marked] at marked
  exact Design.reach_eq marked.scopes s

theorem Finished.secured (h : m.Finished r d) (y : Standing) {x : Setting} {other : Probe → Int64}
    (agree : ∀ a, m.Bears y a → ∀ q, a.dependsOn q = true → x.probe q = other q) :
    Statement.Secured d m.leaves (m.Bears y) x other where
  probes := agree
  conditions _ bears _ read _ stands target reached _ near _ found := by
    rw [← h.reach] at reached
    exact .assigned bears read stands target reached near found

/-- Whatever calls build a device, once it is finished two runs over probes that agree on all
summaries that bear on a contribution do the same with it: neither makes it, or both make it with
the same value. -/
theorem run_eq_of_bearing (name : String) (config : Config) (ops : List Operation) {m : Device}
    (finished : DeviceM.finish ((Editor.ofDevice (create name config)).performAll ops).device =
      .ok [] m) {i : Nat} {y : Standing} {s : Contribution} (there : m.leaves[i]? = some y)
    (contributes : y.statement = .contribute s) (x : Setting) (other : Probe → Int64)
    (agree : ∀ a, m.Bears y a → ∀ q, a.dependsOn q = true → x.probe q = other q) :
    ∃ e, (m.run x)[i]? = some e ∧ (m.run { x with probe := other })[i]? = some e := by
  have sound : ((Editor.ofDevice (create name config)).performAll ops).device.Sound :=
    Editor.sound_performAll ops (sound_create name config)
  obtain ⟨n, d, -, done⟩ := DeviceM.finished_of_finish sound finished
  have start : ∀ v, Statement.Tracked d (m.Bears y) v → Memory.initial v = Memory.initial v :=
    fun _ _ => rfl
  obtain ⟨-, matching⟩ :=
    Statement.executeAll_agrees (done.secured y agree) m.body done.live (fun _ mem => mem) start
  exact matching.at_index there
    ⟨⟨s, contributes, fun _ found => .own contributes found⟩,
      fun _ near _ found => .around near found⟩

/-- A variable that is set to one of two numbers by a condition on a potential, and one that is set
to another potential. Both are contributed. -/
def switchCalls : List Operation :=
  let potential (name : String) : Raw := [.marker, .identifier name, .arguments, .identifier "V"]
  let flow (name : String) : Raw := [.marker, .identifier name, .arguments, .identifier "I"]
  [.port "p", .port "q", .port "s", .variable "x" .real, .variable "y" .real, .analog,
    .openConditional (potential "p" ++ [.literal (.int 0), .binary .gt]),
      .assign "x" [.literal (.int 1)],
    .openElse, .assign "x" [.literal (.int 2)], .close, .assign "y" (potential "s"),
    .contribute (flow "q") [.identifier "x"], .contribute (flow "s") [.identifier "y"], .settle 0]

def switch : Device := ((Editor.ofDevice (create "switch" .default)).performAll switchCalls).device

/-- A setting in which no function has a value. -/
def settingOf (m : Device) (probe : Probe → Int64) : Setting :=
  ⟨m.design.circuit, fun _ => 0, fun _ => false, fun _ _ => none, probe⟩

/-- A valuation of the first potential of the circuit, and of all other probes. -/
def firstPotential (n k : Int64) : Probe → Int64 := fun q => if q = ⟨0, .potential⟩ then n else k

theorem Bears.of_isFree {m : Device} {y : Standing} (free : y.isFree = true) {a : Summary}
    (bears : m.Bears y a) {q : Probe} (depends : a.dependsOn q = true) :
    ∃ z ∈ m.leaves, ∃ k ∈ z.conditions, k.summary = some a := by
  obtain ⟨none, s, contributes, quiet⟩ := Standing.contribute_of_isFree free
  cases bears with
  | own stands found =>
    cases contributes.symm.trans stands
    exact absurd depends (quiet a found q)
  | around near found =>
    rw [none] at near
    cases near
  | assigned _ _ stands _ _ near found => exact ⟨_, stands, _, near, found⟩

theorem run_eq_of_bearing_switch : ∃ m y s, DeviceM.finish switch = .ok [] m ∧
    m.leaves[3]? = some y ∧ y.statement = .contribute s ∧
    (∀ a, m.Bears y a → ∀ q, a.dependsOn q = true → firstPotential 1 3 q = firstPotential 1 4 q) ∧
    (m.run (m.settingOf (firstPotential 1 3)))[4]? ≠
    (m.run (m.settingOf (firstPotential 1 4)))[4]? ∧
    ∃ e, (m.run (m.settingOf (firstPotential 1 3)))[3]? = some e ∧
      (m.run (m.settingOf (firstPotential 1 4)))[3]? = some e := by
  obtain ⟨m, finished, free, first, apart⟩ := exists_finished (m := switch) (p := fun m =>
    m.leaves[3]?.any Standing.isFree = true ∧
    (∀ z ∈ m.leaves, ∀ k ∈ z.conditions, ∀ b ∈ k.summary, ∀ q ∈ b.deps.probes,
      q = ⟨0, .potential⟩) ∧
    (m.run (m.settingOf (firstPotential 1 3)))[4]? ≠ (m.run (m.settingOf (firstPotential 1 4)))[4]?)
    (by decide +kernel)
  obtain ⟨y, there, free⟩ := (Option.any_eq_true _ _).mp free
  obtain ⟨-, s, contributes, -⟩ := Standing.contribute_of_isFree free
  have agree : ∀ a, m.Bears y a → ∀ q, a.dependsOn q = true →
      firstPotential 1 3 q = firstPotential 1 4 q := by
    intro a bears q depends
    obtain ⟨z, stands, k, near, found⟩ := bears.of_isFree free depends
    rw [first z stands k near a found q (Summary.dependsOn_iff.mp depends)]
    rfl
  exact ⟨m, y, s, finished, there, contributes, agree, apart,
    run_eq_of_bearing "switch" .default switchCalls
    finished there contributes (m.settingOf (firstPotential 1 3)) (firstPotential 1 4) agree⟩

/-- The summaries of a contribution and of the conditions around it do not tell all that it depends
on: a condition around an assignment is no part of them. -/
theorem run_ne_of_own_summaries :
    ¬ ∀ (name : String) (config : Config) (ops : List Operation) (m : Device),
    DeviceM.finish ((Editor.ofDevice (create name config)).performAll ops).device = .ok [] m →
    ∀ (i : Nat) (y : Standing) (s : Contribution), m.leaves[i]? = some y →
    y.statement = .contribute s →
    m.design.reach y.scope ≠ .never → ∀ (x : Setting) (other : Probe → Int64),
    (∀ a, (s.summary = some a ∨ ∃ k ∈ y.conditions, k.summary = some a) →
      ∀ q, a.dependsOn q = true → x.probe q = other q) →
    (m.run x)[i]? = (m.run { x with probe := other })[i]? := by
  obtain ⟨m, finished, free, reached, apart⟩ := exists_finished (m := switch) (p := fun m =>
    m.leaves[3]?.any Standing.isFree = true ∧
    (∀ y ∈ m.leaves, m.design.reach y.scope ≠ .never) ∧
    (m.run (m.settingOf (firstPotential 1 0)))[3]? ≠ (m.run (m.settingOf (firstPotential 0 0)))[3]?)
    (by decide +kernel)
  obtain ⟨y, there, free⟩ := (Option.any_eq_true _ _).mp free
  obtain ⟨none, s, contributes, quiet⟩ := Standing.contribute_of_isFree free
  intro confined
  refine apart (confined "switch" .default switchCalls m finished 3 y s there contributes
    (reached y (List.mem_of_getElem? there)) (m.settingOf (firstPotential 1 0))
      (firstPotential 0 0) ?_)
  rintro a (found | ⟨k, near, _⟩) q depends
  · exact absurd depends (quiet a found q)
  · rw [none] at near
    cases near

end Device

end Analog
