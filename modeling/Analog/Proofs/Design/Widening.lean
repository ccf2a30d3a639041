import Analog.Proofs.Statement.HeldUses
import Analog.Statement.Marking

/-!
Changes of a design that its statements do not notice: a declared name, a new scope, a mark. They
keep the counters, the scopes that blocks name and the well-formedness of the design.
-/
namespace Analog

variable {d d' : Design} {outer : ScopeId}

/-- The scopes and variables that statements name stay as they are. -/
structure Design.Spares (d d' : Design) : Prop where
  enclosing : ∀ s < d.scopes.size, (d'.scopeOf s).enclosing = (d.scopeOf s).enclosing
  scopes : d.scopes.size ≤ d'.scopes.size
  vars : d.vars.size ≤ d'.vars.size

/-- A change of a design that statements do not notice. -/
structure Design.Widens (d d' : Design) : Prop extends d.Spares d' where
  wellFormed : d'.WellFormed
  holds : ∀ start held, d.circuit.Holds start held → d'.circuit.Holds start held
  faithful : d.Faithful → d'.Faithful
  reach : ∀ s, d'.reachOf s = d.reachOf s

namespace Design

variable {d : Design} {c : Circuit} {d' a b : Design} {ref : BranchRef}

theorem spares_refl (d : Design) : d.Spares d := ⟨fun _ _ => rfl, Nat.le_refl _, Nat.le_refl _⟩

theorem Extends.spares (ext : d.Extends d') : d.Spares d' :=
  ⟨fun s _ => ext.enclosing s, Nat.le_of_eq ext.scopes.symm, Nat.le_of_eq ext.vars.symm⟩

theorem Spares.trans {c : Design} (ab : a.Spares b) (bc : b.Spares c) : a.Spares c where
  enclosing s inside :=
    (bc.enclosing s (Nat.lt_of_lt_of_le inside ab.scopes)).trans (ab.enclosing s inside)
  scopes := Nat.le_trans ab.scopes bc.scopes
  vars := Nat.le_trans ab.vars bc.vars

theorem Widens.trans {c : Design} (ab : a.Widens b) (bc : b.Widens c) : a.Widens c where
  toSpares := ab.toSpares.trans bc.toSpares
  wellFormed := bc.wellFormed
  holds start held h := bc.holds start held (ab.holds start held h)
  faithful h := bc.faithful (ab.faithful h)
  reach s := (bc.reach s).trans (ab.reach s)

theorem widens_circuit (wf : d.WellFormed) (after : WellFormed { d with circuit := c })
    (names : d.circuit.KeepsNames c) (holds : ∀ start held, d.circuit.Holds start held →
      c.Holds start held) :
    d.Widens { d with circuit := c } :=
  ⟨⟨fun _ _ => rfl, Nat.le_refl _, Nat.le_refl _⟩, after, holds, fun h => h.withCircuit wf names,
    fun _ => rfl⟩

theorem widens_addNode (wf : d.WellFormed) (name : String) :
    d.Widens { d with circuit := (d.circuit.addNode name).2.2 } ∧
      (d.circuit.addNode name).1 < (d.circuit.addNode name).2.2.nodes.size := by
  unfold Circuit.addNode
  split
  · rename_i i found
    refine ⟨widens_circuit wf wf (.refl _) fun _ _ h => h, ?_⟩
    obtain ⟨inside, _⟩ := Array.findIdx?_eq_some_iff_getElem.mp found
    exact inside
  · have more : d.circuit.nodes.size ≤ (d.circuit.nodes.push ⟨name, none⟩).size := by simp
    have ext := Circuit.extends_withNodes d.circuit more d.circuit.filters
    refine ⟨widens_circuit wf (wf.withCircuit ext (wf.circuit.withNodes more _))
      (Circuit.keepsNames_addNode _ _ _) ?_, by simp⟩
    exact fun _ _ h => h.withNodes _ _

theorem widens_connect (wf : d.WellFormed) {p n : NodeId}
    (run : d.circuit.connect p n = .ok (ref, c)) : d.Widens { d with circuit := c } :=
  widens_circuit wf (wf.withCircuit (Circuit.connect_extends run) (wf.circuit.connect run))
    (Circuit.keepsNames_connect run) fun _ _ h => h.connect run

theorem widens_addBranch (wf : d.WellFormed) {new : Branch} (unused : new.usage = .zero)
    (unnamed : new.isAlias = false → new.name = "")
    (base : ∀ b, new.base = some b → b < d.circuit.branches.size ∧
      (d.circuit.branch b).isAlias = false) :
    d.Widens { d with circuit := (d.circuit.addBranch new).2 } := by
  refine widens_circuit wf ⟨wf.circuit.addBranch base, ?_, ?_, wf.summaries⟩
    (Circuit.keepsNames_addBranch unnamed) fun _ _ h => h.addBranch unused
  · intro x mem
    obtain ⟨inside, own⟩ := wf.filters x mem
    rw [Circuit.size_addBranch, Circuit.branch_addBranch, if_neg (Nat.ne_of_lt inside)]
    exact ⟨Nat.lt_succ_of_lt inside, own⟩
  · intro s x mem
    have more : d.circuit.branches.size ≤ (d.circuit.addBranch new).2.branches.size := by simp
    refine (wf.bindings s x mem).mono ?_ more ?_ ?_ <;> exact Nat.le_refl _

theorem widens_addAlias? (wf : d.WellFormed) {p n : NodeId} (joins : d.circuit.Joins ref p n)
    {name : String} {b : BranchId} (made : d.circuit.addAlias? ref name = some (b, c)) :
    d.Widens { d with circuit := c } ∧ b < c.branches.size := by
  unfold Circuit.addAlias? at made
  split at made
  · cases made
  · cases made
    have base : d.circuit.base ref.branch = ref.branch := by
      have own := joins.own
      simp only [Branch.isAlias, Option.isSome_eq_false_iff, Option.isNone_iff_eq_none] at own
      simp [Circuit.base, own]
    refine ⟨widens_addBranch wf rfl (by simp [Branch.isAlias]) fun b known => ?_, by simp⟩
    simp only [Option.some.injEq] at known
    rw [base] at known
    exact known ▸ ⟨joins.inside, joins.own⟩

section Define

variable {s : ScopeId} {name : String} {x : Binding}

theorem define?_eq_some (made : d.define? s name x = some d') :
    (d.scopeOf s).bindings.lookup name = none ∧
      d' = d.modifyScope s fun scope =>
      { scope with bindings := scope.bindings ++ [(name, x)] } := by
  unfold define? at made
  split at made
  · cases made
  · rename_i free
    cases made
    exact ⟨free, rfl⟩

theorem scopeOf_define? (made : d.define? s name x = some d') (t : ScopeId) :
    d'.scopeOf t = if t = s ∧ s < d.scopes.size then
      { d.scopeOf s with bindings := (d.scopeOf s).bindings ++ [(name, x)] } else d.scopeOf t := by
  obtain ⟨-, rfl⟩ := define?_eq_some made
  exact scopeOf_modifyScope d s t _

theorem frame_define? (made : d.define? s name x = some d') :
    d' = { d with scopes := d'.scopes } := by
  obtain ⟨-, rfl⟩ := define?_eq_some made
  rfl

theorem enclosing_define? (made : d.define? s name x = some d') (t : ScopeId) :
    (d'.scopeOf t).enclosing = (d.scopeOf t).enclosing := by
  rw [scopeOf_define? made]
  split
  · rename_i same
    rw [same.1]
  · rfl

theorem reachOf_define? (made : d.define? s name x = some d') (t : ScopeId) :
    d'.reachOf t = d.reachOf t := by
  rw [reachOf, reachOf, scopeOf_define? made]
  split
  · rename_i same
    rw [same.1]
  · rfl

theorem spares_define? (made : d.define? s name x = some d') : d.Spares d' := by
  refine ⟨fun t _ => enclosing_define? made t, ?_, ?_⟩
  · rw [(define?_eq_some made).2]
    simp [modifyScope]
  · rw [frame_define? made]

theorem widens_define? (wf : d.WellFormed) (inside : x.Inside d) (named : x.Named d.circuit name)
    (made : d.define? s name x = some d') : d.Widens d' := by
  have bound : ∀ t, ∀ y ∈ (d'.scopeOf t).bindings, y = (name, x) ∨
      ∃ t, y ∈ (d.scopeOf t).bindings := by
    intro t y mem
    rw [scopeOf_define? made] at mem
    split at mem
    · rcases List.mem_append.mp mem with old | new
      · exact .inr ⟨s, old⟩
      · exact .inl (List.mem_singleton.mp new)
    · exact .inr ⟨t, mem⟩
  have spares := spares_define? made
  have reach := reachOf_define? made
  obtain ⟨-, rfl⟩ := define?_eq_some made
  refine ⟨spares, ⟨wf.circuit, wf.filters, ?_, wf.summaries⟩, fun _ _ h => h,
    fun h => ⟨?_, h.branches, h.parameters⟩, reach⟩
  · intro t y mem
    rcases bound t y mem with rfl | ⟨t, old⟩
    · exact inside
    · exact wf.bindings t y old
  · intro t y mem
    rcases bound t y mem with rfl | ⟨t, old⟩
    · exact named
    · exact h.bindings t y old

end Define

theorem widens_addVariable (wf : d.WellFormed) (name : String) (type : DataType) :
    d.Widens (d.addVariable (.ofType name type)).2 := by
  have more : d.vars.size ≤ (d.addVariable (.ofType name type)).2.vars.size := by simp [addVariable]
  refine ⟨⟨fun _ _ => rfl, Nat.le_refl _, more⟩, ⟨wf.circuit, wf.filters, ?_, ?_⟩, fun _ _ h => h,
    fun h => ⟨h.bindings, h.branches, h.parameters⟩, fun _ => rfl⟩
  · intro s x mem
    refine (wf.bindings s x mem).mono ?_ ?_ ?_ more <;> exact Nat.le_refl _
  · intro v
    have var := getD_push d.vars default (Variable.ofType name type) v
    unfold variableOf addVariable
    rw [var]
    split
    · exact List.nodup_nil
    · exact wf.summaries v

theorem parameterOf_addParameter (d : Design) (new : Parameter) (p : ParameterId) :
    (d.addParameter new).2.parameterOf p = if p = d.parameters.size then new else d.parameterOf p :=
  getD_push d.parameters default new p

theorem parameterOf_modifyParameter (d : Design) (p q : ParameterId) (f : Parameter → Parameter) :
    (d.modifyParameter p f).parameterOf q =
      if q = p ∧ p < d.parameters.size then f (d.parameterOf p) else d.parameterOf q :=
  getD_modify d.parameters default q p f

theorem widens_addParameter (wf : d.WellFormed) {p : Parameter} (told : p.Told) :
    d.Widens (d.addParameter p).2 := by
  refine ⟨⟨fun _ _ => rfl, Nat.le_refl _, Nat.le_refl _⟩,
    ⟨wf.circuit, wf.filters, ?_, wf.summaries⟩,
    fun _ _ h => h, fun h => ⟨h.bindings, h.branches, fun q => ?_⟩, fun _ => rfl⟩
  · intro s x mem
    refine (wf.bindings s x mem).mono ?_ ?_ ?_ ?_ <;> simp [addParameter]
  · rw [parameterOf_addParameter]
    split
    · exact told
    · exact h.parameters q

theorem widens_modifyParameter (wf : d.WellFormed) {p : ParameterId} {f : Parameter → Parameter}
    (told : (d.parameterOf p).Told → (f (d.parameterOf p)).Told) :
    d.Widens (d.modifyParameter p f) := by
  refine ⟨⟨fun _ _ => rfl, Nat.le_refl _, Nat.le_refl _⟩,
    ⟨wf.circuit, wf.filters, ?_, wf.summaries⟩,
    fun _ _ h => h, fun h => ⟨h.bindings, h.branches, fun q => ?_⟩, fun _ => rfl⟩
  · intro s x mem
    refine (wf.bindings s x mem).mono ?_ ?_ ?_ ?_ <;> simp [modifyParameter]
  · rw [parameterOf_modifyParameter]
    split
    · exact told (h.parameters p)
    · exact h.parameters q

theorem widens_addSource (wf : d.WellFormed) (raw : Raw) : d.Widens (d.addSource raw).2 :=
  ⟨⟨fun _ _ => rfl, Nat.le_refl _, Nat.le_refl _⟩,
    ⟨wf.circuit, wf.filters, wf.bindings, wf.summaries⟩, fun _ _ h => h,
    fun h => ⟨h.bindings, h.branches, h.parameters⟩, fun _ => rfl⟩

theorem scopeOf_addScope (d : Design) (parent s : ScopeId) : (d.addScope parent).2.scopeOf s =
      if s = d.scopes.size then .inside (d.chain parent) else d.scopeOf s :=
  getD_push d.scopes default _ s

theorem widens_addScope (wf : d.WellFormed) (parent : ScopeId) :
    d.Widens (d.addScope parent).2 := by
  have bound : ∀ s x, x ∈ ((d.addScope parent).2.scopeOf s).bindings →
      x ∈ (d.scopeOf s).bindings := by
    intro s x mem
    rw [scopeOf_addScope] at mem
    split at mem
    · cases mem
    · exact mem
  refine ⟨⟨?_, ?_, Nat.le_refl _⟩, ⟨wf.circuit, wf.filters, ?_, wf.summaries⟩, fun _ _ h => h,
    fun h => ⟨fun s x mem => h.bindings s x (bound s x mem), h.branches, h.parameters⟩, ?_⟩
  · intro s inside
    rw [scopeOf_addScope, if_neg (Nat.ne_of_lt inside)]
  · simp [addScope]
  · exact fun s x mem => wf.bindings s x (bound s x mem)
  · intro s
    rw [reachOf, scopeOf_addScope]
    split
    · rename_i new
      rw [reachOf, scopeOf, getD_of_size_le d.scopes default (Nat.le_of_eq new.symm)]
      rfl
    · rfl

theorem widens_refl (wf : d.WellFormed) : d.Widens d :=
  ⟨d.spares_refl, wf, fun _ _ h => h, fun h => h, fun _ => rfl⟩

theorem widens_need (wf : d.WellFormed) (q : Probe) (m : Markers) :
    d.Widens { d with circuit := d.circuit.need q m } := by
  have branch : ∀ b, ((d.circuit.need q m).branch b).usage = (d.circuit.branch b).usage ∧
      ((d.circuit.need q m).branch b).base = (d.circuit.branch b).base ∧
      ((d.circuit.need q m).branch b).name = (d.circuit.branch b).name := by
    intro b
    rw [Circuit.need, Circuit.branch_modifyBranch]
    split
    · rename_i same
      rw [same.1]
      cases q.access <;> exact ⟨rfl, rfl, rfl⟩
    · exact ⟨rfl, rfl, rfl⟩
  have size : (d.circuit.need q m).branches.size = d.circuit.branches.size := by
    rw [Circuit.need, Circuit.size_modifyBranch]
  have own : ∀ b, ((d.circuit.need q m).branch b).isAlias = (d.circuit.branch b).isAlias := by
    intro b
    rw [Branch.isAlias, (branch b).2.1, Branch.isAlias]
  have names : d.circuit.KeepsNames (d.circuit.need q m) := by
    refine ⟨fun _ _ => rfl, fun h b => ?_⟩
    rw [own, (branch b).2.2]
    exact h b
  refine widens_circuit wf ⟨⟨wf.circuit.ground, ?_⟩, ?_, ?_, wf.summaries⟩ names ?_
  · intro a b known
    rw [(branch a).2.1] at known
    rw [size, own]
    exact wf.circuit.base a b known
  · intro x mem
    rw [size, own]
    exact wf.filters x mem
  · intro s x mem
    refine (wf.bindings s x mem).mono ?_ (Nat.le_of_eq size.symm) ?_ ?_ <;> exact Nat.le_refl _
  · intro start held h
    refine ⟨fun x mem => by rw [size]; exact h.inside x mem, fun b u => ?_⟩
    rw [Circuit.footprint_congr (fun x _ => (branch x.1).2.1), Circuit.count, (branch b).1]
    exact h.counts b u

theorem widens_markVariable (wf : d.WellFormed) (v : VariableId) (m : Markers) :
    d.Widens (d.markVariable v m) := by
  have same : d.vars.size ≤ (d.markVariable v m).vars.size := by simp [markVariable, modifyVariable]
  refine ⟨⟨fun _ _ => rfl, Nat.le_refl _, same⟩, ⟨wf.circuit, wf.filters, ?_, ?_⟩, fun _ _ h => h,
    fun h => ⟨h.bindings, h.branches, h.parameters⟩, fun _ => rfl⟩
  · intro s x mem
    refine (wf.bindings s x mem).mono ?_ ?_ ?_ same <;> exact Nat.le_refl _
  · intro w
    rw [markVariable, variableOf_modifyVariable]
    split
    · exact wf.summaries v
    · exact wf.summaries w

end Design

structure MarkKept (R : Design → Design → Prop) : Prop where
  refl : ∀ d, R d d
  trans : ∀ {a b c}, R a b → R b c → R a c
  ofVariable : ∀ d v m, R d (d.markVariable v m)
  ofProbe : ∀ (d : Design) q m, R d { d with circuit := d.circuit.need q m }

namespace MarkKept

variable {R : Design → Design → Prop}

theorem markProbes (h : MarkKept R) (d : Design) (edges : List Edge) (m : Markers) :
    R d (d.markProbes edges m).2 := by
  have kept : ∀ x : Bool × Design, R d x.2 → R d (edges.foldl (fun x e =>
      (x.1 || (x.2.circuit.probeNeeded e.probe).grows m,
        { x.2 with circuit := x.2.circuit.need e.probe m })) x).2 := by
    induction edges with
    | nil => exact fun _ known => known
    | cons e edges ih => exact fun x known => ih _ (h.trans known (h.ofProbe x.2 e.probe m))
  exact kept _ (h.refl d)

theorem markFuel (h : MarkKept R) (fuel : Nat) (d : Design) (s : Summary) (m : Markers) :
    R d (Design.markFuel fuel d s m).2 := by
  induction fuel generalizing d s with
  | zero => exact h.refl d
  | succ fuel ih =>
    have passed : ∀ (vs : List VariableId) (e : Design), R d e → R d (vs.foldl (fun d v =>
        if (d.variableOf v).needed.grows m then
          (Design.markFuel fuel (d.markVariable v m) (d.variableOf v).summary m).2
        else d) e) := by
      intro vs
      induction vs with
      | nil => exact fun _ known => known
      | cons v vs ihv =>
        intro e known
        rw [List.foldl_cons]
        apply ihv
        split
        · exact h.trans known (h.trans (h.ofVariable e v m) (ih _ _))
        · exact known
    exact h.trans (passed s.consumers.items d (h.refl d)) (h.markProbes _ s.deps.edges m)

theorem mark (h : MarkKept R) (d : Design) (s : Summary) (m : Markers) : R d (d.mark s m).2 :=
  h.markFuel _ d s m

theorem contribution (h : MarkKept R) (s : Contribution) (d : Design) : R d (s.mark d).2 := by
  unfold Contribution.mark
  split
  · exact h.mark d _ _
  · exact h.refl d

theorem condition (h : MarkKept R) (c : Condition) (m : Markers) (d : Design) :
    R d (c.mark m d) := by
  unfold Condition.mark
  split
  · split
    · exact h.refl d
    · exact h.mark d _ m
  · exact h.refl d

mutual

theorem statement (h : MarkKept R) (s : Statement) (d : Design) : R d (s.mark d).2 := by
  cases s with
  | declare s | assign s => exact h.refl d
  | contribute s => exact h.contribution s d
  | conditional c thnScope thn elsScope els =>
    have first := h.statements thnScope thn d
    have second := h.statements elsScope els (Statement.markAll thnScope thn d).2
    exact h.trans first (h.trans second (h.condition c _ _))
  | block inner body => exact h.statements inner body d

theorem statements (h : MarkKept R) (scope : ScopeId) (ss : List Statement) (d : Design) :
    R d (Statement.markAll scope ss d).2 := by
  cases ss with
  | nil => exact h.refl d
  | cons s ss =>
    rw [Statement.markAll]
    split
    · exact h.statements scope ss d
    · exact h.trans (h.statement s d) (h.statements scope ss (s.mark d).2)

end

end MarkKept

theorem Design.markKept_widens : MarkKept fun d d' => d.WellFormed → d.Widens d' where
  refl _ := widens_refl
  trans ab bc wf := (ab wf).trans (bc (ab wf).wellFormed)
  ofVariable _ v m wf := widens_markVariable wf v m
  ofProbe _ q m wf := widens_need wf q m

namespace Statement

theorem Fits.spared (w : d.Spares d') (inside : outer < d.scopes.size) {s : Statement}
    (h : s.Fits d outer) : s.Fits d' outer := by
  have chain : d'.chain outer = d.chain outer := by
    rw [Design.chain, Design.chain, w.enclosing outer inside]
  cases s with
  | declare s => exact Nat.lt_of_lt_of_le h w.vars
  | assign s => exact fun v known => Nat.lt_of_lt_of_le (h v known) w.vars
  | contribute s => trivial
  | conditional c thnScope thn elsScope els =>
    rw [Fits, chain, w.enclosing _ (scope_lt h.1), w.enclosing _ (scope_lt h.2)]
    exact h
  | block inner body =>
    rw [Fits, chain, w.enclosing _ (scope_lt h)]
    exact h

theorem everyAll_spared (w : d.Spares d') (inside : outer < d.scopes.size) (ss : List Statement)
    (h : EveryAll (Sound d) outer ss) : EveryAll (Sound d') outer ss := by
  have weaken : ∀ outer s, outer < d.scopes.size → Sound d outer s → Sound d' outer s :=
    fun _ _ at_outer known => ⟨known.1.spared w at_outer, known.2⟩
  exact EveryAll.mono weaken (fun _ _ known _ mem => scope_lt (known.1.enclosing mem)) inside ss h

theorem blind_ownHeld : Blind ownHeld := by
  intro arm new s
  cases s <;> cases arm <;> rfl

theorem shallow_sound (d : Design) : Shallow (Sound d) := by
  intro outer arm new s h
  cases s <;> cases arm <;> exact h

end Statement

end Analog
