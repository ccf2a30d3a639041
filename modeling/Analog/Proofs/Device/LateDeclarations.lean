import Analog.Proofs.Dataflow.SummaryOrigins

/-!
Declarations, seen from what was resolved before. A name that is declared late changes nothing for
an expression in another scope: either the name is no part of what it was resolved by, or a nearer
scope has bound it. Names of functions are the exception, so they must not be declared.
-/
namespace Analog

namespace Design

/-- No name that is bound is that of a function. -/
def Plain (d : Design) : Prop := ∀ s, ∀ x ∈ (d.scopeOf s).bindings, Function.find? x.1 = none

def Titled (d : Design) : Prop :=
  ∀ name b, d.circuit.lookup? name = some b → (d.scopeOf rootScope).bindings.lookup name ≠ none

/-- A scope from which all look-ups end in the outermost one. -/
structure Rooted (d : Design) (scope : ScopeId) : Prop where
  inside : scope < d.scopes.size
  last : ∃ xs, d.chain scope = xs ++ [rootScope] ∧ rootScope ∉ xs

/-- From `d` to `d'` names were declared, in the outermost scope or in scopes for which `into`
holds. -/
structure Declares (into : ScopeId → Prop) (d d' : Design) : Prop extends d.Spares d' where
  circuit : d.circuit.Remains d'.circuit
  remains : d.Titled → d'.Plain → ∀ scope, d.Rooted scope → (∀ x ∈ d.chain scope, ¬ into x) →
    d.Remains scope d'
  titled : d.Titled → d'.Titled
  bindings : ∀ s, ∀ x ∈ (d.scopeOf s).bindings, x ∈ (d'.scopeOf s).bindings
  env : ∀ v, d'.env v = d.env v
  needed : ∀ v, (d'.variableOf v).needed = (d.variableOf v).needed
  reach : ∀ s, d'.reachOf s = d.reachOf s

variable {into : ScopeId → Prop} {d e : Design}

theorem Rooted.spared {scope : ScopeId} (h : d.Rooted scope) (w : d.Spares e) :
    e.Rooted scope ∧ e.chain scope = d.chain scope := by
  have same := chain_widens w h.inside
  refine ⟨⟨Nat.lt_of_lt_of_le h.inside w.scopes, ?_⟩, same⟩
  rw [same]
  exact h.last

theorem plain_iff : d.Plain ↔ ∀ s < d.scopes.size, ∀ x ∈ (d.scopeOf s).bindings,
    Function.find? x.1 = none := by
  refine ⟨fun plain s _ => plain s, fun plain s => ?_⟩
  rcases Nat.lt_or_ge s d.scopes.size with inside | outside
  · exact plain s inside
  · rw [scopeOf, getD_of_size_le d.scopes default outside]
    exact fun x mem => absurd mem List.not_mem_nil

instance (d : Design) : Decidable d.Plain := decidable_of_iff' _ plain_iff

theorem Plain.before (plain : e.Plain)
    (bindings : ∀ s, ∀ x ∈ (d.scopeOf s).bindings, x ∈ (e.scopeOf s).bindings) : d.Plain :=
  fun s x mem => plain s x (bindings s x mem)

namespace Declares

theorem trans {a b c : Design} (ab : Declares into a b) (bc : Declares into b c) :
    Declares into a c where
  toSpares := ab.toSpares.trans bc.toSpares
  circuit := ab.circuit.trans bc.circuit
  remains titled plain scope rooted away := by
    obtain ⟨rooted', chain⟩ := rooted.spared ab.toSpares
    have first := ab.remains titled (plain.before bc.bindings) scope rooted away
    exact first.trans (bc.remains (ab.titled titled) plain scope rooted'
      (by rw [chain]; exact away))
  titled h := bc.titled (ab.titled h)
  bindings s x mem := bc.bindings s x (ab.bindings s x mem)
  env v := (bc.env v).trans (ab.env v)
  needed v := (bc.needed v).trans (ab.needed v)
  reach s := (bc.reach s).trans (ab.reach s)

theorem ofKept (h : d.Kept e) : Declares into d e where
  toSpares := h.grown.spares
  circuit := h.grown.circuit.toRemains
  remains _ _ scope _ _ := h.grown.remains scope
  titled titled name b found := by
    rw [h.grown.bindings]
    rw [Circuit.lookup?_extends h.grown.circuit] at found
    exact titled name b found
  bindings s x mem := by rw [h.grown.bindings]; exact mem
  env v := by rw [h.env]
  needed v := by rw [variableOf, variableOf, h.vars]
  reach s := h.reachOf s

theorem refl (wf : d.WellFormed) : Declares into d d := ofKept (.refl wf)

end Declares

theorem Remains.ofLookup {scope : ScopeId} (circuit : e.circuit = d.circuit)
    (filters : e.filters = d.filters) (parameters : d.parameters.size ≤ e.parameters.size)
    (given : ∀ p < d.parameters.size, e.parameterOf p = d.parameterOf p)
    (vars : d.vars.size ≤ e.vars.size)
    (look : ∀ name, e.lookup? scope name = d.lookup? scope name) : d.Remains scope e where
  circuit := by
    rw [circuit]
    exact (Circuit.Extends.refl d.circuit).toRemains
  aliases name b found := by
    rw [circuit]
    exact found
  filters site b found := by
    rw [filters]
    exact found
  parameters := parameters
  given := given
  vars := vars
  bound name x found := (look name).trans found
  unbound name free _ := (look name).trans free

theorem declares_addNode (wf : d.WellFormed) (name : String) :
    Declares into d { d with circuit := (d.circuit.addNode name).2.2 } := by
  have widens := (widens_addNode wf name).1
  refine .ofKept ⟨?_, widens.wellFormed, rfl, rfl⟩
  unfold Circuit.addNode
  split
  · exact .refl d
  · have more : d.circuit.nodes.size ≤ (d.circuit.nodes.push ⟨name, none⟩).size := by simp
    exact extends_circuit (Circuit.extends_withNodes d.circuit more d.circuit.filters)
      (Circuit.keepsNames_addNode _ _ _)

theorem declares_connect (wf : d.WellFormed) {p n : NodeId} {ref : BranchRef} {c : Circuit}
    (run : d.circuit.connect p n = .ok (ref, c)) : Declares into d { d with circuit := c } :=
  .ofKept ⟨extends_circuit (Circuit.connect_extends run) (Circuit.keepsNames_connect run),
    (widens_connect wf run).wellFormed, rfl, rfl⟩

theorem declares_addSource (wf : d.WellFormed) (raw : Raw) : Declares into d (d.addSource raw).2 :=
  .ofKept ⟨⟨.refl _, .refl _, fun _ => rfl, fun _ => rfl, rfl, rfl, rfl, fun _ _ h => h⟩,
    (widens_addSource wf raw).wellFormed, rfl, rfl⟩

theorem declares_addVariable (wf : d.WellFormed) (name : String) (type : DataType) :
    Declares into d (d.addVariable (.ofType name type)).2 := by
  have widens := widens_addVariable wf name type
  have variableOf : ∀ v, (d.addVariable (.ofType name type)).2.variableOf v =
      if v = d.vars.size then .ofType name type else d.variableOf v :=
    fun v => getD_push d.vars default (Variable.ofType name type) v
  have beyond : d.variableOf d.vars.size = default := getD_of_size_le d.vars default (Nat.le_refl _)
  refine ⟨widens.toSpares, (Circuit.Extends.refl _).toRemains, fun _ _ scope _ _ => ?_, fun h => h,
    fun _ _ mem => mem, ?_, ?_, widens.reach⟩
  · exact .ofLookup rfl rfl (Nat.le_refl _) (fun _ _ => rfl) widens.vars fun _ => rfl
  · intro v
    rw [Design.env, Design.env, variableOf]
    split
    · rename_i new
      rw [new, beyond]
      rfl
    · rfl
  · intro v
    rw [variableOf]
    split
    · rename_i new
      rw [new, beyond]
      rfl
    · rfl

theorem declares_addParameter (wf : d.WellFormed) {p : Parameter} (told : p.Told) :
    Declares into d (d.addParameter p).2 := by
  have widens := widens_addParameter wf told
  refine ⟨widens.toSpares, (Circuit.Extends.refl _).toRemains, fun _ _ scope _ _ => ?_, fun h => h,
    fun _ _ mem => mem, fun _ => rfl, fun _ => rfl, widens.reach⟩
  refine .ofLookup rfl rfl (by simp [addParameter]) (fun q inside => ?_)
    (Nat.le_refl _) fun _ => rfl
  rw [parameterOf_addParameter, if_neg (Nat.ne_of_lt inside)]

theorem Declares.modifyParameter (h : Declares into d e) {p : ParameterId}
    (new : d.parameters.size ≤ p)
    (f : Parameter → Parameter) : Declares into d (e.modifyParameter p f) where
  toSpares := ⟨h.enclosing, h.scopes, h.vars⟩
  circuit := h.circuit
  remains titled plain scope rooted away := by
    have before := h.remains titled plain scope rooted away
    refine ⟨before.circuit, before.aliases, before.filters, ?_, fun q inside => ?_,
      before.vars, before.bound, before.unbound⟩
    · simpa [Design.modifyParameter] using before.parameters
    · rw [parameterOf_modifyParameter, if_neg fun same => Nat.not_le_of_lt inside
        (by rw [same.1]; exact new)]
      exact before.given q inside
  titled := h.titled
  bindings := h.bindings
  env := h.env
  needed := h.needed
  reach := h.reach

theorem declares_addScope (wf : d.WellFormed) (parent : ScopeId) :
    Declares into d (d.addScope parent).2 := by
  have widens := widens_addScope wf parent
  have bindings : ∀ s, ((d.addScope parent).2.scopeOf s).bindings = (d.scopeOf s).bindings := by
    intro s
    rw [scopeOf_addScope]
    split
    · rename_i new
      rw [new, scopeOf, getD_of_size_le d.scopes default (Nat.le_refl _)]
      rfl
    · rfl
  have look : ∀ scope, d.Rooted scope → ∀ name,
      (d.addScope parent).2.lookup? scope name = d.lookup? scope name := by
    intro scope rooted name
    simp only [lookup?, chain_widens widens.toSpares rooted.inside, bindings]
  refine ⟨widens.toSpares, (Circuit.Extends.refl _).toRemains, fun _ _ scope rooted _ => ?_,
    fun h name b found => ?_, fun s x mem => ?_, fun _ => rfl, fun _ => rfl, widens.reach⟩
  · exact .ofLookup rfl rfl (Nat.le_refl _) (fun _ _ => rfl) (Nat.le_refl _) (look scope rooted)
  · rw [bindings]
    exact h name b found
  · rw [bindings]
    exact mem

theorem findSome?_congr {xs : List ScopeId} {f g : ScopeId → Option Binding}
    (same : ∀ t ∈ xs, f t = g t) : xs.findSome? f = xs.findSome? g := by
  induction xs with
  | nil => rfl
  | cons t ts ih =>
    obtain ⟨first, rest⟩ := List.forall_mem_cons.mp same
    rw [List.findSome?_cons, List.findSome?_cons, first, ih rest]

section Define

variable {s scope : ScopeId} {name : String} {x : Binding}

theorem bindings_define? (made : d.define? s name x = some e) (t : ScopeId) :
    ∀ y ∈ (d.scopeOf t).bindings, y ∈ (e.scopeOf t).bindings := by
  intro y mem
  rw [scopeOf_define? made]
  split
  · rename_i same
    rw [same.1] at mem
    exact List.mem_append_left _ mem
  · exact mem

theorem lookup?_define?_of_not_mem (made : d.define? s name x = some e) (away : s ∉ d.chain scope)
    (n : String) : e.lookup? scope n = d.lookup? scope n := by
  have chain : e.chain scope = d.chain scope := by rw [chain, chain, enclosing_define? made]
  unfold lookup?
  rw [chain]
  refine findSome?_congr fun t mem => ?_
  have other : t ≠ s := fun same => away (same ▸ mem)
  rw [scopeOf_define? made, if_neg fun same => other same.1]

theorem lookup?_define?_root (made : d.define? rootScope name x = some e) (rooted : d.Rooted scope)
    (n : String) : e.lookup? scope n = d.lookup? scope n ∨ n = name ∧ d.lookup? scope n = none := by
  obtain ⟨xs, last, outside⟩ := rooted.last
  have chain : e.chain scope = d.chain scope := by rw [chain, chain, enclosing_define? made]
  have near : xs.findSome? (fun t => (e.scopeOf t).bindings.lookup n) =
      xs.findSome? (fun t => (d.scopeOf t).bindings.lookup n) := by
    refine findSome?_congr fun t mem => ?_
    have other : t ≠ rootScope := fun same => outside (same ▸ mem)
    rw [scopeOf_define? made, if_neg fun same => other same.1]
  simp only [lookup?, chain, last, List.findSome?_append, near, List.findSome?_singleton]
  cases found : xs.findSome? fun t => (d.scopeOf t).bindings.lookup n with
  | some y => exact .inl rfl
  | none =>
    by_cases same : n = name
    · rw [same, (define?_eq_some made).1]
      exact .inr ⟨rfl, rfl⟩
    · left
      rw [scopeOf_define? made]
      split
      · simp [List.lookup_append, List.lookup, beq_eq_false_iff_ne.mpr same]
      · rfl

theorem mem_define? (made : d.define? s name x = some e) (inside : s < d.scopes.size) :
    (name, x) ∈ (e.scopeOf s).bindings := by
  rw [scopeOf_define? made, if_pos ⟨rfl, inside⟩]
  exact List.mem_append_right _ (List.mem_singleton_self _)

theorem Remains.define {d₁ : Design} (h : d.Remains scope d₁) (scopes : d₁.scopes = d.scopes)
    (made : d₁.define? rootScope name x = some e) (free : Function.find? name = none)
    (unnamed : d.circuit.lookup? name = none) (rooted : d.Rooted scope) : d.Remains scope e := by
  have same : ∀ t, d₁.scopeOf t = d.scopeOf t := fun t => by rw [scopeOf, scopeOf, scopes]
  have rooted₁ : d₁.Rooted scope := by
    refine ⟨scopes ▸ rooted.inside, ?_⟩
    rw [chain, same]
    exact rooted.last
  have look := lookup?_define?_root made rooted₁
  have frame := frame_define? made
  have circuit : e.circuit = d₁.circuit := by rw [frame]
  have parameters : e.parameters = d₁.parameters := by rw [frame]
  refine ⟨?_, ?_, ?_, ?_, ?_, ?_, fun n y bound => ?_, fun n unbound means => ?_⟩
  · rw [circuit]
    exact h.circuit
  · rw [circuit]
    exact h.aliases
  · rw [frame]
    exact h.filters
  · rw [parameters]
    exact h.parameters
  · intro p inside
    rw [parameterOf, parameters]
    exact h.given p inside
  · rw [frame]
    exact h.vars
  · have before := h.bound n y bound
    rcases look n with same | ⟨_, none⟩
    · rw [same, before]
    · rw [before] at none
      cases none
  · have before := h.unbound n unbound means
    rcases look n with same | ⟨rfl, _⟩
    · rw [same, before]
    · rw [free, unnamed] at means
      rcases means with means | means <;> cases means

theorem Titled.unnamed (h : d.Titled)
    (unbound : (d.scopeOf rootScope).bindings.lookup name = none) :
    d.circuit.lookup? name = none := by
  cases found : d.circuit.lookup? name with
  | none => rfl
  | some b => exact absurd unbound (h name b found)

theorem lookup_define? (made : d.define? s name x = some e) {n : String}
    (bound : (d.scopeOf s).bindings.lookup n ≠ none) : (e.scopeOf s).bindings.lookup n ≠ none := by
  rw [scopeOf_define? made]
  split
  · rw [List.lookup_append]
    intro none
    exact bound (Option.or_eq_none_iff.mp none).1
  · exact bound

theorem declares_define? (inside : rootScope < d.scopes.size)
    (made : d.define? rootScope name x = some e) : Declares into d e where
  toSpares := spares_define? made
  circuit := by
    rw [frame_define? made]
    exact (Circuit.Extends.refl _).toRemains
  remains titled plain scope rooted _ :=
    ((Extends.refl d).remains scope).define rfl made (plain _ _ (mem_define? made inside))
      (titled.unnamed ((define?_eq_some made).1)) rooted
  titled titled n b found := by
    rw [frame_define? made] at found
    exact lookup_define? made (titled n b found)
  bindings := bindings_define? made
  env v := by rw [frame_define? made]; rfl
  needed v := by rw [frame_define? made]; rfl
  reach := reachOf_define? made

theorem declares_define?_inner (inner : s ≠ rootScope) (made : d.define? s name x = some e) :
    Declares (· = s) d e where
  toSpares := spares_define? made
  circuit := by
    rw [frame_define? made]
    exact (Circuit.Extends.refl _).toRemains
  remains _ _ scope _ away := by
    have look := lookup?_define?_of_not_mem made fun mem => away s mem rfl
    have frame := frame_define? made
    refine .ofLookup ?_ ?_ ?_ ?_ ?_ look
    all_goals rw [frame]
    all_goals exact fun _ _ => rfl
  titled titled n b found := by
    rw [frame_define? made] at found
    rw [scopeOf_define? made, if_neg fun same => inner same.1.symm]
    exact titled n b found
  bindings := bindings_define? made
  env v := by rw [frame_define? made]; rfl
  needed v := by rw [frame_define? made]; rfl
  reach := reachOf_define? made

end Define

section Alias

variable {ref : BranchRef} {name : String} {b : BranchId} {c : Circuit}

theorem addAlias?_cases (made : d.circuit.addAlias? ref name = some (b, c)) :
    d.circuit.lookup? name = none ∧ ∃ new : Branch, new.Unneeded ∧ new.isAlias = true ∧
      new.name = name ∧ c = (d.circuit.addBranch new).2 := by
  unfold Circuit.addAlias? at made
  split at made
  · cases made
  · rename_i free
    cases made
    exact ⟨free, _, ⟨rfl, rfl, rfl⟩, rfl, rfl, rfl⟩

theorem remains_addAlias? (made : d.circuit.addAlias? ref name = some (b, c)) :
    d.circuit.Remains c ∧ (∀ n a, d.circuit.lookup? n = some a → c.lookup? n = some a) ∧
      ∀ n a, c.lookup? n = some a → d.circuit.lookup? n = some a ∨ n = name := by
  obtain ⟨-, new, unneeded, second, named, rfl⟩ := addAlias?_cases made
  refine ⟨Circuit.remains_addBranch unneeded fun own => ?_, fun n a found => ?_,
    fun n a found => ?_⟩
  · rw [second] at own
    cases own
  · rw [Circuit.lookup?_eq] at found ⊢
    exact Circuit.firstBranch?_addBranch new found
  · by_cases same : n = name
    · exact .inr same
    · left
      rw [Circuit.lookup?_eq] at found ⊢
      cases before : d.circuit.firstBranch? (Circuit.isNamed n) with
      | some a' => rw [← found, Circuit.firstBranch?_addBranch new before]
      | none =>
        have other : Circuit.isNamed n new = false := by
          simp [Circuit.isNamed, named, Ne.symm same]
        rw [Circuit.firstBranch?_addBranch_none before other] at found
        cases found

theorem remains_withAlias (made : d.circuit.addAlias? ref name = some (b, c)) (scope : ScopeId) :
    d.Remains scope { d with circuit := c } := by
  obtain ⟨circuit, aliases, -⟩ := remains_addAlias? made
  exact ⟨circuit, aliases, fun _ _ h => h, Nat.le_refl _, fun _ _ => rfl, Nat.le_refl _,
    fun _ _ h => h, fun _ h _ => h⟩

theorem declares_alias (made : d.circuit.addAlias? ref name = some (b, c))
    (bound : (d.scopeOf rootScope).bindings.lookup name ≠ none) :
    Declares into d { d with circuit := c } where
  toSpares := ⟨fun _ _ => rfl, Nat.le_refl _, Nat.le_refl _⟩
  circuit := (remains_addAlias? made).1
  remains _ _ scope _ _ := remains_withAlias made scope
  titled titled n a found := by
    rcases (remains_addAlias? made).2.2 n a found with old | rfl
    · exact titled n a old
    · exact bound
  bindings _ _ mem := mem
  env _ := rfl
  needed _ := rfl
  reach _ := rfl

theorem declares_branch (inside : rootScope < d.scopes.size) {x : Binding}
    (made : d.circuit.addAlias? ref name = some (b, c))
    (defined : define? { d with circuit := c } rootScope name x = some e) : Declares into d e where
  toSpares := by
    have after := spares_define? defined
    exact ⟨after.enclosing, after.scopes, after.vars⟩
  circuit := by
    rw [frame_define? defined]
    exact (remains_addAlias? made).1
  remains titled plain scope rooted _ :=
    (remains_withAlias made scope).define rfl defined (plain _ _ (mem_define? defined inside))
      (addAlias?_cases made).1 rooted
  titled titled n a found := by
    rw [frame_define? defined] at found
    rcases (remains_addAlias? made).2.2 n a found with old | rfl
    · exact lookup_define? defined (titled n a old)
    · rw [scopeOf_define? defined, if_pos ⟨rfl, inside⟩]
      simp [List.lookup_append, List.lookup]
  bindings s y mem := bindings_define? defined s y mem
  env v := by rw [frame_define? defined]; rfl
  needed v := by rw [frame_define? defined]; rfl
  reach s := reachOf_define? defined s

end Alias

end Design
end Analog
