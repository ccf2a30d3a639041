import Analog.Proofs.Resolver.Steps

/-!
What names mean later on. A name that was resolved keeps its meaning as long as no scope on its way
binds it anew, so a design may grow by declarations without that older expressions notice. Names
without a meaning never get past a resolution that succeeds, and resolved trees point to what there
is.
-/
namespace Analog

/-- What expressions in a scope were resolved to remains: all branches, filters and parameters are
there, names that are bound stay so, and names that mean a function or an alias are bound no more
than before. -/
structure Design.Remains (scope : ScopeId) (d e : Design) : Prop where
  circuit : d.circuit.Remains e.circuit
  aliases : ∀ name b, d.circuit.lookup? name = some b → e.circuit.lookup? name = some b
  filters : ∀ site b, d.filters.lookup site = some b → e.filters.lookup site = some b
  parameters : d.parameters.size ≤ e.parameters.size
  given : ∀ p < d.parameters.size, e.parameterOf p = d.parameterOf p
  vars : d.vars.size ≤ e.vars.size
  bound : ∀ name x, d.lookup? scope name = some x → e.lookup? scope name = some x
  unbound : ∀ name, d.lookup? scope name = none →
    (Function.find? name).isSome ∨ (d.circuit.lookup? name).isSome → e.lookup? scope name = none

namespace Design

variable {scope : ScopeId} {a b c d e : Design}

theorem Extends.remains (h : d.Extends e) (scope : ScopeId) : d.Remains scope e where
  circuit := h.circuit.toRemains
  aliases name b found := by rw [Circuit.lookup?_extends h.circuit, found]
  filters := h.filters
  parameters := Nat.le_of_eq (by rw [h.parameters])
  given p _ := by rw [parameterOf, parameterOf, h.parameters]
  vars := Nat.le_of_eq h.vars.symm
  bound name x found := by rw [h.lookup?, found]
  unbound name free _ := by rw [h.lookup?, free]

theorem Remains.trans (ab : a.Remains scope b) (bc : b.Remains scope c) : a.Remains scope c where
  circuit := ab.circuit.trans bc.circuit
  aliases name x found := bc.aliases name x (ab.aliases name x found)
  filters site x found := bc.filters site x (ab.filters site x found)
  parameters := Nat.le_trans ab.parameters bc.parameters
  given p inside := (bc.given p (Nat.lt_of_lt_of_le inside ab.parameters)).trans (ab.given p inside)
  vars := Nat.le_trans ab.vars bc.vars
  bound name x found := bc.bound name x (ab.bound name x found)
  unbound name free means := by
    refine bc.unbound name (ab.unbound name free means) (means.imp_right fun known => ?_)
    obtain ⟨x, found⟩ := Option.isSome_iff_exists.mp known
    rw [ab.aliases name x found]
    rfl

end Design

namespace Tree

mutual

def Meant (c : Circuit) : Tree → Prop
  | .deferred name => (c.lookup? name).isSome
  | .arguments items => MeantAll c items
  | _ => True

def MeantAll (c : Circuit) : List Tree → Prop
  | [] => True
  | t :: ts => t.Meant c ∧ MeantAll c ts

end

variable {c : Circuit}

theorem meantAll_iff {ts : List Tree} : MeantAll c ts ↔ ∀ t ∈ ts, t.Meant c := by
  induction ts with
  | nil => simp [MeantAll]
  | cons t ts ih => simp [MeantAll, ih]

mutual

theorem meant_congr {c' : Circuit} (same : ∀ name, c'.lookup? name = c.lookup? name) (t : Tree) :
    t.Meant c' ↔ t.Meant c := by
  cases t with
  | deferred name => rw [Meant, Meant, same]
  | arguments items => exact meantAll_congr same items
  | _ => exact Iff.rfl

theorem meantAll_congr {c' : Circuit} (same : ∀ name, c'.lookup? name = c.lookup? name)
    (ts : List Tree) : MeantAll c' ts ↔ MeantAll c ts := by
  cases ts with
  | nil => exact Iff.rfl
  | cons t ts => exact and_congr (meant_congr same t) (meantAll_congr same ts)

end

theorem IsValue.meant {t : Tree} (h : t.IsValue) : t.Meant c := by
  have fine := h c
  cases t with
  | arguments | deferred => cases fine
  | _ => trivial

theorem meant_of_nodeId? {t : Tree} {i : NodeId} (h : t.nodeId? = some i) : t.Meant c := by
  rcases Resolve.node_of_nodeId? h with rfl | rfl
  · trivial
  · trivial

def Inside (d : Design) : Tree → Prop
  | .literal _ o => ∀ p, o = some p → p.id < d.parameters.size
  | .parameter p => p.id < d.parameters.size
  | .variable v _ => v.id < d.vars.size
  | .access q => q.probe.branch < d.circuit.branches.size
  | .binary _ l _ _ => l.IsValue
  | .call _ _ filter _ => ∀ b, filter = some b → b < d.circuit.branches.size
  | _ => True

theorem Inside.mono {d e : Design} {t : Tree} (h : t.Inside d)
    (parameters : d.parameters.size ≤ e.parameters.size) (vars : d.vars.size ≤ e.vars.size)
    (branches : d.circuit.branches.size ≤ e.circuit.branches.size) : t.Inside e := by
  cases t with
  | literal v o => exact fun p taken => Nat.lt_of_lt_of_le (h p taken) parameters
  | parameter p => exact Nat.lt_of_lt_of_le h parameters
  | «variable» v s => exact Nat.lt_of_lt_of_le h vars
  | access q => exact Nat.lt_of_lt_of_le h branches
  | call f args filter s => exact fun b made => Nat.lt_of_lt_of_le (h b made) branches
  | _ => exact h

end Tree

namespace Resolve

variable {r : Resolver} {scope : ScopeId} {key : Nat} {c : Circuit} {d d₁ e z : Design}

theorem identifier_again (wf : d.WellFormed) (later : d.Remains scope e) {name : String}
    (meant : (identifier d scope name).Meant d.circuit) :
    (identifier d scope name).refresh e.snapshot = identifier e scope name := by
  have function : ∀ f, Function.find? name = some f →
      (if f.least == 0 then Tree.call name [] none (f.summary []) else .deferred name).refresh
        e.snapshot =
        if f.least == 0 then Tree.call name [] none (f.summary []) else .deferred name := by
    intro f found
    split
    · simp only [Tree.refresh, Tree.refreshAll, Tree.summaries, found]
    · rfl
  cases bound : d.lookup? scope name with
  | none =>
    cases found : Function.find? name with
    | some f =>
      have free := later.unbound name bound (.inl (by rw [found]; rfl))
      simp only [identifier, bound, free, found]
      exact function f found
    | none =>
      simp only [identifier, bound, found, Tree.Meant] at meant
      have free := later.unbound name bound (.inr meant)
      simp only [identifier, bound, free, found]
      rfl
  | some x =>
    have stays := later.bound name x bound
    cases x with
    | parameter p =>
      have same := later.given p (wf.lookup? bound)
      simp only [identifier, bound, stays, same]
      cases (d.parameterOf p).value <;> rfl
    | branch b =>
      simp only [identifier, bound, stays]
      cases found : Function.find? name with
      | some f => exact function f found
      | none => rfl
    | _ =>
      simp only [identifier, bound, stays]
      rfl

section Backwards

theorem meant_of_call {site : CallSite} {name : String} {args : List Tree} {t : Tree}
    (run : call r scope site name args d = .ok t d₁) : ∀ u ∈ args, u.Meant d.circuit := by
  unfold call at run
  cases accessed : r.config.access? name with
  | some a =>
    simp only [accessed] at run
    obtain ⟨ref, d', named, _⟩ := bind_eq_ok.mp run
    cases (branch_ensures d name args).of_ok named with
    | named found =>
      refine List.forall_mem_singleton.mpr ?_
      rw [Tree.Meant, found]
      rfl
    | grounded node made => exact List.forall_mem_singleton.mpr (Tree.meant_of_nodeId? node)
    | between left right made =>
      exact List.forall_mem_cons.mpr ⟨Tree.meant_of_nodeId? left,
        List.forall_mem_singleton.mpr (Tree.meant_of_nodeId? right)⟩
  | none =>
    cases found : Function.find? name with
    | none =>
      simp only [accessed, found] at run
      obtain ⟨d', _, _, rest⟩ := bind_eq_ok.mp run
      cases bound : d'.lookup? scope name <;> simp only [bound] at rest <;> cases rest
    | some f =>
      simp only [accessed, found] at run
      have fits := (function_ensures r d site f args).of_ok run
      simp only [function, fits, Bool.false_eq_true, ↓reduceIte] at run
      cases role : f.role with
      | given =>
        simp only [role] at run
        obtain ⟨p, asks⟩ := asked_of_parameterGiven run
        simp only [Bool.or_eq_false_iff, decide_eq_false_iff_not, Nat.not_lt,
          Function.most_of_given f (Function.mem_all_of_find? found) role] at fits
        cases args with
        | nil => cases asks
        | cons x xs =>
          obtain rfl : xs = [] := List.eq_nil_of_length_eq_zero (by simpa using fits.2)
          refine List.forall_mem_singleton.mpr ?_
          cases x with
          | arguments | deferred => cases asks
          | _ => trivial
      | filter | environment | unary _ | binary _ =>
        simp only [role] at run
        obtain ⟨_, _, values, _⟩ := bind_eq_ok.mp run
        exact fun u mem => (values_of_requireValues values u mem).meant

theorem Stepped.meant {site : List Nat} {items items₁ : List Tree} {t : Token}
    (h : Stepped r scope key site items t d items₁ d₁) (later : d.circuit.Extends c)
    (meant : ∀ u ∈ items₁, u.Meant c) : ∀ u ∈ items, u.Meant c := by
  have known : ∀ u : Tree, u.Meant d.circuit → u.Meant c :=
    fun u => (Tree.meant_congr (Circuit.lookup?_extends later) u).mpr
  cases h with
  | literal | marker => exact (List.forall_mem_cons.mp meant).2
  | arguments popped =>
    obtain ⟨top, marker, whole⟩ := mem_of_popUntil? popped
    obtain ⟨args, below⟩ := List.forall_mem_cons.mp meant
    intro u mem
    rcases (whole u).mp mem with inner | rfl | rest
    · exact Tree.meantAll_iff.mp args u inner
    · cases u <;> trivial
    · exact below u rest
  | called made =>
    refine List.forall_mem_cons.mpr
      ⟨Tree.meantAll_iff.mpr fun u mem => known u (meant_of_call made u mem),
      (List.forall_mem_cons.mp meant).2⟩
  | named => exact (List.forall_mem_cons.mp meant).2
  | unary made =>
    obtain ⟨fine, _⟩ := (unary_ensures r d _ _).of_ok made
    exact List.forall_mem_cons.mpr ⟨(Tree.isValue_of_fault fine).meant,
      (List.forall_mem_cons.mp meant).2⟩
  | binary made =>
    obtain ⟨leftFine, rightFine, _⟩ := (binary_ensures r d _ _ _).of_ok made
    exact List.forall_mem_cons.mpr ⟨(Tree.isValue_of_fault rightFine).meant,
      List.forall_mem_cons.mpr
      ⟨(Tree.isValue_of_fault leftFine).meant, (List.forall_mem_cons.mp meant).2⟩⟩
  | ternary made =>
    obtain ⟨fine, _⟩ := choice_of_ok made
    exact List.forall_mem_cons.mpr ⟨(Tree.isValue_of_fault fine).meant,
      (List.forall_mem_cons.mp meant).2⟩

theorem meant_of_steps {site : List Nat} {k : Nat} {stack stack₁ : Stack Tree} {ts : List Token}
    (ready : Ready d stack.items) (run : steps r scope key site k stack ts d = .ok stack₁ d₁)
    (later : d₁.circuit.Extends c) (meant : ∀ u ∈ stack₁.items, u.Meant c) :
    ∀ u ∈ stack.items, u.Meant c := by
  induction ts generalizing k stack d with
  | nil =>
    rw [steps] at run
    cases run
    exact meant
  | cons t ts ih =>
    rw [steps] at run
    obtain ⟨stack', d', first, rest⟩ := bind_eq_ok.mp run
    obtain ⟨grown, _, ready'⟩ := ready.step first
    obtain ⟨grown', _, _⟩ := ready'.steps rest
    obtain ⟨items⟩ := stack
    obtain ⟨items'⟩ := stack'
    exact (stepped_of_step first).meant ((grown.trans grown').circuit.trans later) (ih ready' rest)

end Backwards

section Forwards

theorem inside_identifier (wf : z.WellFormed) (name : String) :
    (identifier z scope name).All (Tree.Inside z) := by
  unfold identifier
  split
  · rename_i p bound
    have inside := wf.lookup? bound
    split
    · refine Tree.all_literal.mpr ?_
      rintro _ ⟨⟩
      exact inside
    · exact (Tree.all_leaf rfl).mpr inside
  · rename_i v bound
    exact (Tree.all_leaf rfl).mpr (wf.lookup? bound)
  · exact (Tree.all_leaf rfl).mpr trivial
  · exact (Tree.all_leaf rfl).mpr trivial
  · split
    · split
      · refine Tree.all_call.mpr ⟨by simp, trivial, ?_⟩
        rintro _ ⟨⟩
      · exact (Tree.all_leaf rfl).mpr trivial
    · exact (Tree.all_leaf rfl).mpr trivial

theorem inside_called {site : CallSite} {name : String} {args : List Tree} {t : Tree}
    (h : Called r site name args d₁ t) (all : ∀ u ∈ args, u.All (Tree.Inside z))
    (wf : d₁.WellFormed) (later : d₁.Extends z) : t.All (Tree.Inside z) := by
  cases h with
  | value v => exact Tree.all_literal.mpr nofun
  | access _ inside =>
    exact (Tree.all_leaf rfl).mpr (Nat.lt_of_lt_of_le (wf.circuit.base_lt inside)
      later.circuit.branches)
  | given => exact Tree.all_call.mpr ⟨all, trivial, nofun⟩
  | filter _ _ _ known =>
    refine Tree.all_call.mpr ⟨all, trivial, ?_⟩
    rintro _ ⟨⟩
    exact Nat.lt_of_lt_of_le (wf.filters _ (mem_of_lookup known)).1 later.circuit.branches
  | function => exact Tree.all_call.mpr ⟨all, trivial, nofun⟩

theorem lasting_inside (wf : z.WellFormed) : Lasting r scope z (Tree.Inside z) where
  value _ := nofun
  marker := trivial
  arguments _ := trivial
  named _ := inside_identifier wf _
  called := inside_called
  unary _ _ _ := trivial
  binary _ _ _ left _ := left
  ternary _ _ _ _ _ _ _ := trivial
  operand _ _ _ _ h := h

theorem partwise_inside (wf : z.WellFormed) : Partwise r scope (fun _ => True) z (Tree.Inside z) :=
  (lasting_inside wf).partwise

theorem inside_mono (later : d.Extends e) {t : Tree} (h : t.All (Tree.Inside d)) :
    t.All (Tree.Inside e) :=
  fun u mem => (h u mem).mono (Nat.le_of_eq (by rw [later.parameters]))
    (Nat.le_of_eq later.vars.symm)
    later.circuit.branches

end Forwards

end Resolve
end Analog
