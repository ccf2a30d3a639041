import Analog.Proofs.Tree.Mentions
import Analog.Proofs.Tree.Offsets

/-!
What a summary records. A tree reads the probes of its quantities, the potentials of its filters,
and its variables with all that these were read from. The summary of each of its parts records
these, each probe once, and nothing else.
-/
namespace Analog

theorem Function.least_of_given : ∀ f ∈ all, f.role = .given → f.least = 1 := by
  simp [all, ofUnary, ofBinary]

namespace Tree

def Reads (c : Circuit) (x : Mention) : Tree → Prop
  | .access q => x = .probe (c.probe q.ref.branch q.probe.access)
  | .call _ _ (some b) _ => x = .probe (c.probe b .potential)
  | .variable v s => x = .variable v.id ∨ s.Mentions x
  | _ => False

/-- A part whose probes are those of its branches. One that asks for a parameter has nothing else in
it. -/
def Tied (d : Design) : Tree → Prop
  | .access q => d.circuit.probe q.ref.branch q.probe.access = q.probe
  | .binary _ l _ _ => l.IsValue
  | .call _ _ (some b) _ => d.circuit.probe b .potential = ⟨b, .potential⟩
  | .call function args none _ => ∀ f, Function.find? function = some f → f.role = .given →
    ∃ x p, args = [x] ∧ Resolve.asked [x] = some p
  | _ => True

section Parts

variable {c : Circuit} {d : Design} {read : VariableId → Summary} {nodes : Nat} {x : Mention}

theorem parts_of_asked {t : Tree} {p : Symbol} (asks : Resolve.asked [t] = some p) :
    t.parts = [t] ∧ ¬t.Reads c x := by
  cases t with
  | parameter | literal => exact ⟨rfl, id⟩
  | _ => cases asks

theorem exists_parts_leaf {t : Tree} (leaf : t.parts = [t]) :
    (∃ u ∈ t.parts, u.Reads c x) ↔ t.Reads c x := by
  simp [leaf]

mutual

theorem mentions_iff_reads (own : ∀ v, (read v).Mentions (.variable v)) (t : Tree)
    (built : t.Built read nodes)
    (tied : t.All (Tied d)) : t.summary.Mentions x ↔ ∃ u ∈ t.parts, u.Reads d.circuit x := by
  cases t with
  | literal | parameter | node | port | marker | deferred =>
    rw [exists_parts_leaf rfl]
    exact iff_of_false (Summary.mentions_fixed _) id
  | declaration => exact built.elim
  | «variable» v s =>
    rw [exists_parts_leaf rfl]
    obtain rfl : s = read v.id := built
    refine ⟨.inr, ?_⟩
    rintro (rfl | known)
    · exact own v.id
    · exact known
  | access q =>
    have probe : d.circuit.probe q.ref.branch q.probe.access = q.probe := tied.self
    rw [exists_parts_leaf rfl, Reads, probe]
    exact Summary.mentions_ofProbe
  | unary op y s =>
    obtain ⟨inner, rfl⟩ := built
    refine (Summary.mentions_ofUnary op).trans
      ((mentions_iff_reads own y inner (all_unary.mp tied).1).trans ?_)
    simp [parts, Reads, or_and_right, exists_or]
  | binary op l r s =>
    obtain ⟨left, right, rfl⟩ := built
    obtain ⟨leftTied, rightTied, -⟩ := all_binary.mp tied
    refine (Summary.mentions_ofBinary op).trans ?_
    rw [mentions_iff_reads own l left leftTied, mentions_iff_reads own r right rightTied]
    simp [parts, Reads, or_and_right, exists_or]
  | ternary c t e s =>
    obtain ⟨cond, thn, els, rfl⟩ := built
    obtain ⟨condTied, thnTied, elsTied, -⟩ := all_ternary.mp tied
    refine Summary.mentions_select.trans ?_
    rw [mentions_iff_reads own c cond condTied, mentions_iff_reads own t thn thnTied,
      mentions_iff_reads own e els elsTied]
    simp [parts, Reads, or_and_right, exists_or]
  | call function args filter s =>
    obtain ⟨inner, -, here⟩ := all_call.mp tied
    cases filter with
    | none =>
      obtain ⟨all, f, found, rfl, -⟩ := built
      have items := mentions_iff_readsAll own args all inner
      rw [summary, Summary.mentions_function, items]
      simp only [parts, List.mem_append, List.mem_cons, List.not_mem_nil, or_false,
        or_and_right, exists_or, exists_eq_left, Reads, or_self]
      refine ⟨And.right, fun known => ⟨fun given => ?_, known⟩⟩
      -- What is asked for a parameter reads nothing.
      obtain ⟨y, p, rfl, asks⟩ := here f found given
      obtain ⟨u, mem, reads⟩ := known
      obtain ⟨leaf, quiet⟩ := parts_of_asked (c := d.circuit) (x := x) asks
      rw [allParts, allParts, leaf, List.append_nil, List.mem_singleton] at mem
      exact quiet (mem ▸ reads)
    | some b =>
      obtain ⟨all, rfl⟩ := built
      have probe : d.circuit.probe b .potential = ⟨b, .potential⟩ := here
      have items := mentions_iff_readsAll own args all inner
      rw [summary, Summary.mentions_ofFilter, items]
      simp only [parts, List.mem_append, List.mem_cons, List.not_mem_nil, or_false,
        or_and_right, exists_or, exists_eq_left, Reads, false_or, probe]
      exact or_comm
  | arguments items =>
    refine Summary.mentions_combine.trans
      ((mentions_iff_readsAll own items built (all_arguments.mp tied).1).trans ?_)
    simp [parts, Reads, or_and_right, exists_or]

theorem mentions_iff_readsAll (own : ∀ v, (read v).Mentions (.variable v)) (ts : List Tree)
    (built : BuiltAll read nodes ts) (tied : ∀ t ∈ ts, t.All (Tied d)) :
    (∃ s ∈ summaries ts, s.Mentions x) ↔ ∃ u ∈ allParts ts, u.Reads d.circuit x := by
  cases ts with
  | nil => simp [summaries, allParts]
  | cons t ts =>
    obtain ⟨head, tail⟩ := List.forall_mem_cons.mp tied
    simp only [summaries, allParts, List.mem_cons, List.mem_append, or_and_right, exists_or,
      exists_eq_left,
      mentions_iff_reads own t built.1 head, mentions_iff_readsAll own ts built.2 tail]

end

mutual

theorem All.parts {p : Tree → Prop} (t : Tree) (h : t.All p) : t.All (All p) := by
  cases t with
  | literal | parameter | node | port | marker | deferred | «variable» | access =>
    exact (all_leaf rfl).mpr h
  | declaration v init =>
    have inner : init.All p := fun u mem => h u (List.mem_append_left _ mem)
    intro u mem
    rcases List.mem_append.mp mem with early | last
    · exact All.parts init inner u early
    · exact List.mem_singleton.mp last ▸ h
  | unary => exact all_unary.mpr ⟨All.parts _ (all_unary.mp h).1, h⟩
  | binary =>
    obtain ⟨left, right, -⟩ := all_binary.mp h
    exact all_binary.mpr ⟨All.parts _ left, All.parts _ right, h⟩
  | ternary =>
    obtain ⟨cond, thn, els, -⟩ := all_ternary.mp h
    exact all_ternary.mpr ⟨All.parts _ cond, All.parts _ thn, All.parts _ els, h⟩
  | call f args filter s =>
    obtain ⟨inner, list, -⟩ := all_call.mp h
    exact all_call.mpr ⟨All.partsAll args inner, all_arguments.mpr ⟨inner, list⟩, h⟩
  | arguments items => exact all_arguments.mpr ⟨All.partsAll items (all_arguments.mp h).1, h⟩

theorem All.partsAll {p : Tree → Prop} (ts : List Tree) (h : ∀ t ∈ ts, t.All p) :
    ∀ t ∈ ts, t.All (All p) := by
  cases ts with
  | nil => nofun
  | cons t ts =>
    obtain ⟨head, tail⟩ := List.forall_mem_cons.mp h
    exact List.forall_mem_cons.mpr ⟨All.parts t head, All.partsAll ts tail⟩

end

mutual

theorem all_built (t : Tree) (h : t.Built read nodes) : t.All (Built read nodes) := by
  cases t with
  | literal | parameter | node | port | marker | deferred | «variable» | access =>
    exact (all_leaf rfl).mpr h
  | declaration => exact h.elim
  | unary => exact all_unary.mpr ⟨all_built _ h.1, h⟩
  | binary => exact all_binary.mpr ⟨all_built _ h.1, all_built _ h.2.1, h⟩
  | ternary => exact all_ternary.mpr ⟨all_built _ h.1, all_built _ h.2.1, all_built _ h.2.2.1, h⟩
  | call f args filter s =>
    have inner : BuiltAll read nodes args := by
      cases filter with
      | none => exact h.1
      | some b => exact h.1
    exact all_call.mpr ⟨all_builtAll args inner, inner, h⟩
  | arguments items => exact all_arguments.mpr ⟨all_builtAll items h, h⟩

theorem all_builtAll (ts : List Tree) (h : BuiltAll read nodes ts) :
    ∀ t ∈ ts, t.All (Built read nodes) := by
  cases ts with
  | nil => nofun
  | cons t ts => exact List.forall_mem_cons.mpr ⟨all_built t h.1, all_builtAll ts h.2⟩

end

/-- A tree whose summary has an edge for each probe that it reads, one only, and a consumer for each
variable. -/
structure Recorded (c : Circuit) (t : Tree) : Prop where
  probes : ∀ q, q ∈ t.summary.deps.probes ↔ ∃ u ∈ t.parts, u.Reads c (.probe q)
  consumers : ∀ v, v ∈ t.summary.consumers.items ↔ ∃ u ∈ t.parts, u.Reads c (.variable v)
  once : t.summary.deps.probes.Nodup

theorem recorded_of_built (own : ∀ v, (read v).Mentions (.variable v))
    (tidy : ∀ v, (read v).deps.probes.Nodup)
    {t : Tree} (built : t.Built read nodes) (tied : t.All (Tied d)) : t.Recorded d.circuit where
  probes q := Summary.dependsOn_iff.symm.trans (mentions_iff_reads (x := .probe q) own t built tied)
  consumers v := mentions_iff_reads (x := .variable v) own t built tied
  once := refresh_of_built t built ▸ nodup_refresh tidy t

end Parts

end Tree

namespace Resolve

variable {r : Resolver} {scope : ScopeId} {d₁ z : Design}

theorem tied_identifier (name : String) : (identifier z scope name).All (Tree.Tied z) := by
  unfold identifier
  split
  · split <;> exact (Tree.all_leaf rfl).mpr trivial
  · exact (Tree.all_leaf rfl).mpr trivial
  · exact (Tree.all_leaf rfl).mpr trivial
  · exact (Tree.all_leaf rfl).mpr trivial
  · split
    · rename_i f found
      split
      · rename_i least
        refine Tree.all_call.mpr ⟨List.forall_mem_nil _, trivial, fun g same given => ?_⟩
        -- A function that asks for a parameter has an argument.
        cases found.symm.trans same
        rw [Function.least_of_given f (Function.mem_all_of_find? found) given] at least
        cases least
      · exact (Tree.all_leaf rfl).mpr trivial
    · exact (Tree.all_leaf rfl).mpr trivial

theorem tied_called {site : CallSite} {name : String} {args : List Tree} {t : Tree}
    (h : Called r site name args d₁ t) (all : ∀ u ∈ args, u.All (Tree.Tied z)) (wf : d₁.WellFormed)
    (later : d₁.Extends z) : t.All (Tree.Tied z) := by
  have stays : ∀ {b a}, b < d₁.circuit.branches.size →
      z.circuit.probe b a = d₁.circuit.probe b a := by
    intro b a inside
    rw [Circuit.probe, Circuit.probe, Circuit.base_remains later.circuit.toRemains inside]
  cases h with
  | value v => exact (Tree.all_leaf rfl).mpr trivial
  | access _ inside => exact (Tree.all_leaf rfl).mpr (stays inside)
  | given _ _ single asks =>
    exact Tree.all_call.mpr ⟨all, trivial, fun _ _ _ => ⟨_, _, single, asks⟩⟩
  | filter _ _ _ known =>
    have mem := mem_of_lookup known
    have probe : z.circuit.probe _ .potential = _ := (stays (wf.filters _ mem).1).trans
      (probe_filter wf mem .potential)
    exact Tree.all_call.mpr ⟨all, trivial, probe⟩
  | function found role =>
    refine Tree.all_call.mpr ⟨all, trivial, fun g same given => ?_⟩
    cases found.symm.trans same
    exact absurd given role

theorem lasting_tied : Lasting r scope z (Tree.Tied z) where
  value _ := trivial
  marker := trivial
  arguments _ := trivial
  named _ := tied_identifier _
  called := tied_called
  unary _ _ _ := trivial
  binary _ _ _ left _ := left
  ternary _ _ _ _ _ _ _ := trivial
  operand _ _ _ _ h := h

end Resolve

namespace Source

/-- Summaries record what is read: in every part of a resolved tree the probes are those of its
quantities, of its filters and of the variables at the time they were read, one edge for each, and
the consumers are its variables and what these were read from. -/
theorem summaries_record_reads {r : Resolver} {s : Source} {scope : ScopeId} {t : Tree}
    {d d₁ : Design} (wf : d.WellFormed) (run : s.resolve r scope d = .ok t d₁) :
    ∀ u ∈ t.parts, u.Recorded d₁.circuit := by
  obtain ⟨-, -, -, tied⟩ := Resolve.Partwise.resolve wf run (fun _ _ => trivial)
    fun _ _ => Resolve.lasting_tied.partwise
  have built := (resolved_tree wf run).2.2
  have own : ∀ v, (d.snapshot v).Mentions (.variable v) := fun v =>
    Summary.mentions_addConsumer.mpr (.inr rfl)
  intro u mem
  exact Tree.recorded_of_built own wf.summaries (Tree.all_built t built u mem)
    (Tree.All.parts t tied u mem)

/-- Each of the two variables, the alias and the filter is recorded. -/
theorem summaries_record_reads_sampled : sampled.WellFormed ∧
    ∃ t d₁, sampledReading.resolve ⟨.default, 0⟩ 0 sampled = .ok t d₁ ∧
      t.summary.deps.probes = [⟨0, .potential⟩, ⟨2, .potential⟩] ∧
      t.summary.consumers.items = [0, 1] ∧
      ∀ u ∈ t.parts, u.Recorded d₁.circuit := by
  have made : ∃ t d₁, sampledReading.resolve ⟨.default, 0⟩ 0 sampled = .ok t d₁ ∧
      t.summary.deps.probes = [⟨0, .potential⟩, ⟨2, .potential⟩] ∧
        t.summary.consumers.items = [0, 1] :=
    ⟨_, _, rfl, rfl, rfl⟩
  obtain ⟨t, d₁, run, probes, consumers⟩ := made
  exact ⟨wellFormed_sampled, t, d₁, run, probes, consumers,
    summaries_record_reads wellFormed_sampled run⟩

end Source
end Analog
