import Analog.Proofs.Circuit.CounterFootprint
import Analog.Proofs.Design.Outcomes
import Analog.Proofs.Tree.BuiltSummaries

/-!
The books of the resolver. Whatever tokens it works off, the counters of the circuit stand above
where they stood by exactly the uses of the trees on its stack, and a problem leaves no use behind.
-/
namespace Analog

theorem Tree.allUses_append (ts us : List Tree) :
    Tree.allUses (ts ++ us) = Tree.allUses ts ++ Tree.allUses us := by
  induction ts with
  | nil => rfl
  | cons t ts ih => simp only [List.cons_append, allUses, ih, List.append_assoc]

theorem Tree.allUses_perm {ts us : List Tree} (perm : ts.Perm us) :
    (Tree.allUses ts).Perm (Tree.allUses us) := by
  induction perm with
  | nil => exact .nil
  | cons t _ ih => exact ih.append_left t.uses
  | swap t u ts =>
    simp only [allUses, ← List.append_assoc]
    exact List.perm_append_comm.append_right _
  | trans _ _ ih₁ ih₂ => exact ih₁.trans ih₂

/-- A design that grew out of `origin`, with counters above `start` by the uses that are held. Only
its circuit and its filters may have grown. -/
structure Tally (origin : Design) (start : BranchId → Usage → Nat) (held : List (BranchId × Usage))
    (d : Design) : Prop where
  begun : origin.WellFormed
  grown : origin.Extends d
  frame : { d with circuit := origin.circuit, filters := origin.filters } = origin
  wellFormed : d.WellFormed
  holds : d.circuit.Holds start held

namespace Tally

variable {origin : Design} {start : BranchId → Usage → Nat} {held : List (BranchId × Usage)}
  {d : Design}

theorem perm {held' : List (BranchId × Usage)} (h : Tally origin start held d)
    (perm : held.Perm held') : Tally origin start held' d :=
  ⟨h.begun, h.grown, h.frame, h.wellFormed, h.holds.perm perm⟩

theorem initial (wf : d.WellFormed) : Tally d d.circuit.count [] d :=
  ⟨wf, .refl d, rfl, wf, by simp, fun _ _ => rfl⟩

theorem snapshot (h : Tally origin start held d) : d.snapshot = origin.snapshot := by
  rw [← h.frame]
  rfl

theorem scopes (h : Tally origin start held d) : d.scopes = origin.scopes := by
  rw [← h.frame]

theorem withCircuit {held' : List (BranchId × Usage)} {c : Circuit} (h : Tally origin start held d)
    (ext : d.circuit.Extends c) (names : d.circuit.KeepsNames c) (wf : c.WellFormed)
    (holds : c.Holds start held') : Tally origin start held' { d with circuit := c } :=
  ⟨h.begun, h.grown.trans (Design.extends_circuit ext names), h.frame,
    h.wellFormed.withCircuit ext wf, holds⟩

theorem recounted {held' : List (BranchId × Usage)} {c : Circuit} (h : Tally origin start held d)
    (same : c.uncounted = d.circuit.uncounted) (holds : c.Holds start held') :
    Tally origin start held' { d with circuit := c } :=
  h.withCircuit (Circuit.extends_of_uncounted same) (Circuit.keepsNames_of_uncounted same)
    (h.wellFormed.circuit.of_uncounted same) holds

theorem take (h : Tally origin start held d) {b : BranchId} (inside : b < d.circuit.branches.size)
    (u : Usage) : Tally origin start ((b, u) :: held) { d with circuit := d.circuit.take b u } :=
  h.recounted (Circuit.uncounted_take _ _ _) (h.holds.take h.wellFormed.circuit inside u)

theorem release {us : List (BranchId × Usage)} (h : Tally origin start (us ++ held) d) :
    ∃ c, Circuit.giveAll us d.circuit = .ok () c ∧ c.uncounted = d.circuit.uncounted ∧
      Tally origin start held { d with circuit := c } := by
  obtain ⟨c, run, same, holds⟩ := h.holds.giveAll h.wellFormed.circuit
  exact ⟨c, run, same, h.recounted same holds⟩

theorem addFilter (h : Tally origin start held d) {site : CallSite}
    (fresh : d.filters.lookup site = none) (stem : String) :
    Tally origin start held { d with
      circuit := (d.circuit.addFilter stem).2
      filters := (site, (d.circuit.addFilter stem).1) :: d.filters } where
  begun := h.begun
  grown := h.grown.trans (Design.extends_addFilter fresh stem)
  frame := h.frame
  wellFormed := h.wellFormed.addFilter site stem
  holds := h.holds.addFilter stem

theorem drop {ts : List Tree} (h : Tally origin start (Tree.allUses ts ++ held) d)
    {failed : Failure → Design → Prop} :
    Meets (DesignM.onCircuit (Tree.releaseAll ts)) d (fun _ d' => Tally origin start held d')
    failed := by
  obtain ⟨c, run, _, after⟩ := h.release
  unfold Meets
  simp only [DesignM.onCircuit, Tree.releaseAll, run]
  exact after

theorem orRelease {α : Type} {ts : List Tree} {act : DesignM α} {done : α → Design → Prop}
    (h : Meets act d done (Refuses (Tally origin start (Tree.allUses ts ++ held)))) :
    Meets (DesignM.orRelease ts act) d done (Refuses (Tally origin start held)) := by
  unfold Meets at h ⊢
  unfold DesignM.orRelease
  cases run : act d with
  | ok a d' =>
    rw [run] at h
    exact h
  | error f d' =>
    rw [run] at h
    obtain ⟨⟨p, rfl, classed⟩, left⟩ := h
    obtain ⟨c, released, _, after⟩ := left.release
    simp only [DesignM.onCircuit, Tree.releaseAll, released]
    exact ⟨⟨p, rfl, classed⟩, after⟩

end Tally

namespace Simplify

theorem uses_unary (op : UnaryOp) (x : Tree) : (unary op x).uses = x.uses := by
  unfold unary
  split
  · split <;> rfl
  · rfl
  · rfl

def Simplified.uses (s : Simplified) : List (BranchId × Usage) :=
  s.tree.uses ++ Tree.allUses s.dropped.toList

theorem uses_identity? {op : BinaryOp} {x : Tree} {c : Value} {o : Option Symbol} {s : Simplified}
    (h : identity? op x c o = some s) : Simplified.uses s = x.uses := by
  unfold identity? at h
  split at h
  · cases h
    exact List.append_nil _
  · split at h
    · cases h
      exact List.append_nil _
    · split at h
      · cases h
        exact List.append_nil _
      · split at h
        · cases h
          exact List.append_nil _
        · cases h

theorem uses_literals (op : BinaryOp) (v : Value) (p : Option Symbol) (c : Value)
    (o : Option Symbol) : (literals op v p c o).uses = [] := by
  unfold literals
  split
  · rfl
  · split <;> simp [plainBinary, Tree.uses]

theorem uses_plainBinary_literal (op : BinaryOp) (x : Tree) (c : Value) (o : Option Symbol) :
    Simplified.uses ⟨plainBinary op x (.literal c o), none⟩ = x.uses :=
  (List.append_nil _).trans (List.append_nil _)

theorem uses_rightLiteral (op : BinaryOp) (x : Tree) (c : Value) (o : Option Symbol) :
    Simplified.uses (rightLiteral op x c o) = x.uses := by
  fun_induction rightLiteral op x c o with
  | case1 op c o v p => simp [Simplified.uses, uses_literals, Tree.uses, Tree.allUses]
  | case2 op c o inner y c1 o1 s whole t found => exact uses_identity? found
  | case3 op c o inner y c1 o1 s whole _ _ => exact uses_plainBinary_literal op whole c o
  | case4 op c o inner y c1 o1 s whole _ joint _ folded _ ih =>
    rw [ih]
    simp [Tree.uses]
  | case5 op c o inner y c1 o1 s whole _ joint _ _ _ => exact uses_plainBinary_literal op whole c o
  | case6 op c o x _ _ =>
    cases found : identity? op x c o with
    | none => exact uses_plainBinary_literal op x c o
    | some t => exact uses_identity? found

theorem uses_binary (op : BinaryOp) (l r : Tree) :
    Simplified.uses (binary op l r) = l.uses ++ r.uses := by
  unfold binary
  split
  · exact (uses_rightLiteral ..).trans (List.append_nil _).symm
  · split
    · exact uses_rightLiteral ..
    · exact List.append_nil _
  · exact List.append_nil _

end Simplify

namespace Function

theorem mem_all_of_find? {name : String} {f : Function} (h : find? name = some f) : f ∈ all :=
  List.mem_of_find?_eq_some h

theorem most_of_ddt : ∀ f ∈ all, f.name = "ddt" → f.most = 1 := by
  decide

theorem most_of_given : ∀ f ∈ all, f.role = .given → f.most = 1 := by
  intro f mem given
  unfold all at mem
  repeat (rcases mem with _ | ⟨_, mem⟩; · first | rfl | cases given)
  cases mem

theorem allUses_of_literals? {args : List Tree} {vs : List Value} (h : literals? args = some vs) :
    Tree.allUses args = [] := by
  fun_induction literals? args generalizing vs with
  | case1 => rfl
  | case2 v o ts ih =>
    obtain ⟨ws, rest, _⟩ := Option.map_eq_some_iff.mp h
    simp [Tree.allUses, Tree.uses, ih rest]
  | case3 => cases h

theorem allUses_of_fold? {f : Function} {args : List Tree} {v : Value} (h : f.fold? args = some v) :
    Tree.allUses args = [] := by
  unfold fold? at h
  obtain ⟨vs, values, _⟩ := Option.bind_eq_some_iff.mp h
  exact allUses_of_literals? values

end Function

namespace Resolve

variable {origin : Design} {start : BranchId → Usage → Nat} {held : List (BranchId × Usage)}
  {d : Design}

theorem classed_of_valueFault? {t : Tree} {c : Circuit} {cause : Cause}
    (h : t.valueFault? c = some cause) : cause.fault?.isSome = true := by
  cases t <;> cases h <;> rfl

theorem requireValue_meets {p : Design → Prop} (h : p d) (t : Tree) :
    Meets (requireValue t) d (fun _ d' => d' = d ∧ t.valueFault? d.circuit = none) (Refuses p) := by
  unfold Meets requireValue
  simp only [bind, EStateM.bind, get, getThe, MonadStateOf.get, EStateM.get]
  cases found : t.valueFault? d.circuit with
  | some cause => exact Refuses.ofCause h (classed_of_valueFault? found)
  | none => exact ⟨rfl, rfl⟩

theorem requireValues_meets {p : Design → Prop} (h : p d) (ts : List Tree) :
    Meets (requireValues ts) d (fun _ d' => d' = d) (Refuses p) := by
  induction ts with
  | nil => exact Meets.pure rfl
  | cons t ts ih =>
    refine Meets.bind (requireValue_meets h t) ?_
    rintro _ d' ⟨rfl, _⟩
    exact ih

theorem uses_identifier (d : Design) (scope : ScopeId) (name : String) :
    (identifier d scope name).uses = [] := by
  unfold identifier
  split
  · split <;> rfl
  · rfl
  · rfl
  · rfl
  · split
    · split
      · simp [Tree.uses, Tree.allUses]
      · rfl
    · rfl

def BuiltIn (origin : Design) (t : Tree) : Prop :=
  t.Built origin.snapshot origin.circuit.nodes.size

theorem identifier_builtIn (wf : origin.WellFormed) (scope : ScopeId) (name : String) :
    BuiltIn origin (identifier origin scope name) := by
  unfold identifier
  split
  · split <;> trivial
  · rfl
  · rename_i i found
    exact wf.lookup? found
  · rename_i i found
    exact wf.lookup? found
  · split
    · rename_i f found
      split
      · rename_i least
        refine ⟨trivial, f, found, rfl, fun _ => rfl⟩
      · trivial
    · trivial

theorem identifier_eq (grown : origin.Extends d) (reads : d.snapshot = origin.snapshot)
    (scope : ScopeId) (name : String) : identifier d scope name = identifier origin scope name := by
  have parameters : d.parameterOf = origin.parameterOf := by
    funext p
    rw [Design.parameterOf, Design.parameterOf, grown.parameters]
  simp only [identifier, grown.lookup? scope name, reads, parameters]

def Found (origin : Design) (start : BranchId → Usage → Nat) (held : List (BranchId × Usage))
    (b : BranchId) (d : Design) : Prop :=
  Tally origin start held d ∧ b < d.circuit.branches.size

theorem connect_meets (h : Tally origin start held d) (function : String) (p n : NodeId) :
    Meets (connect function p n) d (fun ref => Found origin start held ref.branch)
      (Refuses (Tally origin start held)) := by
  unfold Meets connect
  simp only [bind, EStateM.bind, get, getThe, MonadStateOf.get, EStateM.get]
  cases run : d.circuit.connect p n with
  | error e => exact Refuses.ofCause h
  | ok made =>
    obtain ⟨ref, c⟩ := made
    have wf := h.wellFormed.circuit
    refine ⟨h.withCircuit (Circuit.connect_extends run) (Circuit.keepsNames_connect run)
      (wf.connect run) (h.holds.connect run), ?_⟩
    exact (Circuit.joins_of_between? (Circuit.between?_of_connect run)).inside

theorem uses_of_nodeId? {t : Tree} {i : NodeId} (h : t.nodeId? = some i) : t.uses = [] := by
  cases t <;> first | rfl | cases h

theorem branch_meets (h : Tally origin start held d) (function : String) (args : List Tree) :
    Meets (branch function args) d (fun ref d' => Found origin start held ref.branch d' ∧
      Tree.allUses args = []) (Refuses (Tally origin start held)) := by
  unfold branch
  split
  · rename_i name
    unfold Meets
    simp only [bind, EStateM.bind, get, getThe, MonadStateOf.get, EStateM.get]
    cases found : d.circuit.lookup? name with
    | none => exact Refuses.ofCause h
    | some b => exact ⟨⟨h, Circuit.lookup?_lt found⟩, by simp [Tree.allUses, Tree.uses]⟩
  · rename_i t _
    split
    · rename_i p node
      refine (connect_meets h function p ground).mono (fun ref d' found => ⟨found, ?_⟩)
        (fun _ _ f => f)
      simp [Tree.allUses, uses_of_nodeId? node]
    · exact Meets.fail (Refuses.ofCause h)
  · rename_i t u
    split
    · exact Meets.fail (Refuses.ofCause h)
    · rename_i p n _ left right
      refine (connect_meets h function p n).mono (fun ref d' found => ⟨found, ?_⟩) (fun _ _ f => f)
      simp [Tree.allUses, uses_of_nodeId? left, uses_of_nodeId? right]
    · exact Meets.fail (Refuses.ofCause h)
  · exact Meets.fail (Refuses.ofCause h)

def Made (origin : Design) (start : BranchId → Usage → Nat) (rest : List (BranchId × Usage))
    (t : Tree) (d : Design) : Prop :=
  Tally origin start (t.uses ++ rest) d ∧ BuiltIn origin t

/-- An operation that holds the uses of its tree in place of `given`, and `given` on a problem. -/
def Trades (origin : Design) (start : BranchId → Usage → Nat) (given rest : List (BranchId × Usage))
    (act : DesignM Tree) (d : Design) : Prop :=
  Meets act d (Made origin start rest) (Refuses (Tally origin start (given ++ rest)))

theorem access_trades {args : List Tree} (h : Tally origin start (Tree.allUses args ++ held) d)
    (function : String) (a : Access) :
    Trades origin start (Tree.allUses args) held (access function a args) d := by
  refine Meets.bind (branch_meets h function args) ?_
  rintro ref d' ⟨⟨found, inside⟩, unused⟩
  rw [unused, List.nil_append] at found
  exact ⟨found.take inside a.probe, trivial⟩

def Known (f : Function) : Prop := Function.find? f.name = some f

theorem known_of_find? {name : String} {f : Function} (h : Function.find? name = some f) :
    Known f := by
  have same : f.name = name := by simpa using List.find?_some h
  rw [Known, same]
  exact h

theorem parameterGiven_trades {args : List Tree}
    (h : Tally origin start (Tree.allUses args ++ held) d)
    (built : Tree.BuiltAll origin.snapshot origin.circuit.nodes.size args) {f : Function}
    (known : Known f) (given : f.role = .given) (single : args.length ≤ 1) (r : Resolver) :
    Trades origin start (Tree.allUses args) held (parameterGiven r f.name args) d := by
  unfold parameterGiven
  refine Meets.get ?_
  extract_lets parameter
  cases named : parameter with
  | none => exact Meets.fail (Refuses.ofCause h)
  | some p =>
    -- Only a parameter or a literal is taken for given, and neither makes a use.
    have unused : Tree.allUses args = [] := by
      unfold parameter at named
      split at named
      · rename_i q rest
        obtain rfl : rest = [] := by simpa using single
        rfl
      · rename_i v o rest
        obtain rfl : rest = [] := by simpa using single
        rfl
      · cases named
    dsimp only
    split
    · rw [unused] at h
      exact Meets.pure ⟨h, trivial⟩
    · refine Meets.pure ⟨h, built, f, known, ?_, fun _ => unused⟩
      rw [Function.summary, given]

theorem filterBranch_meets (h : Tally origin start held d) (site : CallSite) (function : String) :
    Meets (filterBranch site function) d (fun b d' => Tally origin start held d' ∧
      (site, b) ∈ d'.filters) (Refuses (Tally origin start held)) := by
  unfold Meets filterBranch
  simp only [bind, EStateM.bind, get, getThe, MonadStateOf.get, EStateM.get]
  cases known : d.filters.lookup site with
  | some b => exact ⟨h, mem_of_lookup known⟩
  | none => exact ⟨h.addFilter known function, List.mem_cons_self ..⟩

theorem probe_filter (wf : d.WellFormed) {site : CallSite} {b : BranchId}
    (mem : (site, b) ∈ d.filters) (a : Access) : d.circuit.probe b a = ⟨b, a⟩ := by
  have own := (wf.filters (site, b) mem).2
  have base : (d.circuit.branch b).base = none := by simpa [Branch.isAlias] using own
  simp [Circuit.probe, Circuit.base, base]

theorem filter_trades {args : List Tree} (h : Tally origin start (Tree.allUses args ++ held) d)
    (built : Tree.BuiltAll origin.snapshot origin.circuit.nodes.size args)
    {function : String} (single : function = "ddt" → args.length ≤ 1) (r : Resolver)
    (site : CallSite) :
    Trades origin start (Tree.allUses args) held (filter r site function args) d := by
  unfold filter
  split
  · rename_i known
    simp only [Bool.and_eq_true, beq_iff_eq] at known
    have unused : Tree.allUses args = [] := by
      obtain _ | ⟨t, _ | _⟩ := args
      · rfl
      · cases t <;> first | rfl | cases known.2
      · cases single known.1.2 with | step le => cases le
    rw [unused] at h
    exact Meets.pure ⟨h, trivial⟩
  · refine Meets.bind (filterBranch_meets h site function) ?_
    rintro b d' ⟨found, mem⟩
    have inside := (found.wellFormed.filters (site, b) mem).1
    have read := found.take inside .potentialProbe
    have sized : b < (d'.circuit.take b .potentialProbe).branches.size := by
      rw [Circuit.size_eq_of_uncounted (Circuit.uncounted_take _ _ _)]
      exact inside
    refine ⟨(read.take sized .flowSource).perm (.swap ..), built, ?_⟩
    rw [probe_filter found.wellFormed mem]
    rfl

theorem mathematical_trades {args : List Tree}
    (h : Tally origin start (Tree.allUses args ++ held) d)
    (built : Tree.BuiltAll origin.snapshot origin.circuit.nodes.size args) {f : Function}
    (known : Known f) (other : f.role ≠ .given) (r : Resolver) :
    Trades origin start (Tree.allUses args) held (mathematical r f args) d := by
  unfold mathematical
  split
  · rename_i v folded _
    rw [Function.allUses_of_fold? folded] at h
    exact Meets.pure ⟨h, trivial⟩
  · exact Meets.pure ⟨h, built, f, known, rfl, fun given => absurd given other⟩

theorem function_trades {args : List Tree} (h : Tally origin start (Tree.allUses args ++ held) d)
    (built : Tree.BuiltAll origin.snapshot origin.circuit.nodes.size args) {f : Function}
    (known : Known f) (r : Resolver) (site : CallSite) :
    Trades origin start (Tree.allUses args) held (function r site f args) d := by
  have listed := Function.mem_all_of_find? known
  unfold function
  by_cases misfit : (args.length < f.least || f.most < args.length) = true
  · simp only [misfit, ↓reduceIte]
    split <;> exact Meets.fail (Refuses.ofCause h)
  · simp only [misfit, Bool.false_eq_true, ↓reduceIte]
    simp only [Bool.or_eq_true, decide_eq_true_eq, not_or, Nat.not_lt] at misfit
    obtain ⟨_, fits⟩ := misfit
    split
    · rename_i given
      exact parameterGiven_trades h built known given
        (Function.most_of_given f listed given ▸ fits) r
    · refine Meets.bind (requireValues_meets h args) ?_
      rintro _ _ rfl
      exact filter_trades h built (fun ddt => Function.most_of_ddt f listed ddt ▸ fits) r site
    · rename_i other _
      refine Meets.bind (requireValues_meets h args) ?_
      rintro _ _ rfl
      exact mathematical_trades h built known other r

theorem call_trades {args : List Tree} (h : Tally origin start (Tree.allUses args ++ held) d)
    (built : Tree.BuiltAll origin.snapshot origin.circuit.nodes.size args) (r : Resolver)
    (scope : ScopeId) (site : CallSite) (name : String) :
    Trades origin start (Tree.allUses args) held (call r scope site name args) d := by
  unfold call
  split
  · exact access_trades h name _
  · rename_i f _ found
    exact function_trades h built (known_of_find? found) r site
  · refine Meets.get ?_
    split <;> exact Meets.fail (Refuses.ofCause h)

theorem unary_trades {x : Tree} (h : Tally origin start (x.uses ++ held) d)
    (built : BuiltIn origin x)
    (r : Resolver) (op : UnaryOp) : Trades origin start x.uses held (unary r op x) d := by
  refine Meets.bind (requireValue_meets h x) ?_
  rintro _ _ ⟨rfl, _⟩
  refine Meets.pure ?_
  split
  · refine ⟨?_, Simplify.built_unary op built⟩
    rw [Simplify.uses_unary]
    exact h
  · exact ⟨h, Simplify.built_plainUnary op built⟩

theorem binary_trades {x y : Tree} (h : Tally origin start (x.uses ++ y.uses ++ held) d)
    (left : BuiltIn origin x) (right : BuiltIn origin y) (r : Resolver) (op : BinaryOp) :
    Trades origin start (x.uses ++ y.uses) held (binary r op x y) d := by
  refine Meets.bind (requireValue_meets h x) ?_
  rintro _ _ ⟨rfl, _⟩
  refine Meets.bind (requireValue_meets h y) ?_
  rintro _ _ ⟨rfl, _⟩
  split
  · refine Meets.bind (Tally.drop ?_) fun _ _ kept =>
      Meets.pure ⟨kept, Simplify.built_binary op left right⟩
    rw [← Simplify.uses_binary op x y, Simplify.Simplified.uses] at h
    refine h.perm ?_
    rw [← List.append_assoc]
    exact List.perm_append_comm.append_right held
  · exact Meets.pure ⟨h, Simplify.built_plainBinary op left right⟩

structure Stacked (origin : Design) (start : BranchId → Usage → Nat)
    (held : List (BranchId × Usage)) (stack : Stack Tree) (d : Design) : Prop where
  tally : Tally origin start (Tree.allUses stack.items ++ held) d
  built : Tree.BuiltAll origin.snapshot origin.circuit.nodes.size stack.items

theorem Stacked.empty (h : Tally origin start held d) : Stacked origin start held .empty d :=
  ⟨h, trivial⟩

theorem Stacked.push {stack : Stack Tree} (h : Stacked origin start held stack d) {t : Tree}
    (unused : t.uses = []) (built : BuiltIn origin t) :
    Stacked origin start held (stack.push t) d where
  tally := by simpa only [Stack.push, Tree.allUses, unused, List.nil_append] using h.tally
  built := ⟨built, h.built⟩

theorem Stacked.stop {stack : Stack Tree} (h : Stacked origin start held stack d) {α : Type}
    {done : α → Design → Prop} {c : Cause} (classed : c.fault?.isSome = true) :
    Meets (DesignM.orRelease stack.toList (DesignM.fail c)) d done
    (Refuses (Tally origin start held)) := by
  refine Tally.orRelease (Meets.fail (Refuses.ofCause (h.tally.perm ?_) classed))
  exact (Tree.allUses_perm (List.reverse_perm _).symm).append_right held

theorem single_meets {stack : Stack Tree} (h : Stacked origin start held stack d) (raw : Raw) :
    Meets (single raw stack) d (Made origin start held) (Refuses (Tally origin start held)) := by
  obtain ⟨tally, built⟩ := h
  unfold single
  split
  · rename_i t items
    rw [items] at tally built
    refine Meets.bind (Tally.orRelease (requireValue_meets tally t)) ?_
    rintro _ _ ⟨rfl, _⟩
    refine Meets.pure ⟨?_, built.1⟩
    simpa only [Tree.allUses, List.append_nil] using tally
  · exact Stacked.stop ⟨tally, built⟩ rfl

theorem replace_meets (operands : List Tree) {below : List Tree} {act : DesignM Tree}
    {given : List (BranchId × Usage)}
    (h : Trades origin start given (Tree.allUses below ++ held) act d)
    (same : Tree.allUses operands = given)
    (built : Tree.BuiltAll origin.snapshot origin.circuit.nodes.size below) :
    Meets (DesignM.orRelease (operands ++ below.reverse) act >>= fun t => pure ⟨t :: below⟩) d
      (Stacked origin start held) (Refuses (Tally origin start held)) := by
  subst same
  refine Meets.bind (Tally.orRelease (h.mono (fun _ _ made => made) fun f d' left => left.mono ?_))
    ?_
  · intro d'' left
    refine left.perm ?_
    rw [Tree.allUses_append, List.append_assoc]
    exact ((Tree.allUses_perm (List.reverse_perm below).symm).append_right held).append_left _
  · intro t d' made
    refine Meets.pure ⟨?_, made.2, built⟩
    simpa only [Tree.allUses, List.append_assoc] using made.1

theorem Stacked.close {stack below : Stack Tree} {items : List Tree}
    (h : Stacked origin start held stack d)
    (popped : stack.popUntil? Tree.isMarker = some (items, below)) :
    Stacked origin start held (below.push (.arguments items)) d := by
  unfold Stack.popUntil? at popped
  split at popped
  · rename_i top rest cut
    cases popped
    have marker : top.uses = [] := by
      have first := List.head?_dropWhile_not (fun t => !Tree.isMarker t) stack.items
      rw [cut] at first
      cases top <;> simp_all [Tree.isMarker, Tree.uses]
    have whole : stack.items = stack.items.takeWhile (fun t => !Tree.isMarker t) ++
        top :: rest := by
      rw [← cut, List.takeWhile_append_dropWhile]
    have above := Tree.allUses_perm
      (List.reverse_perm (stack.items.takeWhile fun t => !Tree.isMarker t))
    constructor
    · refine h.tally.perm (List.Perm.append_right held ?_)
      simp only [Stack.push, Tree.allUses, Tree.uses]
      refine List.Perm.trans (.of_eq ?_) (above.symm.append_right _)
      conv_lhs => rw [whole]
      simp only [Tree.allUses_append, Tree.allUses, marker, List.nil_append]
    · have built := Tree.builtAll_iff.mp h.built
      rw [whole] at built
      refine ⟨Tree.builtAll_iff.mpr fun t mem => built t ?_,
        Tree.builtAll_iff.mpr fun t mem => built t ?_⟩
      · exact List.mem_append_left _ (List.mem_reverse.mp mem)
      · exact List.mem_append_right _ (List.mem_cons_of_mem _ mem)
  · cases popped

theorem uses_of_chosen? {r : Resolver} {c : Tree} {b : Bool} (h : chosen? r c = some b) :
    c.uses = [] := by
  cases c <;> first | rfl | cases h

theorem arm_meets {act : DesignM (Stack Tree)}
    (h : Meets act d (Stacked origin start held) (Refuses (Tally origin start held))) (raw : Raw) :
    Meets (act >>= single raw) d (Made origin start held) (Refuses (Tally origin start held)) :=
  Meets.bind h fun _ _ left => single_meets left raw

theorem choice_trades {c : Tree} (h : Tally origin start (c.uses ++ held) d)
    (built : BuiltIn origin c) (r : Resolver) (thn els : Raw) {first second : DesignM (Stack Tree)}
    (firstMeets : ∀ held d, Tally origin start held d →
      Meets first d (Stacked origin start held) (Refuses (Tally origin start held)))
    (secondMeets : ∀ held d, Tally origin start held d →
      Meets second d (Stacked origin start held) (Refuses (Tally origin start held))) :
    Trades origin start c.uses held (do
      requireValue c
      match chosen? r c with
      | some true => single thn (← first)
      | some false => single els (← second)
      | none => do
        let t ← single thn (← first)
        let e ← DesignM.orRelease [t] do single els (← second)
        return .ternary c t e (.select c.summary t.summary e.summary)) d := by
  refine Meets.bind (requireValue_meets h c) ?_
  rintro _ _ ⟨rfl, _⟩
  split
  · rename_i known
    rw [uses_of_chosen? known] at h ⊢
    exact arm_meets (firstMeets _ _ h) thn
  · rename_i known
    rw [uses_of_chosen? known] at h ⊢
    exact arm_meets (secondMeets _ _ h) els
  · refine Meets.bind (firstMeets (c.uses ++ held) _ h) ?_
    intro stack d₁ worked
    refine Meets.bind (single_meets worked thn) ?_
    rintro t d₂ ⟨after, thnBuilt⟩
    have other := arm_meets (secondMeets (t.uses ++ (c.uses ++ held)) _ after) els
    rw [show t.uses = Tree.allUses [t] by simp [Tree.allUses]] at other
    refine Meets.bind (Tally.orRelease other) ?_
    rintro e d₃ ⟨left, elsBuilt⟩
    refine Meets.pure ⟨left.perm ?_, built, thnBuilt, elsBuilt, rfl⟩
    simp only [List.perm_iff_count, Tree.uses, Tree.allUses, List.append_nil, List.count_append]
    omega

mutual

theorem step_meets (r : Resolver) (scope : ScopeId) (key : Nat) (site : List Nat)
    (stack : Stack Tree) (t : Token) {held : List (BranchId × Usage)} {d : Design}
    (h : Stacked origin start held stack d) :
    Meets (step r scope key site stack t) d (Stacked origin start held)
    (Refuses (Tally origin start held)) := by
  obtain ⟨tally, built⟩ := h
  cases t with
  | literal v =>
    rw [step]
    exact Meets.pure (Stacked.push ⟨tally, built⟩ rfl trivial)
  | marker =>
    rw [step]
    exact Meets.pure (Stacked.push ⟨tally, built⟩ rfl trivial)
  | arguments =>
    rw [step]
    split
    · rename_i items below popped
      exact Meets.pure (Stacked.close ⟨tally, built⟩ popped)
    · exact Stacked.stop ⟨tally, built⟩ rfl
  | identifier name =>
    rw [step]
    split
    · rename_i args below items
      simp only [items, Tree.allUses, Tree.uses, List.append_assoc] at tally built
      exact replace_meets [.arguments args] (call_trades tally built.1 r scope _ name)
        (by simp [Tree.allUses, Tree.uses]) built.2
    · refine Meets.get (Meets.pure (Stacked.push ⟨tally, built⟩ (uses_identifier d scope name) ?_))
      rw [identifier_eq tally.grown tally.snapshot]
      exact identifier_builtIn tally.begun scope name
  | unary op =>
    rw [step]
    split
    · rename_i x below items
      simp only [items, Tree.allUses, List.append_assoc] at tally built
      exact replace_meets [x] (unary_trades tally built.1 r op) (by simp [Tree.allUses]) built.2
    · rename_i items
      simp only [items, Tree.allUses, List.nil_append] at tally
      exact Meets.fail (Refuses.ofCause tally)
  | binary op =>
    rw [step]
    split
    · rename_i y x below items
      simp only [items] at tally built
      have ordered : Tally origin start (x.uses ++ y.uses ++ (Tree.allUses below ++ held)) d := by
        refine tally.perm ?_
        simp only [Tree.allUses, ← List.append_assoc]
        exact (List.perm_append_comm.append_right _).append_right _
      exact replace_meets [x, y] (binary_trades ordered built.2.1 built.1 r op)
        (by simp [Tree.allUses]) built.2.2
    · exact Stacked.stop ⟨tally, built⟩ rfl
  | ternary thn els =>
    rw [step]
    split
    · rename_i c below items
      simp only [items, Tree.allUses, List.append_assoc] at tally built
      exact replace_meets [c] (choice_trades tally built.1 r thn els
        (fun _ _ h => steps_meets r scope key (0 :: site) 0 .empty thn (.empty h))
        (fun _ _ h => steps_meets r scope key (1 :: site) 0 .empty els (.empty h)))
        (by simp [Tree.allUses]) built.2
    · rename_i items
      simp only [items, Tree.allUses, List.nil_append] at tally
      exact Meets.fail (Refuses.ofCause tally)

theorem steps_meets (r : Resolver) (scope : ScopeId) (key : Nat) (site : List Nat) (k : Nat)
    (stack : Stack Tree) (ts : List Token) {held : List (BranchId × Usage)} {d : Design}
    (h : Stacked origin start held stack d) :
      Meets (steps r scope key site k stack ts) d (Stacked origin start held)
      (Refuses (Tally origin start held)) := by
  cases ts with
  | nil =>
    rw [steps]
    exact Meets.pure h
  | cons t ts =>
    rw [steps]
    exact Meets.bind (step_meets r scope key (k :: site) stack t h) fun stack' d' left =>
      steps_meets r scope key site (k + 1) stack' ts left

end

end Resolve

namespace Source

variable {origin : Design} {start : BranchId → Usage → Nat} {held : List (BranchId × Usage)}
  {d : Design}

theorem resolve_meets (h : Tally origin start held d) (r : Resolver) (s : Source)
    (scope : ScopeId) :
    Meets (s.resolve r scope) d (Resolve.Made origin start held)
    (Refuses (Tally origin start held)) :=
  Resolve.arm_meets (Resolve.steps_meets r scope s.key [] 0 .empty s.raw (.empty h)) s.raw

theorem resolveTarget_meets (h : Tally origin start held d) (r : Resolver) (s : Source)
    (scope : ScopeId) :
    Meets (s.resolveTarget r scope) d (fun q => Resolve.Found origin start held q.ref.branch)
      (Refuses (Tally origin start held)) := by
  refine Meets.bind (resolve_meets h r s scope) ?_
  rintro t d₁ ⟨resolved, -⟩
  obtain ⟨c, run, same, released⟩ := resolved.release
  have dropped : Meets (DesignM.onCircuit t.release) d₁ (fun _ d' => d' = { d₁ with circuit := c })
      (Refuses (Tally origin start held)) := by
    unfold Meets
    simp only [DesignM.onCircuit, Tree.release, run]
  refine Meets.bind dropped ?_
  rintro _ _ rfl
  split
  · rename_i q
    refine Meets.pure ⟨released, ?_⟩
    rw [Circuit.size_eq_of_uncounted same]
    exact resolved.holds.inside (q.ref.branch, q.probe.access.probe) (by simp [Tree.uses])
  · exact Meets.get (Meets.fail (Refuses.ofCause released))

/-- The branches that were there have the counters they had, and those that came stand at zero. -/
structure SameCounts (c c' : Circuit) : Prop where
  grown : c.Extends c'
  kept : ∀ b < c.branches.size, ∀ u, c'.count b u = c.count b u
  fresh : ∀ b, c.branches.size ≤ b → ∀ u, c'.count b u = 0

theorem SameCounts.of_tally {d d' : Design} (h : Tally d d.circuit.count [] d') :
    SameCounts d.circuit d'.circuit where
  grown := h.grown.circuit
  kept b _ u := h.holds.counts b u
  fresh b outside u := by
    rw [h.holds.counts b u, Circuit.count_of_size_le outside]
    rfl

/-- An expression resolves completely or not at all, whatever its tokens are. A problem leaves every
counter as it was. A tree counts for exactly the uses that it makes, which can be given back. The
target of a contribution leaves no use in either case. -/
theorem resolve_counts (r : Resolver) (s : Source) (scope : ScopeId) (d : Design)
    (wf : d.WellFormed) : (match s.resolve r scope d with
      | .error f d' => (∃ p : Problem, f = .problem p) ∧ SameCounts d.circuit d'.circuit
      | .ok t d' =>
        d.circuit.Extends d'.circuit ∧
        (∀ b u, d'.circuit.count b u = d.circuit.count b u + d'.circuit.footprint t.uses b u) ∧
        ∃ c, t.release d'.circuit = .ok () c ∧ SameCounts d.circuit c) ∧
    (match s.resolveTarget r scope d with
      | .error f d' => (∃ p : Problem, f = .problem p) ∧ SameCounts d.circuit d'.circuit
      | .ok _ d' => SameCounts d.circuit d'.circuit) := by
  have value := resolve_meets (Tally.initial wf) r s scope
  have target := resolveTarget_meets (Tally.initial wf) r s scope
  unfold Meets at value target
  constructor
  · cases run : s.resolve r scope d with
    | error f d' =>
      simp only [run] at value ⊢
      obtain ⟨⟨p, problem, _⟩, left⟩ := value
      exact ⟨⟨p, problem⟩, .of_tally left⟩
    | ok t d' =>
      simp only [run] at value ⊢
      obtain ⟨c, released, _, after⟩ := value.1.release
      refine ⟨value.1.grown.circuit, ?_, c, released, .of_tally after⟩
      simpa only [List.append_nil] using value.1.holds.counts
  · cases run : s.resolveTarget r scope d with
    | error f d' =>
      simp only [run] at target ⊢
      obtain ⟨⟨p, problem, _⟩, left⟩ := target
      exact ⟨⟨p, problem⟩, .of_tally left⟩
    | ok q d' =>
      simp only [run] at target ⊢
      exact .of_tally target.1

def bridged : Design where
  circuit := ⟨#[⟨groundName, none⟩, ⟨"p", none⟩, ⟨"n", none⟩],
    #[.plain 1 2, { Branch.plain 2 1 with name := "back", base := some 0, reversed := true }], 0⟩
  scopes := #[⟨[], [("p", .port 1), ("n", .port 2), ("back", .branch 1)], .always, ""⟩]
  parameters := #[]
  vars := #[]
  filters := []
  expressions := 1

theorem wellFormed_bridged : bridged.WellFormed where
  circuit := by
    refine ⟨by decide, ?_⟩
    intro b base known
    match b with
    | 0 => cases known
    | 1 =>
      cases known
      decide
    | b + 2 => cases known
  filters := by decide
  bindings
    | 0 => by decide
    | s + 1 => by simp [bridged, Design.scopeOf, default, Scope.inside]
  summaries v := by
    simp [bridged, Design.variableOf, default, Variable.ofType, Summary.fixed, Summary.plain,
      EdgeSet.empty, EdgeSet.probes]

def bridgedReading : Source where
  raw := [.marker, .identifier "back", .arguments, .identifier "V",
    .marker, .identifier "p", .identifier "n", .arguments, .identifier "I", .binary .add]
  key := 0

theorem resolve_counts_bridged : bridged.WellFormed ∧
    ∃ t d', bridgedReading.resolve ⟨.default, 0⟩ 0 bridged = .ok t d' ∧
      d'.circuit.count 0 .potentialProbe = 1 ∧ d'.circuit.count 1 .potentialProbe = 1 ∧
      d'.circuit.count 0 .flowProbe = 1 ∧
      ∃ c, t.release d'.circuit = .ok () c ∧ SameCounts bridged.circuit c := by
  have value := (resolve_counts ⟨.default, 0⟩ bridgedReading 0 bridged wellFormed_bridged).1
  refine ⟨wellFormed_bridged, _, _, rfl, rfl, rfl, rfl, value.2.2⟩

end Source
end Analog
