import Analog.Proofs.Resolver.CounterBalance
import Analog.Proofs.Tree.NormalForm

/-!
What a step of resolution did if it succeeded: which tokens take what off the stack, which arguments
a call accepts, and that the books are in order afterwards. A property that names, calls and
operations give to the trees they make is one of all parts of the resolved tree.
-/
namespace Analog.Resolve

def Ready (d : Design) (ts : List Tree) : Prop :=
  ∃ start held, Tally d start (Tree.allUses ts ++ held) d ∧
    Tree.BuiltAll d.snapshot d.circuit.nodes.size ts

namespace Ready

variable {stack : Stack Tree} {d d' : Design} {ts us : List Tree}

theorem wellFormed (h : Ready d ts) : d.WellFormed := by
  obtain ⟨start, held, tally, _⟩ := h
  exact tally.wellFormed

theorem built (h : Ready d ts) : Tree.BuiltAll d.snapshot d.circuit.nodes.size ts := by
  obtain ⟨start, held, _, built⟩ := h
  exact built

theorem initial (wf : d.WellFormed) : Ready d [] := ⟨_, [], Tally.initial wf, trivial⟩

theorem aside (h : Ready d ts) : Ready d [] := by
  obtain ⟨start, held, tally, _⟩ := h
  exact ⟨start, Tree.allUses ts ++ held, tally, trivial⟩

theorem arguments (h : Ready d (.arguments us :: ts)) : Ready d us := by
  obtain ⟨start, held, tally, built⟩ := h
  refine ⟨start, Tree.allUses ts ++ held, ?_, built.1⟩
  simpa only [Tree.allUses, Tree.uses, List.append_assoc] using tally

theorem ofStacked {start : BranchId → Usage → Nat} {held : List (BranchId × Usage)}
    (h : Stacked d start held stack d') : d.Extends d' ∧ d'.snapshot = d.snapshot ∧
    Ready d' stack.items := by
  have tally := h.tally
  refine ⟨tally.grown, tally.snapshot, start, held, ?_, ?_⟩
  · exact ⟨tally.wellFormed, .refl d', rfl, tally.wellFormed, tally.holds⟩
  · rw [tally.snapshot]
    exact Tree.BuiltAll.mono tally.grown.circuit.nodes _ h.built

theorem drops {x y : Tree} (h : Ready d (y :: x :: ts)) (op : BinaryOp) :
    ∃ c, DesignM.onCircuit (Tree.releaseAll (Simplify.binary op x y).dropped.toList) d =
      .ok () { d with circuit := c } ∧ c.uncounted = d.circuit.uncounted := by
  obtain ⟨start, held, tally, _⟩ := h
  have ordered : Tally d start (Tree.allUses (Simplify.binary op x y).dropped.toList ++
      ((Simplify.binary op x y).tree.uses ++ (Tree.allUses ts ++ held))) d := by
    have whole := Simplify.uses_binary op x y
    rw [Simplify.Simplified.uses] at whole
    refine tally.perm ?_
    have counts := fun a => congrArg (List.count a) whole
    simp only [List.count_append] at counts
    simp only [Tree.allUses, List.perm_iff_count, List.count_append]
    intro a
    have count := counts a
    omega
  obtain ⟨c, released, same, _⟩ := ordered.release
  refine ⟨c, ?_, same⟩
  simp only [DesignM.onCircuit, Tree.releaseAll, released]

theorem step {r : Resolver} {scope : ScopeId} {key : Nat} {site : List Nat} {stack' : Stack Tree}
    {t : Token}
    (h : Ready d stack.items) (run : Resolve.step r scope key site stack t d = .ok stack' d') :
    d.Extends d' ∧ d'.snapshot = d.snapshot ∧ Ready d' stack'.items := by
  obtain ⟨start, held, tally, built⟩ := h
  exact ofStacked ((step_meets r scope key site stack t ⟨tally, built⟩).of_ok run)

theorem steps {r : Resolver} {scope : ScopeId} {key : Nat} {site : List Nat} {k : Nat}
    {stack' : Stack Tree} {tokens : List Token} (h : Ready d stack.items)
    (run : Resolve.steps r scope key site k stack tokens d = .ok stack' d') :
    d.Extends d' ∧ d'.snapshot = d.snapshot ∧ Ready d' stack'.items := by
  obtain ⟨start, held, tally, built⟩ := h
  exact ofStacked ((steps_meets r scope key site k stack tokens ⟨tally, built⟩).of_ok run)

end Ready

section Values

variable {d d₁ : Design}

theorem requireValue_ensures (d : Design) (t : Tree) :
    Ensures (requireValue t) d fun _ d₁ => t.valueFault? d.circuit = none ∧ d₁ = d :=
  (requireValue_meets (p := fun _ => True) trivial t).mono (fun _ _ done => done.symm) fun _
    _ _ => trivial

theorem requireValue_eq (t : Tree) (d : Design) : requireValue t d =
    match t.valueFault? d.circuit with
    | some cause => .error (.ofCause cause) d
    | none => .ok () d := by
  cases found : t.valueFault? d.circuit <;>
    simp only [requireValue, bind, EStateM.bind, get, getThe, MonadStateOf.get, EStateM.get,
      found] <;> rfl

theorem requireValue_eq_ok {t : Tree} (fine : t.valueFault? d.circuit = none) :
    requireValue t d = .ok () d := by
  rw [requireValue_eq, fine]

theorem values_of_requireValues {ts : List Tree} {x : Unit} (run : requireValues ts d = .ok x d₁) :
    ∀ t ∈ ts, t.IsValue := by
  induction ts generalizing d with
  | nil => nofun
  | cons t ts ih =>
    obtain ⟨_, _, first, rest⟩ := bind_eq_ok.mp run
    obtain ⟨fine, rfl⟩ := (requireValue_ensures d t).of_ok first
    exact List.forall_mem_cons.mpr ⟨Tree.isValue_of_fault fine, ih rest⟩

theorem unary_ensures (r : Resolver) (d : Design) (op : UnaryOp) (x : Tree) :
    Ensures (unary r op x) d fun t d₁ => x.valueFault? d.circuit = none ∧ d₁ = d ∧
      t = if r.config.simplify then Simplify.unary op x else Simplify.plainUnary op x := by
  refine Meets.bind (requireValue_ensures d x) ?_
  rintro _ _ ⟨fine, rfl⟩
  exact Meets.pure ⟨fine, rfl, rfl⟩

theorem binary_ensures (r : Resolver) (d : Design) (op : BinaryOp) (x y : Tree) :
    Ensures (binary r op x y) d fun t d₁ => x.valueFault? d.circuit = none ∧
      y.valueFault? d.circuit = none ∧
      if r.config.simplify then t = (Simplify.binary op x y).tree else d₁ = d ∧
      t = Simplify.plainBinary op x y := by
  refine Meets.bind (requireValue_ensures d x) ?_
  rintro _ d ⟨left, rfl⟩
  refine Meets.bind (requireValue_ensures d y) ?_
  rintro _ d ⟨right, rfl⟩
  split
  · have released : Ensures
        (DesignM.onCircuit (Tree.releaseAll (Simplify.binary op x y).dropped.toList)) d
        fun _ _ => True := by
      unfold Ensures Meets
      split <;> trivial
    exact Meets.bind released fun _ _ _ => Meets.pure ⟨left, right, rfl⟩
  · exact Meets.pure ⟨left, right, rfl, rfl⟩

theorem single_eq_ok {raw : Raw} {stack : Stack Tree} {t : Tree} :
    single raw stack d = .ok t d₁ ↔ stack.items = [t] ∧
    t.valueFault? d.circuit = none ∧ d₁ = d := by
  constructor
  · have inverse : Ensures (single raw stack) d
        fun t d₁ => stack.items = [t] ∧ t.valueFault? d.circuit = none ∧ d₁ = d := by
      unfold single
      split
      · rename_i u items
        refine Meets.bind (Ensures.orRelease (requireValue_ensures d u)) ?_
        rintro _ _ ⟨fine, rfl⟩
        exact Meets.pure ⟨items, fine, rfl⟩
      · exact Ensures.orRelease (Meets.fail trivial)
    exact inverse.of_ok
  · rintro ⟨items, fine, rfl⟩
    simp only [single, items]
    exact bind_eq_ok.mpr ⟨(), d₁, orRelease_eq_ok.mpr (requireValue_eq_ok fine), rfl⟩

end Values

section Calls

variable {t : Tree} {args : List Tree} {r : Resolver} {site : CallSite} {name : String}
    {d d₁ : Design}

theorem connect_ensures (d : Design) (function : String) (p n : NodeId) :
    Ensures (connect function p n) d fun ref d₁ =>
      ∃ c, d.circuit.connect p n = .ok (ref, c) ∧ d₁ = { d with circuit := c } := by
  refine Meets.get ?_
  split
  · rename_i ref c made
    exact Meets.set (Meets.pure ⟨c, made, rfl⟩)
  · exact Meets.fail trivial

theorem connect_eq (function : String) (p n : NodeId) (d : Design) : connect function p n d =
    match d.circuit.connect p n with
    | .ok (ref, c) => .ok ref { d with circuit := c }
    | .error err => .error (.ofCause (.loop function err)) d := by
  cases made : d.circuit.connect p n <;>
    simp only [connect, bind, EStateM.bind, get, getThe, MonadStateOf.get,
      EStateM.get, made] <;> rfl

theorem branch_named (function name : String) (d : Design) : branch function [.deferred name] d =
    match d.circuit.lookup? name with
    | some b => .ok ⟨b, false⟩ d
    | none => .error (.ofCause (.awaitedBranch name)) d := by
  cases found : d.circuit.lookup? name <;>
    simp only [branch, bind, EStateM.bind, get, getThe, MonadStateOf.get, EStateM.get,
      found] <;> rfl

theorem node_of_nodeId? {i : NodeId} (h : t.nodeId? = some i) : t = .node i ∨ t = .port i := by
  cases t with
  | node j =>
    cases h
    exact .inl rfl
  | port j =>
    cases h
    exact .inr rfl
  | _ => cases h

theorem lt_of_nodeId? {read : VariableId → Summary} {i : NodeId} {nodes : Nat}
    (h : t.nodeId? = some i) (built : t.Built read nodes) : i < nodes := by
  rcases node_of_nodeId? h with rfl | rfl
  · exact built
  · exact built

inductive Names (d : Design) (function : String) : List Tree → BranchRef → Design → Prop
  | named {name : String} {b : BranchId} (found : d.circuit.lookup? name = some b) :
    Names d function [.deferred name] ⟨b, false⟩ d
  | grounded {t : Tree} {p : NodeId} {ref : BranchRef} {d₁ : Design} (node : t.nodeId? = some p)
    (run : connect function p ground d = .ok ref d₁) : Names d function [t] ref d₁
  | between {t u : Tree} {p n : NodeId} {ref : BranchRef} {d₁ : Design} (left : t.nodeId? = some p)
    (right : u.nodeId? = some n) (run : connect function p n d = .ok ref d₁) :
    Names d function [t, u] ref d₁

theorem branch_ensures (d : Design) (function : String) (args : List Tree) :
    Ensures (branch function args) d (Names d function args) := by
  unfold branch
  split
  · rename_i name
    refine Meets.get ?_
    split
    · rename_i b found
      exact Meets.pure (.named found)
    · exact Meets.fail trivial
  · rename_i t _
    split
    · rename_i p node
      unfold Ensures Meets
      split
      · rename_i ref d₁ run
        exact .grounded node run
      · trivial
    · exact Meets.fail trivial
  · rename_i t u
    split
    · exact Meets.fail trivial
    · rename_i p n _ left right
      unfold Ensures Meets
      split
      · rename_i ref d₁ run
        exact .between left right run
      · trivial
    · exact Meets.fail trivial
  · exact Meets.fail trivial

theorem lt_of_names {function : String} {ref : BranchRef} (h : Names d function args ref d₁) :
    ref.branch < d₁.circuit.branches.size := by
  have joined : ∀ {p n : NodeId}, connect function p n d = .ok ref d₁ →
      ref.branch < d₁.circuit.branches.size := by
    intro p n run
    obtain ⟨c, made, rfl⟩ := (connect_ensures d function p n).of_ok run
    exact (Circuit.joins_of_between? (Circuit.between?_of_connect made)).inside
  cases h with
  | named found => exact Circuit.lookup?_lt found
  | grounded _ run | between _ _ run => exact joined run

/-- The parameter of which it is asked whether it was given. -/
def asked : List Tree → Option Symbol
  | .parameter p :: _ => some p
  | .literal _ o :: _ => o
  | _ => none

def answer (r : Resolver) (d : Design) (function : String) (args : List Tree) (p : Symbol) : Tree :=
  match (d.parameterOf p.id).given, r.config.simplify with
  | some b, true => .ofValue (.ofBool b)
  | _, _ => .call function args none (.fixed true)

theorem parameterGiven_eq (r : Resolver) (function : String) (args : List Tree) (d : Design) :
    parameterGiven r function args d =
      match asked args with
      | some p => .ok (answer r d function args p) d
      | none =>
        .error (.ofCause (.notParameter function (", ".intercalate (Tree.sources d.circuit args))))
          d := by
  simp only [parameterGiven, asked, answer, bind, EStateM.bind, get, getThe,
    MonadStateOf.get, EStateM.get]
  rcases args with _ | ⟨x, xs⟩
  · rfl
  cases x with
  | parameter p =>
    dsimp only
    cases (d.parameterOf p.id).given <;> cases r.config.simplify <;> rfl
  | literal v o =>
    cases o with
    | none => rfl
    | some p =>
      dsimp only
      cases (d.parameterOf p.id).given <;> cases r.config.simplify <;> rfl
  | _ => rfl

theorem parameterGiven_of_asked (r : Resolver) (d : Design) (function : String) {p : Symbol}
    (found : asked args = some p) :
    parameterGiven r function args d = .ok (answer r d function args p) d := by
  rw [parameterGiven_eq, found]

theorem asked_of_parameterGiven {function : String}
    (run : parameterGiven r function args d = .ok t d₁) : ∃ p, asked args = some p := by
  rw [parameterGiven_eq] at run
  cases asks : asked args with
  | some p => exact ⟨p, rfl⟩
  | none =>
    rw [asks] at run
    cases run

theorem filterBranch_ensures (d : Design) (site : CallSite) (function : String) :
    Ensures (filterBranch site function) d fun b d₁ => d₁.filters.lookup site = some b := by
  refine Meets.get ?_
  split
  · rename_i b known
    exact Meets.pure known
  · exact Meets.set (Meets.pure (by simp))

theorem mathematical_eq (r : Resolver) (f : Function) (args : List Tree) :
    mathematical r f args = pure (match f.fold? args, r.config.simplify with
      | some v, true => .ofValue v
      | _, _ => .call f.name args none (f.summary (Tree.summaries args))) := by
  unfold mathematical
  cases f.fold? args <;> cases r.config.simplify <;> rfl

theorem function_ensures (r : Resolver) (d : Design) (site : CallSite) (f : Function)
    (args : List Tree) :
    Ensures (function r site f args) d fun _ _ =>
    (args.length < f.least || f.most < args.length) = false := by
  unfold function
  by_cases misfit : (args.length < f.least || f.most < args.length) = true
  · simp only [misfit, ↓reduceIte]
    split <;> exact Meets.fail trivial
  · unfold Ensures Meets
    split
    · exact eq_false_of_ne_true misfit
    · trivial

/-- What a call makes of its arguments, where `d₁` is the design that it leaves. -/
inductive Called (r : Resolver) (site : CallSite) (name : String) (args : List Tree) (d₁ : Design) :
    Tree → Prop
  | value (v : Value) : Called r site name args d₁ (.ofValue v)
  | access {a : Access} {ref : BranchRef} (known : r.config.access? name = some a)
    (inside : ref.branch < d₁.circuit.branches.size) :
    Called r site name args d₁ (.access ⟨name, ref, d₁.circuit.probe ref.branch a⟩)
  | given {f : Function} {x : Tree} {p : Symbol} {s : Summary}
    (found : Function.find? name = some f)
    (role : f.role = .given) (single : args = [x]) (asks : asked [x] = some p) :
    Called r site name args d₁ (.call name args none s)
  | filter {f : Function} {b : BranchId} {s : Summary} (found : Function.find? name = some f)
    (role : f.role = .filter) (values : ∀ u ∈ args, u.IsValue)
      (known : d₁.filters.lookup site = some b) :
    Called r site name args d₁ (.call name args (some b) s)
  | function {f : Function} {s : Summary} (found : Function.find? name = some f)
    (role : f.role ≠ .given)
    (values : ∀ u ∈ args, u.IsValue) : Called r site name args d₁ (.call name args none s)

theorem called_of_access {a : Access} (known : r.config.access? name = some a)
    (run : access name a args d = .ok t d₁) : Called r site name args d₁ t := by
  obtain ⟨ref, d', named, rest⟩ := bind_eq_ok.mp run
  cases rest
  have inside := lt_of_names ((branch_ensures d name args).of_ok named)
  have taken := Circuit.extends_of_uncounted (Circuit.uncounted_take d'.circuit ref.branch a.probe)
  have probe : (d'.circuit.take ref.branch a.probe).probe ref.branch a = d'.circuit.probe
      ref.branch a := by
    rw [Circuit.probe, Circuit.probe, Circuit.base_remains taken.toRemains inside]
  rw [← probe]
  exact .access known (Nat.lt_of_lt_of_le inside taken.branches)

theorem called_of_function {f : Function} (found : Function.find? name = some f)
    (run : function r site f args d = .ok t d₁) : Called r site name args d₁ t := by
  have fits := (function_ensures r d site f args).of_ok run
  have named : f.name = name := by simpa using List.find?_some found
  simp only [function, fits, Bool.false_eq_true, ↓reduceIte, named] at run
  cases role : f.role with
  | given =>
    simp only [role] at run
    obtain ⟨p, asks⟩ := asked_of_parameterGiven run
    rw [parameterGiven_of_asked r d name asks] at run
    cases run
    unfold answer
    split
    · exact .value _
    · simp only [Bool.or_eq_false_iff, decide_eq_false_iff_not, Nat.not_lt,
        Function.most_of_given f (Function.mem_all_of_find? found) role] at fits
      cases args with
      | nil => cases asks
      | cons x xs =>
        obtain rfl : xs = [] := List.eq_nil_of_length_eq_zero (by simpa using fits.2)
        exact .given found role rfl asks
  | filter =>
    simp only [role] at run
    obtain ⟨_, d', values, rest⟩ := bind_eq_ok.mp run
    unfold filter at rest
    split at rest
    · cases rest
      exact .value _
    · obtain ⟨b, d'', known, last⟩ := bind_eq_ok.mp rest
      cases last
      have kept : d''.filters.lookup site = some b :=
        (filterBranch_ensures d' site name).of_ok known
      exact .filter found role (values_of_requireValues values) kept
  | environment | unary _ | binary _ =>
    simp only [role] at run
    obtain ⟨_, d', values, rest⟩ := bind_eq_ok.mp run
    rw [mathematical_eq, named] at rest
    cases rest
    split
    · exact .value _
    · exact .function found (by simp [role]) (values_of_requireValues values)

theorem called_of_call {scope : ScopeId} (run : call r scope site name args d = .ok t d₁) :
    Called r site name args d₁ t := by
  unfold call at run
  cases accessed : r.config.access? name with
  | some a =>
    simp only [accessed] at run
    exact called_of_access accessed run
  | none =>
    cases found : Function.find? name with
    | some f =>
      simp only [accessed, found] at run
      exact called_of_function found run
    | none =>
      simp only [accessed, found] at run
      obtain ⟨d', _, _, rest⟩ := bind_eq_ok.mp run
      cases bound : d'.lookup? scope name <;> simp only [bound] at rest <;> cases rest

end Calls

section Walk

variable {d d₁ : Design} {site : List Nat} {items : List Tree} {r : Resolver}
    {scope : ScopeId} {key : Nat}

def choice (r : Resolver) (c : Tree) (thn els : Raw) (first second : DesignM (Stack Tree)) :
    DesignM Tree := do
  requireValue c
  match chosen? r c with
  | some true => single thn (← first)
  | some false => single els (← second)
  | none => do
    let t ← single thn (← first)
    let e ← DesignM.orRelease [t] do single els (← second)
    return .ternary c t e (.select c.summary t.summary e.summary)

theorem choice_of_ok {c t : Tree} {thn els : Raw} {first second : DesignM (Stack Tree)}
    (run : choice r c thn els first second d = .ok t d₁) : c.valueFault? d.circuit = none ∧
      (chosen? r c = some true ∧ (first >>= single thn) d = .ok t d₁ ∨
        chosen? r c = some false ∧ (second >>= single els) d = .ok t d₁ ∨
        chosen? r c = none ∧ ∃ u v d', (first >>= single thn) d = .ok u d' ∧
          (second >>= single els) d' = .ok v d₁ ∧
          t = .ternary c u v (.select c.summary u.summary v.summary)) := by
  obtain ⟨_, _, value, rest⟩ := bind_eq_ok.mp run
  obtain ⟨fine, rfl⟩ := (requireValue_ensures d c).of_ok value
  refine ⟨fine, ?_⟩
  cases chosen : chosen? r c with
  | some taken =>
    rw [chosen] at rest
    cases taken with
    | true => exact .inl ⟨rfl, rest⟩
    | false => exact .inr (.inl ⟨rfl, rest⟩)
  | none =>
    rw [chosen] at rest
    obtain ⟨stack, d', worked, afterFirst⟩ := bind_eq_ok.mp rest
    obtain ⟨u, d₂, one, afterThn⟩ := bind_eq_ok.mp afterFirst
    obtain ⟨v, d₃, other, last⟩ := bind_eq_ok.mp afterThn
    cases last
    exact .inr (.inr ⟨rfl, u, v, d₂, bind_eq_ok.mpr ⟨stack, d', worked, one⟩,
      orRelease_eq_ok.mp other, rfl⟩)

/-- What one token does to the items of a stack. -/
inductive Stepped (r : Resolver) (scope : ScopeId) (key : Nat) (site : List Nat) :
    List Tree → Token → Design → List Tree → Design → Prop
  | literal (items : List Tree) (v : Value) (d : Design) :
    Stepped r scope key site items (.literal v) d (.ofValue v :: items) d
  | marker (items : List Tree) (d : Design) : Stepped r scope key site items .marker d
    (.marker :: items) d
  | arguments {items args : List Tree} {below : Stack Tree} {d : Design}
    (popped : Stack.popUntil? ⟨items⟩ Tree.isMarker = some (args, below)) :
    Stepped r scope key site items .arguments d (.arguments args :: below.items) d
  | called {args below : List Tree} {name : String} {t : Tree} {d d₁ : Design}
    (made : call r scope ⟨r.tag, key, site⟩ name args d = .ok t d₁) :
    Stepped r scope key site (.arguments args :: below) (.identifier name) d (t :: below) d₁
  | named {items : List Tree} {name : String} {d : Design}
    (plain : ∀ args below, items ≠ .arguments args :: below) :
    Stepped r scope key site items (.identifier name) d (identifier d scope name :: items) d
  | unary {op : UnaryOp} {x t : Tree} {below : List Tree} {d d₁ : Design}
    (made : Resolve.unary r op x d = .ok t d₁) :
    Stepped r scope key site (x :: below) (.unary op) d (t :: below) d₁
  | binary {op : BinaryOp} {x y t : Tree} {below : List Tree} {d d₁ : Design}
    (made : Resolve.binary r op x y d = .ok t d₁) :
    Stepped r scope key site (y :: x :: below) (.binary op) d (t :: below) d₁
  | ternary {thn els : Raw} {c t : Tree} {below : List Tree} {d d₁ : Design}
    (made : choice r c thn els (steps r scope key (0 :: site) 0 .empty thn)
      (steps r scope key (1 :: site) 0 .empty els) d = .ok t d₁) :
    Stepped r scope key site (c :: below) (.ternary thn els) d (t :: below) d₁

theorem replace_eq_ok {held below : List Tree} {act : DesignM Tree} {stack : Stack Tree} :
    (DesignM.orRelease held act >>= fun t => pure ⟨t :: below⟩) d = .ok stack d₁ ↔
      ∃ t, act d = .ok t d₁ ∧ stack = ⟨t :: below⟩ := by
  constructor
  · intro run
    obtain ⟨t, d', made, last⟩ := bind_eq_ok.mp run
    cases last
    exact ⟨t, orRelease_eq_ok.mp made, rfl⟩
  · rintro ⟨t, made, rfl⟩
    exact bind_eq_ok.mpr ⟨t, d₁, orRelease_eq_ok.mpr made, rfl⟩

theorem step_identifier {name : String} (plain : ∀ args below, items ≠ .arguments args :: below) :
    step r scope key site ⟨items⟩ (.identifier name) = do
      return ⟨identifier (← get) scope name :: items⟩ := by
  rw [step]
  split
  · rename_i args below same
    exact absurd same (plain args below)
  · rfl

theorem stepped_of_step {items₁ : List Tree} {t : Token}
    (run : step r scope key site ⟨items⟩ t d = .ok ⟨items₁⟩ d₁) :
    Stepped r scope key site items t d items₁ d₁ := by
  cases t with
  | literal v =>
    rw [step] at run
    cases run
    exact .literal items v d
  | marker =>
    rw [step] at run
    cases run
    exact .marker items d
  | arguments =>
    rw [step] at run
    cases popped : Stack.popUntil? ⟨items⟩ Tree.isMarker with
    | none =>
      simp only [popped] at run
      cases orRelease_eq_ok.mp run
    | some x =>
      simp only [popped] at run
      cases run
      exact .arguments popped
  | identifier name =>
    by_cases called : ∃ args below, items = .arguments args :: below
    · obtain ⟨args, below, rfl⟩ := called
      rw [step] at run
      obtain ⟨t, made, same⟩ := replace_eq_ok.mp run
      cases same
      exact .called made
    · have plain : ∀ args below, items ≠ .arguments args :: below :=
        fun args below same => called ⟨args, below, same⟩
      rw [step_identifier plain] at run
      cases run
      exact .named plain
  | unary op =>
    rw [step] at run
    match items with
    | [] => cases run
    | x :: below =>
      obtain ⟨t, made, same⟩ := replace_eq_ok.mp run
      cases same
      exact .unary made
  | binary op =>
    rw [step] at run
    match items with
    | [] => cases orRelease_eq_ok.mp run
    | [y] => cases orRelease_eq_ok.mp run
    | y :: x :: below =>
      obtain ⟨t, made, same⟩ := replace_eq_ok.mp run
      cases same
      exact .binary made
  | ternary thn els =>
    rw [step] at run
    match items with
    | [] => cases run
    | c :: below =>
      obtain ⟨t, made, same⟩ := replace_eq_ok.mp run
      cases same
      exact .ternary made

theorem Stepped.run {items₁ : List Tree} {t : Token}
    (h : Stepped r scope key site items t d items₁ d₁) :
    step r scope key site ⟨items⟩ t d = .ok ⟨items₁⟩ d₁ := by
  cases h with
  | literal v | marker =>
    rw [step]
    rfl
  | arguments popped =>
    rw [step]
    simp only [popped]
    rfl
  | called made =>
    rw [step]
    exact replace_eq_ok.mpr ⟨_, made, rfl⟩
  | named plain =>
    rw [step_identifier plain]
    rfl
  | unary made | binary made | ternary made =>
    rw [step]
    exact replace_eq_ok.mpr ⟨_, made, rfl⟩

theorem mem_of_popUntil? {args : List Tree} {below : Stack Tree}
    (popped : Stack.popUntil? ⟨items⟩ Tree.isMarker = some (args, below)) :
    ∃ top, top.isMarker = true ∧ ∀ t, t ∈ items ↔ t ∈ args ∨ t = top ∨ t ∈ below.items := by
  unfold Stack.popUntil? at popped
  split at popped
  · rename_i top rest dropped
    cases popped
    refine ⟨top, ?_, fun t => ?_⟩
    · have first := List.head?_dropWhile_not (fun t => !Tree.isMarker t) items
      rw [dropped] at first
      simpa using first
    · have whole : items = items.takeWhile (fun t => !Tree.isMarker t) ++ top :: rest := by
        rw [← dropped, List.takeWhile_append_dropWhile]
      conv_lhs => rw [whole]
      simp only [List.mem_append, List.mem_cons, List.mem_reverse]
  · cases popped

/-- A property that resolution of tokens that are `fit` gives to all parts of the trees that it
makes, where `z` is the design that it ends with. -/
structure Partwise (r : Resolver) (scope : ScopeId) (fit : Token → Prop) (z : Design)
    (p : Tree → Prop) : Prop where
  inner : ∀ {thn els}, fit (.ternary thn els) → (∀ t ∈ thn, fit t) ∧ ∀ t ∈ els, fit t
  value : ∀ v, p (.ofValue v)
  marker : p .marker
  arguments : ∀ items, p (.arguments items)
  named : ∀ {name}, fit (.identifier name) → (identifier z scope name).All p
  called : ∀ {site name args t d d₁}, fit (.identifier name) → Ready d args →
    (∀ u ∈ args, u.All p) →
    call r scope site name args d = .ok t d₁ → d₁.WellFormed → d₁.Extends z → t.All p
  unary : ∀ {op x t d d₁}, x.All p → unary r op x d = .ok t d₁ → t.All p
  binary : ∀ {op x y t d d₁}, x.All p → y.All p → binary r op x y d = .ok t d₁ → t.All p
  chosen : ∀ {c t e}, c.IsValue → t.IsValue → e.IsValue → chosen? r c = none →
    p (.ternary c t e (.select c.summary t.summary e.summary))

/-- An arm of a choice that keeps the books, and leaves trees with the property. -/
structure Settles (z : Design) (p : Tree → Prop) (act : DesignM (Stack Tree)) : Prop where
  grows : ∀ {stack d d₁}, Ready d [] → act d = .ok stack d₁ →
    d.Extends d₁ ∧ d₁.snapshot = d.snapshot ∧ Ready d₁ stack.items
  all : ∀ {stack d d₁}, Ready d [] → act d = .ok stack d₁ → d₁.Extends z → z.snapshot = d.snapshot →
    ∀ t ∈ stack.items, t.All p

section Parts

variable {t : Tree} {fit : Token → Prop} {z : Design} {p : Tree → Prop}

theorem Settles.arm {act : DesignM (Stack Tree)} (h : Settles z p act) {raw : Raw}
    (ready : Ready d [])
    (run : (act >>= single raw) d = .ok t d₁) : d.Extends d₁ ∧ d₁.snapshot = d.snapshot ∧
      Ready d₁ [] ∧ t.IsValue ∧ (d₁.Extends z → z.snapshot = d.snapshot → t.All p) := by
  obtain ⟨stack, d', worked, rest⟩ := bind_eq_ok.mp run
  obtain ⟨items, fine, rfl⟩ := single_eq_ok.mp rest
  obtain ⟨grown, same, ready'⟩ := h.grows ready worked
  exact ⟨grown, same, ready'.aside, Tree.isValue_of_fault fine,
    fun later reads => h.all ready worked later reads t (by rw [items]; exact .head _)⟩

theorem Partwise.choice (h : Partwise r scope fit z p) {c : Tree} {thn els : Raw}
    {first second : DesignM (Stack Tree)} (firstSettles : Settles z p first)
    (secondSettles : Settles z p second) (ready : Ready d []) (all : c.All p)
    (run : Resolve.choice r c thn els first second d = .ok t d₁) (later : d₁.Extends z)
    (reads : z.snapshot = d.snapshot) : t.All p := by
  obtain ⟨fine, ⟨_, arm⟩ | ⟨_, arm⟩ | ⟨unknown, u, v, d', one, other, rfl⟩⟩ := choice_of_ok run
  · exact (firstSettles.arm ready arm).2.2.2.2 later reads
  · exact (secondSettles.arm ready arm).2.2.2.2 later reads
  · obtain ⟨_, same, ready', thnValue, thnAll⟩ := firstSettles.arm ready one
    obtain ⟨grown, _, _, elsValue, elsAll⟩ := secondSettles.arm ready' other
    exact Tree.all_ternary.mpr ⟨all, thnAll (grown.trans later) reads,
      elsAll later (reads.trans same.symm),
      h.chosen (Tree.isValue_of_fault fine) thnValue elsValue unknown⟩

mutual

theorem Partwise.step (h : Partwise r scope fit z p) (site : List Nat) (stack : Stack Tree)
    (t : Token) {stack₁ : Stack Tree} {d d₁ : Design} (fits : fit t) (ready : Ready d stack.items)
    (run : Resolve.step r scope key site stack t d = .ok stack₁ d₁) (later : d₁.Extends z)
    (reads : z.snapshot = d.snapshot) (all : ∀ u ∈ stack.items, u.All p) :
    ∀ u ∈ stack₁.items, u.All p := by
  obtain ⟨_, _, ready₁⟩ := ready.step run
  obtain ⟨items⟩ := stack
  obtain ⟨items₁⟩ := stack₁
  cases stepped_of_step run with
  | literal => exact List.forall_mem_cons.mpr ⟨Tree.all_literal.mpr (h.value _), all⟩
  | marker => exact List.forall_mem_cons.mpr ⟨(Tree.all_leaf rfl).mpr h.marker, all⟩
  | arguments popped =>
    obtain ⟨top, _, whole⟩ := mem_of_popUntil? popped
    refine List.forall_mem_cons.mpr ⟨Tree.all_arguments.mpr ⟨?_, h.arguments _⟩, ?_⟩
    · exact fun u mem => all u ((whole u).mpr (.inl mem))
    · exact fun u mem => all u ((whole u).mpr (.inr (.inr mem)))
  | called made =>
    obtain ⟨args, rest⟩ := List.forall_mem_cons.mp all
    exact List.forall_mem_cons.mpr
      ⟨h.called fits ready.arguments (Tree.all_arguments.mp args).1 made
      ready₁.wellFormed later, rest⟩
  | named =>
    refine List.forall_mem_cons.mpr ⟨?_, all⟩
    rw [← identifier_eq later reads]
    exact h.named fits
  | unary made =>
    obtain ⟨x, rest⟩ := List.forall_mem_cons.mp all
    exact List.forall_mem_cons.mpr ⟨h.unary x made, rest⟩
  | binary made =>
    obtain ⟨y, others⟩ := List.forall_mem_cons.mp all
    obtain ⟨x, rest⟩ := List.forall_mem_cons.mp others
    exact List.forall_mem_cons.mpr ⟨h.binary x y made, rest⟩
  | ternary made =>
    rename_i thn els c t below
    obtain ⟨cond, rest⟩ := List.forall_mem_cons.mp all
    obtain ⟨thnFits, elsFits⟩ := h.inner fits
    have first : Settles z p (Resolve.steps r scope key (0 :: site) 0 .empty thn) :=
      ⟨fun ready => ready.steps, fun ready run later reads =>
        Partwise.steps h (0 :: site) 0 .empty thn thnFits ready run later reads nofun⟩
    have second : Settles z p (Resolve.steps r scope key (1 :: site) 0 .empty els) :=
      ⟨fun ready => ready.steps, fun ready run later reads =>
        Partwise.steps h (1 :: site) 0 .empty els elsFits ready run later reads nofun⟩
    exact List.forall_mem_cons.mpr ⟨h.choice first second ready.aside cond made later reads, rest⟩

theorem Partwise.steps (h : Partwise r scope fit z p) (site : List Nat) (k : Nat)
    (stack : Stack Tree)
    (ts : List Token) {stack₁ : Stack Tree} {d d₁ : Design} (fits : ∀ t ∈ ts, fit t)
    (ready : Ready d stack.items)
    (run : Resolve.steps r scope key site k stack ts d = .ok stack₁ d₁)
    (later : d₁.Extends z) (reads : z.snapshot = d.snapshot) (all : ∀ u ∈ stack.items, u.All p) :
    ∀ u ∈ stack₁.items, u.All p := by
  cases ts with
  | nil =>
    rw [Resolve.steps] at run
    cases run
    exact all
  | cons t ts =>
    rw [Resolve.steps] at run
    obtain ⟨first, rest⟩ := List.forall_mem_cons.mp fits
    obtain ⟨stack', d', one, others⟩ := bind_eq_ok.mp run
    obtain ⟨_, same, ready'⟩ := ready.step one
    obtain ⟨grown, _, _⟩ := ready'.steps others
    exact Partwise.steps h site (k + 1) stack' ts rest ready' others later (reads.trans same.symm)
      (Partwise.step h (k :: site) stack t first ready one (grown.trans later) reads all)

end

/-- The tree of an expression has the property in all its parts, if it holds at the design that the
resolution ends with. -/
theorem Partwise.resolve {s : Source} (wf : d.WellFormed) (run : s.resolve r scope d = .ok t d₁)
    (fits : ∀ t ∈ s.raw, fit t) (h : d.Extends d₁ → d₁.WellFormed → Partwise r scope fit d₁ p) :
    d.Extends d₁ ∧ d₁.WellFormed ∧ t.IsValue ∧ t.All p := by
  have begun := Ready.initial wf
  obtain ⟨stack, d', worked, rest⟩ := bind_eq_ok.mp run
  obtain ⟨items, fine, rfl⟩ := single_eq_ok.mp rest
  obtain ⟨grown, same, ready⟩ := begun.steps worked
  refine ⟨grown, ready.wellFormed, Tree.isValue_of_fault fine, ?_⟩
  refine (h grown ready.wellFormed).steps [] 0 .empty s.raw fits begun worked (.refl d₁)
    same nofun t ?_
  rw [items]
  exact .head _

/-- A property of parts that every operation gives, simplified or not, and every call. -/
structure Lasting (r : Resolver) (scope : ScopeId) (z : Design) (p : Tree → Prop) : Prop where
  value : ∀ v, p (.ofValue v)
  marker : p .marker
  arguments : ∀ items, p (.arguments items)
  named : ∀ name, (identifier z scope name).All p
  called : ∀ {site name args d₁ t}, Called r site name args d₁ t → (∀ u ∈ args, u.All p) →
    d₁.WellFormed →
    d₁.Extends z → t.All p
  unary : ∀ op x, x.IsValue → p (Simplify.plainUnary op x)
  binary : ∀ op l r, l.IsValue → r.IsValue → p (Simplify.plainBinary op l r)
  ternary : ∀ c t e s, c.IsValue → t.IsValue → e.IsValue → p (.ternary c t e s)
  operand : ∀ op l r s, p (.binary op l r s) → l.IsValue

theorem Lasting.closed (h : Lasting r scope z p) : Simplify.Closed p :=
  ⟨h.value, fun op x value _ => h.unary op x value, fun op l r left right _ => h.binary op l r left
    right, h.operand⟩

theorem Lasting.partwise (h : Lasting r scope z p) : Partwise r scope (fun _ => True) z p where
  inner _ := ⟨fun _ _ => trivial, fun _ _ => trivial⟩
  value := h.value
  marker := h.marker
  arguments := h.arguments
  named _ := h.named _
  called _ _ all run wf later := h.called (called_of_call run) all wf later
  unary all run := by
    obtain ⟨fine, _, rfl⟩ := (unary_ensures r _ _ _).of_ok run
    split
    · exact Simplify.all_of_unary h.closed _ (Tree.isValue_of_fault fine) all
    · exact Tree.all_unary.mpr ⟨all, h.unary _ _ (Tree.isValue_of_fault fine)⟩
  binary left right run := by
    obtain ⟨leftFine, rightFine, made⟩ := (binary_ensures r _ _ _ _).of_ok run
    have leftValue := Tree.isValue_of_fault leftFine
    have rightValue := Tree.isValue_of_fault rightFine
    split at made
    · rw [made]
      exact Simplify.all_of_binary h.closed _ leftValue rightValue left right
    · rw [made.2]
      exact Tree.all_binary.mpr ⟨left, right, h.binary _ _ _ leftValue rightValue⟩
  chosen cond thn els _ := h.ternary _ _ _ _ cond thn els

end Parts

end Walk

end Analog.Resolve
