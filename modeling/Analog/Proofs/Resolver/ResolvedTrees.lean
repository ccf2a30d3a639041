import Analog.Proofs.Parser.Rereading
import Analog.Proofs.Resolver.Repeatability

/-!
Resolved trees. Every part of a tree that was resolved with simplification says what it would be
resolved to: a name means the part that stands for it, an access points to its branch by names, and
an operation or a call is one that simplification leaves as it is.
-/
namespace Analog

mutual

def Token.Worded : Token → Prop
  | .identifier name => Lexeme.IsWord .identifier name.toList
  | .ternary thn els => Token.WordedAll thn ∧ Token.WordedAll els
  | _ => True

def Token.WordedAll : List Token → Prop
  | [] => True
  | t :: ts => t.Worded ∧ Token.WordedAll ts

end

theorem Token.wordedAll_append {ts us : List Token} (first : Token.WordedAll ts)
    (second : Token.WordedAll us) : Token.WordedAll (ts ++ us) := by
  induction ts with
  | nil => exact second
  | cons t ts ih => exact ⟨first.1, ih first.2⟩

namespace Phrase

variable {literal : Value → String → Prop}

mutual

theorem worded_raw (p : Phrase) (h : p.Over literal fun x => Lexeme.IsWord .identifier x.toList) :
    Token.WordedAll p.raw := by
  cases p with
  | literal v text => exact ⟨trivial, trivial⟩
  | name x => exact ⟨h, trivial⟩
  | call f args =>
    exact ⟨trivial, Token.wordedAll_append (worded_rawAll args h.2) ⟨trivial, h.1, trivial⟩⟩
  | unary op x => exact Token.wordedAll_append (worded_raw x h) ⟨trivial, trivial⟩
  | binary op l r =>
    exact Token.wordedAll_append (Token.wordedAll_append (worded_raw l h.1) (worded_raw r h.2))
      ⟨trivial, trivial⟩
  | ternary c t e =>
    exact Token.wordedAll_append (worded_raw c h.1)
      ⟨⟨worded_raw t h.2.1, worded_raw e h.2.2⟩, trivial⟩

theorem worded_rawAll (ps : List Phrase)
    (h : OverAll literal (fun x => Lexeme.IsWord .identifier x.toList) ps) :
    Token.WordedAll (rawAll ps) := by
  cases ps with
  | nil => trivial
  | cons p ps => exact Token.wordedAll_append (worded_raw p h.1) (worded_rawAll ps h.2)

end

end Phrase

theorem Raw.worded_of_ofText {s : SourceText} {raw : Raw} (read : Raw.ofText s = .ok raw) :
    Token.WordedAll raw := by
  obtain ⟨p, rfl, made⟩ := phrase_of_ofText read
  exact p.worded_raw made

namespace Resolve

structure Located (d : Design) (scope : ScopeId) (i : NodeId) : Prop where
  inside : i < d.circuit.nodes.size
  word : Lexeme.IsWord .identifier (d.circuit.nodeName i).toList
  named : (identifier d scope (d.circuit.nodeName i)).nodeId? = some i

/-- A branch that an access can point to by names: an alias, or the branch between two nodes. -/
inductive Pointed (d : Design) (scope : ScopeId) : BranchRef → Prop
  | named {name : String} {b : BranchId} (word : Lexeme.IsWord .identifier name.toList)
    (deferred : identifier d scope name = .deferred name)
      (found : d.circuit.lookup? name = some b) :
    Pointed d scope ⟨b, false⟩
  | between {p n : NodeId} {ref : BranchRef} (left : Located d scope p)
    (right : n = ground ∨ Located d scope n)
      (found : d.circuit.connect p n = .ok (ref, d.circuit)) :
    Pointed d scope ref

inductive Kept (d : Design) (f : Function) : List Tree → Summary → Prop
  | given {p : Symbol} (role : f.role = .given) (unknown : (d.parameterOf p.id).given = none) :
    Kept d f [.parameter p] (.fixed true)
  | plain {args : List Tree} (given : f.role ≠ .given) (filter : f.role ≠ .filter)
    (values : ∀ t ∈ args, t.IsValue) (unknown : f.fold? args = none) :
    Kept d f args (f.summary (Tree.summaries args))

def Resolved (r : Resolver) (scope : ScopeId) (d : Design) : Tree → Prop
  | .literal _ o => ∀ p, o = some p → (d.parameterOf p.id).given.isSome
  | .parameter p =>
    Lexeme.IsWord .identifier p.name.toList ∧ identifier d scope p.name = .parameter p
  | .variable v s =>
    Lexeme.IsWord .identifier v.name.toList ∧ identifier d scope v.name = .variable v s
  | .declaration _ _ => False
  | .access q => Lexeme.IsWord .identifier q.function.toList ∧
    r.config.access? q.function = some q.probe.access ∧
    q.probe = d.circuit.probe q.ref.branch q.probe.access ∧ Pointed d scope q.ref
  | .node i => Located d scope i
  | .port i => Located d scope i
  | .unary op x s => x.IsValue ∧ Simplify.unary op x = .unary op x s
  | .binary op l y s => l.IsValue ∧ y.IsValue ∧ Simplify.binary op l y = ⟨.binary op l y s, none⟩
  | .ternary c t e s => (c.IsValue ∧ t.IsValue ∧ e.IsValue) ∧ chosen? r c = none ∧
    s = .select c.summary t.summary e.summary
  | .call name args none s => Lexeme.IsWord .identifier name.toList ∧
    (args ≠ [] → r.config.access? name = none) ∧ ∃ f, Function.find? name = some f ∧
    (args.length < f.least || f.most < args.length) = false ∧ Kept d f args s
  | .call _ _ (some _) _ => True
  | .arguments _ => True
  | .marker => True
  | .deferred name =>
    Lexeme.IsWord .identifier name.toList ∧ identifier d scope name = .deferred name

theorem all_folded (r : Resolver) (scope : ScopeId) (d : Design) (v : Value) :
    (Tree.literal v none).All (Resolved r scope d) := by
  refine Tree.all_literal.mpr fun p taken => ?_
  cases taken

theorem closed_resolved (r : Resolver) (scope : ScopeId) (d : Design) :
    Simplify.Closed (Resolved r scope d) where
  folded v := (all_folded r scope d v).self
  unary _ _ value same := ⟨value, same⟩
  binary _ _ _ left right same := ⟨left, right, same⟩
  operand _ _ _ _ h := h.1

section Steps

variable {f : Function} {name : String} {args : List Tree} {t : Tree} {r : Resolver}
  {scope : ScopeId} {d d₁ z : Design}

theorem role_of_least : ∀ f ∈ Function.all, f.least = 0 → f.role = .environment := by
  simp [Function.all, Function.ofUnary, Function.ofBinary]

theorem fold?_of_environment (role : f.role = .environment) (args : List Tree) :
    f.fold? args = none := by
  simp [Function.fold?, Function.value?, role]

theorem nodeName_of_bound {x : Binding} (faithful : z.Faithful)
    (bound : z.lookup? scope name = some x) : x.Named z.circuit name := by
  obtain ⟨s, _, found⟩ := List.exists_of_findSome?_eq_some bound
  exact faithful.bindings s (name, x) (mem_of_lookup found)

theorem located_of_bound {i : NodeId} (word : Lexeme.IsWord .identifier name.toList)
    (inside : i < z.circuit.nodes.size) (named : z.circuit.nodeName i = name)
    (means : (identifier z scope name).nodeId? = some i) : Located z scope i :=
  ⟨inside, named.symm ▸ word, by rw [named]; exact means⟩

theorem resolved_unbound (word : Lexeme.IsWord .identifier name.toList)
    (absent : Function.find? name = none → identifier z scope name = .deferred name)
    (present : ∀ f, Function.find? name = some f → identifier z scope name =
      if f.least == 0 then .call name [] none (f.summary []) else .deferred name) :
    (identifier z scope name).All (Resolved r scope z) := by
  cases found : Function.find? name with
  | none =>
    have same := absent found
    rw [same]
    exact (Tree.all_leaf rfl).mpr ⟨word, same⟩
  | some f =>
    have same := present f found
    split at same
    · rename_i least
      have role := role_of_least f (Function.mem_all_of_find? found) (beq_iff_eq.mp least)
      rw [same]
      refine Tree.all_call.mpr ⟨List.forall_mem_nil _, trivial, word,
        fun filled => absurd rfl filled, f, found, ?_, ?_⟩
      · simp [beq_iff_eq.mp least]
      · exact .plain (by simp [role]) (by simp [role]) (List.forall_mem_nil _)
          (fold?_of_environment role [])
    · rw [same]
      exact (Tree.all_leaf rfl).mpr ⟨word, same⟩

theorem resolved_identifier (wf : z.WellFormed) (faithful : z.Faithful)
    (word : Lexeme.IsWord .identifier name.toList) :
    (identifier z scope name).All (Resolved r scope z) := by
  cases bound : z.lookup? scope name with
  | none =>
    exact resolved_unbound word (fun found => by simp only [identifier, bound, found])
      fun f found => by simp only [identifier, bound, found]
  | some x =>
    have named := nodeName_of_bound faithful bound
    have inside := wf.lookup? bound
    cases x with
    | branch b =>
      exact resolved_unbound word (fun found => by simp only [identifier, bound, found])
        fun f found => by simp only [identifier, bound, found]
    | parameter p =>
      cases value : (z.parameterOf p).value with
      | some v =>
        have same : identifier z scope name = .literal v (some ⟨name, p⟩) := by
          simp only [identifier, bound, value]
        rw [same, Tree.all_literal]
        rintro _ ⟨⟩
        exact faithful.parameters p (.inl (by rw [value]; rfl))
      | none =>
        have same : identifier z scope name = .parameter ⟨name, p⟩ := by
          simp only [identifier, bound, value]
        rw [same]
        exact (Tree.all_leaf rfl).mpr ⟨word, same⟩
    | «variable» v =>
      have same : identifier z scope name = .variable ⟨name, v⟩ (z.snapshot v) := by
        simp only [identifier, bound]
      rw [same]
      exact (Tree.all_leaf rfl).mpr ⟨word, same⟩
    | port i =>
      have same : identifier z scope name = .port i := by simp only [identifier, bound]
      rw [same]
      exact (Tree.all_leaf rfl).mpr (located_of_bound word inside named.1 (by rw [same]; rfl))
    | net i =>
      have same : identifier z scope name = .node i := by simp only [identifier, bound]
      rw [same]
      exact (Tree.all_leaf rfl).mpr (located_of_bound word inside named.1 (by rw [same]; rfl))

theorem pointed_of_names {function : String} {ref : BranchRef} (ready : Ready d args)
    (all : ∀ t ∈ args, t.All (Resolved r scope z)) (names : Names d function args ref d₁)
    (later : d₁.Extends z) : Pointed z scope ref := by
  have node : ∀ t ∈ args, ∀ {p}, t.nodeId? = some p → Located z scope p := by
    intro t mem p known
    have here := (all t mem).self
    rcases node_of_nodeId? known with rfl | rfl
    · exact here
    · exact here
  have joined : ∀ {p n : NodeId}, Located z scope p → (n = ground ∨ Located z scope n) →
      p < d.circuit.nodes.size → n < d.circuit.nodes.size → connect function p n d = .ok ref d₁ →
      Pointed z scope ref := by
    intro p n left right hp hn run
    obtain ⟨c, made, rfl⟩ := (connect_ensures d function p n).of_ok run
    have more := (Circuit.connect_extends made).nodes
    exact .between left right (Circuit.connect_again made (Nat.lt_of_lt_of_le hp more)
      (Nat.lt_of_lt_of_le hn more) later.circuit.toRemains)
  have built := ready.built
  cases names with
  | named found =>
    obtain ⟨word, same⟩ := (all _ (.head _)).self
    exact .named word same (by rw [Circuit.lookup?_extends later.circuit, found])
  | grounded known run =>
    exact joined (node _ (.head _) known) (.inl rfl) (lt_of_nodeId? known built.1)
      ready.wellFormed.circuit.ground run
  | between left right run =>
    exact joined (node _ (.head _) left) (.inr (node _ (.tail _ (.head _)) right))
      (lt_of_nodeId? left built.1) (lt_of_nodeId? right built.2.1) run

theorem resolved_access {function : String} {a : Access} (ready : Ready d args)
    (word : Lexeme.IsWord .identifier function.toList) (known : r.config.access? function = some a)
    (all : ∀ t ∈ args, t.All (Resolved r scope z)) (run : access function a args d = .ok t d₁)
    (later : d₁.Extends z) : t.All (Resolved r scope z) := by
  obtain ⟨ref, d', named, rest⟩ := bind_eq_ok.mp run
  cases rest
  have later := (Design.extends_uncounted (Circuit.uncounted_take d'.circuit ref.branch
    a.probe)).trans later
  have inside := lt_of_names ((branch_ensures d function args).of_ok named)
  have pointed := pointed_of_names ready all ((branch_ensures d function args).of_ok named) later
  refine (Tree.all_leaf rfl).mpr ⟨word, known, ?_, pointed⟩
  simp only [Circuit.probe, Circuit.base_remains later.circuit.toRemains inside]

theorem resolved_given (simple : r.config.simplify = true)
    (word : Lexeme.IsWord .identifier name.toList)
    (plain : r.config.access? name = none) (found : Function.find? name = some f)
    (role : f.role = .given) (fits : (args.length < f.least || f.most < args.length) = false)
    (all : ∀ t ∈ args, t.All (Resolved r scope z)) (run : parameterGiven r f.name args d = .ok t d₁)
    (later : d₁.Extends z) : t.All (Resolved r scope z) := by
  obtain ⟨p, asks⟩ := asked_of_parameterGiven run
  rw [parameterGiven_of_asked r d f.name asks] at run
  cases run
  have same : z.parameterOf p.id = d.parameterOf p.id := by
    rw [Design.parameterOf, Design.parameterOf, later.parameters]
  unfold answer
  rw [simple]
  cases given : (d.parameterOf p.id).given with
  | some b => exact all_folded r scope z _
  | none =>
    have named : f.name = name := by simpa using List.find?_some found
    -- A literal that was taken from the parameter would make the answer known.
    have one : args = [.parameter p] := by
      have short : args.length ≤ 1 := by
        rw [Function.most_of_given f (Function.mem_all_of_find? found) role] at fits
        simp only [Bool.or_eq_false_iff, decide_eq_false_iff_not, Nat.not_lt] at fits
        exact fits.2
      cases args with
      | nil => cases asks
      | cons x xs =>
        obtain rfl : xs = [] := List.eq_nil_of_length_eq_zero (by simpa using short)
        cases x with
        | parameter q =>
          cases asks
          rfl
        | literal v o =>
          have told := (all _ (.head _)).self p asks
          rw [same, given] at told
          cases told
        | _ => cases asks
    rw [named]
    refine Tree.all_call.mpr ⟨all, trivial, word, fun _ => plain, f, found, fits, ?_⟩
    rw [one]
    exact .given role (by rw [same, given])

theorem resolved_function {site : CallSite} (simple : r.config.simplify = true)
    (word : Lexeme.IsWord .identifier name.toList) (plain : r.config.access? name = none)
    (found : Function.find? name = some f) (all : ∀ t ∈ args, t.All (Resolved r scope z))
    (run : function r site f args d = .ok t d₁) (later : d₁.Extends z) :
    t.All (Resolved r scope z) := by
  have fits := (function_ensures r d site f args).of_ok run
  have named : f.name = name := by simpa using List.find?_some found
  simp only [function, fits, Bool.false_eq_true, ↓reduceIte] at run
  cases role : f.role with
  | given =>
    simp only [role] at run
    exact resolved_given simple word plain found role fits all run later
  | filter =>
    simp only [role] at run
    obtain ⟨_, d', values, rest⟩ := bind_eq_ok.mp run
    unfold filter at rest
    split at rest
    · cases rest
      exact all_folded r scope z _
    · obtain ⟨b, _, _, last⟩ := bind_eq_ok.mp rest
      cases last
      exact Tree.all_call.mpr ⟨all, trivial, trivial⟩
  | environment | unary _ | binary _ =>
    simp only [role] at run
    obtain ⟨_, d', values, rest⟩ := bind_eq_ok.mp run
    rw [mathematical_eq, simple] at rest
    cases rest
    cases folded : f.fold? args with
    | some v => exact all_folded r scope z _
    | none =>
      rw [named]
      refine Tree.all_call.mpr ⟨all, trivial, word, fun _ => plain, f, found, fits, ?_⟩
      exact .plain (by simp [role]) (by simp [role]) (values_of_requireValues values) folded

theorem resolved_call {site : CallSite} (ready : Ready d args) (simple : r.config.simplify = true)
    (word : Lexeme.IsWord .identifier name.toList) (all : ∀ t ∈ args, t.All (Resolved r scope z))
    (run : call r scope site name args d = .ok t d₁) (later : d₁.Extends z) :
    t.All (Resolved r scope z) := by
  unfold call at run
  cases accessed : r.config.access? name with
  | some a =>
    simp only [accessed] at run
    exact resolved_access ready word accessed all run later
  | none =>
    cases found : Function.find? name with
    | some f =>
      simp only [accessed, found] at run
      exact resolved_function simple word accessed found all run later
    | none =>
      simp only [accessed, found] at run
      obtain ⟨d', _, _, rest⟩ := bind_eq_ok.mp run
      cases bound : d'.lookup? scope name with
      | none | some b =>
        simp only [bound] at rest
        cases rest

theorem resolved_unary {op : UnaryOp} {x : Tree} (simple : r.config.simplify = true)
    (all : x.All (Resolved r scope z)) (run : unary r op x d = .ok t d₁) :
    t.All (Resolved r scope z) := by
  obtain ⟨fine, _, rfl⟩ := (unary_ensures r d op x).of_ok run
  rw [if_pos simple]
  exact Simplify.all_of_unary (closed_resolved r scope z) op (Tree.isValue_of_fault fine) all

theorem resolved_binary {op : BinaryOp} {x y : Tree} (simple : r.config.simplify = true)
    (left : x.All (Resolved r scope z)) (right : y.All (Resolved r scope z))
    (run : binary r op x y d = .ok t d₁) : t.All (Resolved r scope z) := by
  obtain ⟨leftFine, rightFine, made⟩ := (binary_ensures r d op x y).of_ok run
  rw [if_pos simple] at made
  rw [made]
  exact Simplify.all_of_binary (closed_resolved r scope z) op (Tree.isValue_of_fault leftFine)
    (Tree.isValue_of_fault rightFine) left right

theorem wordedAll_iff {ts : List Token} : Token.WordedAll ts ↔ ∀ t ∈ ts, t.Worded := by
  induction ts with
  | nil => simp [Token.WordedAll]
  | cons t ts ih => simp [Token.WordedAll, ih]

theorem partwise_resolved (simple : r.config.simplify = true) (wf : z.WellFormed)
    (faithful : z.Faithful) : Partwise r scope Token.Worded z (Resolved r scope z) where
  inner worded := ⟨wordedAll_iff.mp worded.1, wordedAll_iff.mp worded.2⟩
  value v := (all_folded r scope z v).self
  marker := trivial
  arguments _ := trivial
  named worded := resolved_identifier wf faithful worded
  called worded ready all run _ later := resolved_call ready simple worded all run later
  unary all run := resolved_unary simple all run
  binary left right run := resolved_binary simple left right run
  chosen cond thn els chosen := ⟨⟨cond, thn, els⟩, chosen, rfl⟩

end Steps

end Resolve

/-- Every part of a tree that was resolved with simplification would be resolved to itself. -/
theorem Source.resolve_resolved {r : Resolver} {s : Source} {scope : ScopeId} {t : Tree}
    {d d₁ : Design} (wf : d.WellFormed) (faithful : d.Faithful) (simple : r.config.simplify = true)
    (worded : Token.WordedAll s.raw) (run : s.resolve r scope d = .ok t d₁) :
    d₁.WellFormed ∧ d₁.Faithful ∧ t.IsValue ∧ t.All (Resolve.Resolved r scope d₁) := by
  obtain ⟨grown, wf₁, value, all⟩ := Resolve.Partwise.resolve wf run
    (Resolve.wordedAll_iff.mp worded)
    fun grown wf₁ => Resolve.partwise_resolved simple wf₁ (faithful.extends wf grown)
  exact ⟨wf₁, faithful.extends wf grown, value, all⟩

end Analog
