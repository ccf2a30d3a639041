import Analog.Proofs.Device.CallCounters
import Analog.Proofs.Parser.Literals
import Analog.Proofs.Resolver.ResolvedTrees

/-!
Reading a printed tree back. The source text of a simplified tree is that of a phrase whose tokens,
worked off in the same scope, build the tree again, with literals that were taken from nowhere. The
one thing that can come in between is an access function that has the name of a function without
arguments.
-/
namespace Analog

/-- Designs that resolve alike: only counters, filters and the number of expressions may differ. -/
structure Design.Alike (d e : Design) : Prop where
  circuit : e.circuit.uncounted = d.circuit.uncounted
  scopes : e.scopes = d.scopes
  parameters : e.parameters = d.parameters
  vars : e.vars = d.vars

namespace Design.Alike

variable {d e : Design}

theorem refl (d : Design) : d.Alike d := ⟨rfl, rfl, rfl, rfl⟩

theorem recounted (h : d.Alike e) {c : Circuit} (same : c.uncounted = e.circuit.uncounted) :
    d.Alike { e with circuit := c } :=
  ⟨same.trans h.circuit, h.scopes, h.parameters, h.vars⟩

theorem parameterOf (h : d.Alike e) (p : ParameterId) : e.parameterOf p = d.parameterOf p := by
  rw [Design.parameterOf, Design.parameterOf, h.parameters]

theorem identifier (h : d.Alike e) (scope : ScopeId) (name : String) :
    Resolve.identifier e scope name = Resolve.identifier d scope name := by
  simp only [Resolve.identifier, Design.lookup?, Design.chain, Design.scopeOf, Design.parameterOf,
    Design.snapshot, Design.variableOf, h.scopes, h.parameters, h.vars]

theorem grown (h : d.Alike e) : d.circuit.Extends e.circuit :=
    Circuit.extends_of_uncounted h.circuit

theorem refText (h : d.Alike e) (ref : BranchRef) :
    e.circuit.refText ref = d.circuit.refText ref := by
  have same := congrArg (fun b : Branch => (b.name, b.p, b.n))
    (Circuit.branch_eq_of_uncounted h.circuit ref.branch)
  simp only [Branch.uncounted, Prod.mk.injEq] at same
  obtain ⟨name, p, n⟩ := same
  have refP : e.circuit.refP ref = d.circuit.refP ref := by rw [Circuit.refP, Circuit.refP, p, n]
  have refN : e.circuit.refN ref = d.circuit.refN ref := by rw [Circuit.refN, Circuit.refN, p, n]
  have nodeName : e.circuit.nodeName = d.circuit.nodeName := by
    funext i
    rw [Circuit.nodeName, Circuit.nodeName, Circuit.node, Circuit.node,
      Circuit.nodes_eq_of_uncounted h.circuit]
  rw [Circuit.refText, Circuit.refText, name, refP, refN, nodeName]

end Design.Alike

def Tree.isItem : Tree → Bool
  | .arguments _ => false
  | .marker => false
  | _ => true

theorem Tree.IsValue.isItem {t : Tree} (h : t.IsValue) : t.isItem = true := by
  have fine := h .empty
  cases t <;> first | rfl | cases fine

namespace Resolve

variable {r : Resolver} {scope : ScopeId} {z : Design}

/-- Tokens that turn one stack into another, for whoever resolves them in a design like `z`. -/
def Works (r : Resolver) (scope : ScopeId) (z : Design) (raw : Raw) (items items' : List Tree) :
    Prop :=
  ∀ tag key site k e, z.Alike e → ∃ e', z.Alike e' ∧
    steps ⟨r.config, tag⟩ scope key site k ⟨items⟩ raw e = .ok ⟨items'⟩ e'

def Free (items : List Tree) : Prop := ∀ args below, items ≠ .arguments args :: below

def Replays (r : Resolver) (scope : ScopeId) (z : Design) (raw : Raw) (t : Tree) : Prop :=
  ∀ items, Free items → Works r scope z raw items (t :: items)

def ReplaysAll (r : Resolver) (scope : ScopeId) (z : Design) (raw : Raw) (ts : List Tree) : Prop :=
  ∀ items, Free items → Works r scope z raw items (ts.reverse ++ items)

theorem free_cons {t : Tree} (item : t.isItem = true) (items : List Tree) : Free (t :: items) := by
  rintro args below ⟨⟩
  cases item

theorem free_marker (items : List Tree) : Free (.marker :: items) := nofun

theorem popUntil?_marker {args : List Tree} (proper : ∀ t ∈ args, t.isItem = true)
    (items : List Tree) :
    Stack.popUntil? ⟨args.reverse ++ .marker :: items⟩ Tree.isMarker = some (args, ⟨items⟩) := by
  have unmarked : ∀ t ∈ args.reverse, (!Tree.isMarker t) = true := by
    intro t mem
    have item := proper t (List.mem_reverse.mp mem)
    cases t <;> first | rfl | cases item
  simp only [Stack.popUntil?, List.dropWhile_append_of_pos unmarked,
    List.takeWhile_append_of_pos unmarked]
  simp [List.dropWhile, List.takeWhile, Tree.isMarker]

theorem steps_append {key : Nat} {site : List Nat} {k : Nat} {stack : Stack Tree}
    (ts us : List Token) : steps r scope key site k stack (ts ++ us) =
      steps r scope key site k stack ts >>= fun s =>
      steps r scope key site (k + ts.length) s us := by
  induction ts generalizing k stack with
  | nil => simp [steps]
  | cons t ts ih =>
    simp only [List.cons_append, steps, ih, bind_assoc, List.length_cons, Nat.add_assoc,
      Nat.add_comm 1]

namespace Works

variable {items : List Tree}

theorem trans {raw raw' : Raw} {items' items'' : List Tree}
    (first : Works r scope z raw items items') (second : Works r scope z raw' items' items'') :
    Works r scope z (raw ++ raw') items items'' := by
  intro tag key site k e like
  obtain ⟨e', like', run⟩ := first tag key site k e like
  obtain ⟨e'', like'', more⟩ := second tag key site (k + raw.length) e' like'
  refine ⟨e'', like'', ?_⟩
  rw [steps_append]
  exact bind_eq_ok.mpr ⟨_, e', run, more⟩

theorem nil : Works r scope z [] items items := by
  intro tag key site k e like
  exact ⟨e, like, by rw [steps]; rfl⟩

theorem one {t : Token} {items' : List Tree} (h : ∀ tag key site e, z.Alike e →
      ∃ e', z.Alike e' ∧ Stepped ⟨r.config, tag⟩ scope key site items t e items' e') :
    Works r scope z [t] items items' := by
  intro tag key site k e like
  obtain ⟨e', like', stepped⟩ := h tag key (k :: site) e like
  refine ⟨e', like', ?_⟩
  rw [steps]
  refine bind_eq_ok.mpr ⟨_, e', stepped.run, ?_⟩
  rw [steps]
  rfl

theorem literal (v : Value) : Works r scope z [.literal v] items (.ofValue v :: items) :=
  one fun _ _ _ e like => ⟨e, like, .literal items v e⟩

theorem marker : Works r scope z [.marker] items (.marker :: items) :=
  one fun _ _ _ e like => ⟨e, like, .marker items e⟩

theorem name (free : Free items) (x : String) :
    Works r scope z [.identifier x] items (identifier z scope x :: items) := by
  refine one fun _ _ _ e like => ⟨e, like, ?_⟩
  rw [← like.identifier scope x]
  exact .named free

theorem arguments {args : List Tree} (proper : ∀ t ∈ args, t.isItem = true) :
    Works r scope z [.arguments] (args.reverse ++ .marker :: items) (.arguments args :: items) :=
  one fun _ _ _ e like => ⟨e, like, .arguments (popUntil?_marker proper items)⟩

theorem called {args : List Tree} {f : String} {t : Tree} (h : ∀ tag site e, z.Alike e →
      ∃ e', z.Alike e' ∧ call ⟨r.config, tag⟩ scope site f args e = .ok t e') :
    Works r scope z [.identifier f] (.arguments args :: items) (t :: items) := by
  refine one fun tag key site e like => ?_
  obtain ⟨e', like', made⟩ := h tag ⟨tag, key, site⟩ e like
  exact ⟨e', like', .called made⟩

theorem unary (simple : r.config.simplify = true) {op : UnaryOp} {x t : Tree} (value : x.IsValue)
    (same : Simplify.unary op x = t) : Works r scope z [.unary op] (x :: items) (t :: items) := by
  refine one fun _ _ _ e like =>
    ⟨e, like, .unary (bind_eq_ok.mpr ⟨(), e, requireValue_eq_ok (value _), ?_⟩)⟩
  rw [if_pos simple, same]
  rfl

theorem binary (simple : r.config.simplify = true) {op : BinaryOp} {x y t : Tree} (left : x.IsValue)
    (right : y.IsValue) (same : Simplify.binary op x y = ⟨t, none⟩) :
    Works r scope z [.binary op] (y :: x :: items) (t :: items) := by
  refine one fun _ _ _ e like =>
    ⟨e, like, .binary (bind_eq_ok.mpr ⟨(), e, requireValue_eq_ok (left _),
    bind_eq_ok.mpr ⟨(), e, requireValue_eq_ok (right _), ?_⟩⟩)⟩
  rw [if_pos simple, same]
  rfl

theorem ternary {c t u : Tree} {thn els : Raw} (cond : c.IsValue) (first : t.IsValue)
    (second : u.IsValue) (unknown : chosen? r c = none) (thnReplays : Replays r scope z thn t)
    (elsReplays : Replays r scope z els u) :
    Works r scope z [.ternary thn els] (c :: items)
      (.ternary c t u (.select c.summary t.summary u.summary) :: items) := by
  refine one fun tag key site e like => ?_
  obtain ⟨e₁, like₁, thnRun⟩ := thnReplays [] nofun tag key (0 :: site) 0 e like
  obtain ⟨e₂, like₂, elsRun⟩ := elsReplays [] nofun tag key (1 :: site) 0 e₁ like₁
  have undecided : chosen? ⟨r.config, tag⟩ c = none := by
    rw [← unknown]
    cases c <;> rfl
  refine ⟨e₂, like₂, .ternary ?_⟩
  unfold choice
  refine bind_eq_ok.mpr ⟨(), e, requireValue_eq_ok (cond _), ?_⟩
  simp only [undecided]
  refine bind_eq_ok.mpr ⟨_, e₁, thnRun,
    bind_eq_ok.mpr ⟨t, e₁, single_eq_ok.mpr ⟨rfl, first _, rfl⟩, ?_⟩⟩
  refine bind_eq_ok.mpr ⟨u, e₂, orRelease_eq_ok.mpr ?_, rfl⟩
  exact bind_eq_ok.mpr ⟨_, e₂, elsRun, single_eq_ok.mpr ⟨rfl, second _, rfl⟩⟩

end Works

theorem replaysAll_cons {raw rest : Raw} {t : Tree} {ts : List Tree} (item : t.isItem = true)
    (first : Replays r scope z raw t) (others : ReplaysAll r scope z rest ts) :
    ReplaysAll r scope z (raw ++ rest) (t :: ts) := by
  intro items free
  have more := others (t :: items) (free_cons item items)
  rw [List.reverse_cons, List.append_assoc]
  exact (first items free).trans more

theorem replays_call {raw : Raw} {args : List Tree} {f : String} {t : Tree}
    (proper : ∀ t ∈ args, t.isItem = true) (inner : ReplaysAll r scope z raw args)
    (h : ∀ tag site e, z.Alike e → ∃ e', z.Alike e' ∧
      call ⟨r.config, tag⟩ scope site f args e = .ok t e') :
    Replays r scope z (.marker :: raw ++ [.arguments, .identifier f]) t := by
  intro items _
  exact (Works.marker.trans (inner _ (free_marker items))).trans
    ((Works.arguments proper).trans (Works.called h))

section Reprint

/-- What a part must be for its text to be read back: a literal that can be, and a function without
arguments whose name is not that of an access function; filters are tied to the place they are
called at. -/
def Legible (r : Resolver) : Tree → Prop
  | .literal v _ => v.Legible
  | .call _ _ (some _) _ => False
  | .call f [] none _ => r.config.access? f = none
  | _ => True

structure Reprints (r : Resolver) (scope : ScopeId) (z : Design) (t : Tree) (p : Phrase) :
    Prop where
  spelled : p.Spelled
  source : ∀ e, z.Alike e → t.source e.circuit = p.source
  strength : t.strength = p.strength
  replays : Replays r scope z p.raw t.anonymous

structure ReprintsAll (r : Resolver) (scope : ScopeId) (z : Design) (ts : List Tree)
    (ps : List Phrase) : Prop where
  spelled : Phrase.SpelledAll ps
  sources : ∀ e, z.Alike e → Tree.sources e.circuit ts = Phrase.sources ps
  replays : ReplaysAll r scope z (Phrase.rawAll ps) (Tree.anonymousAll ts)

theorem Reprints.guarded {t : Tree} {p : Phrase} (h : Reprints r scope z t p) {e : Design}
    (like : z.Alike e)
    (bound : Nat) : Tree.guarded t bound (t.source e.circuit) = p.within bound p.source := by
  rw [Tree.guarded, Phrase.within, h.source e like, h.strength]

theorem reprints_literal (simple : r.config.simplify = true) {v : Value} (o : Option Symbol)
    (legible : v.Legible) : ∃ p, Reprints r scope z (.literal v o) p := by
  cases legible.written with
  | plain spelled =>
    refine ⟨.literal v v.text, spelled, fun _ _ => rfl, ?_, fun items _ => Works.literal v⟩
    simp [Tree.strength, Value.isSigned_plain spelled, Phrase.strength]
  | signed spelled text opposite =>
    rename_i y w
    refine ⟨.unary .neg (.literal y w), spelled, fun _ _ => text, ?_, fun items _ => ?_⟩
    · simp [Tree.strength, Value.isSigned_signed text, Phrase.strength]
    · refine (Works.literal y).trans (Works.unary simple (fun _ => rfl) ?_)
      simp only [Simplify.unary, Tree.ofValue, opposite]
      rfl

theorem reprints_name {t : Tree} {x : String} (word : Lexeme.IsWord .identifier x.toList)
    (means : identifier z scope x = t) (text : ∀ c, t.source c = x)
    (atom : t.strength = atomStrength)
    (bare : t.anonymous = t) : Reprints r scope z t (.name x) := by
  refine ⟨word, fun e _ => text e.circuit, atom, fun items free => ?_⟩
  rw [bare, ← means]
  exact Works.name free x

theorem connect_alike {function : String} {p n : NodeId} {ref : BranchRef} {e : Design}
    (found : z.circuit.connect p n = .ok (ref, z.circuit)) (hp : p < z.circuit.nodes.size)
    (hn : n < z.circuit.nodes.size) (like : z.Alike e) : connect function p n e = .ok ref e := by
  have again := Circuit.connect_again found hp hn like.grown.toRemains
  simp only [connect, bind, EStateM.bind, get, getThe, MonadStateOf.get, EStateM.get, again]
  rfl

theorem call_access {q : Quantity} {args : List Tree} {e : Design}
    (known : r.config.access? q.function = some q.probe.access)
    (probe : q.probe = z.circuit.probe q.ref.branch q.probe.access) (like : z.Alike e)
    (points : branch q.function args e = .ok q.ref e) (tag : Nat) (site : CallSite) :
    ∃ e', z.Alike e' ∧ call ⟨r.config, tag⟩ scope site q.function args e = .ok (.access q) e' := by
  refine ⟨{ e with circuit := e.circuit.take q.ref.branch q.probe.access.probe },
    like.recounted (Circuit.uncounted_take _ _ _), ?_⟩
  simp only [call, known]
  refine bind_eq_ok.mpr ⟨q.ref, e, points, ?_⟩
  have same : e.circuit.probe q.ref.branch q.probe.access = q.probe := by
    rw [probe, Circuit.probe, Circuit.probe, Circuit.base, Circuit.base,
      Branch.base_eq_of_uncounted (Circuit.branch_eq_of_uncounted like.circuit _)]
  rw [show Tree.access q = .access ⟨q.function, q.ref,
    e.circuit.probe q.ref.branch q.probe.access⟩ by rw [same]]
  rfl

theorem ne_empty_of_word {kind : Kind} {x : String} (word : Lexeme.IsWord kind x.toList) :
    x ≠ "" := by
  rintro rfl
  obtain ⟨c, head, _⟩ := word.starts
  cases head

theorem branch_node (function : String) {t : Tree} {p : NodeId} (known : t.nodeId? = some p) :
    branch function [t] = connect function p ground := by
  rcases node_of_nodeId? known with rfl | rfl
  · rfl
  · rfl

theorem branch_nodes (function : String) {t u : Tree} {p n : NodeId} (left : t.nodeId? = some p)
    (right : u.nodeId? = some n) : branch function [t, u] = connect function p n := by
  rcases node_of_nodeId? left with rfl | rfl <;> rcases node_of_nodeId? right with rfl | rfl <;> rfl

theorem isItem_of_nodeId? {t : Tree} {p : NodeId} (known : t.nodeId? = some p) :
    t.isItem = true := by
  rcases node_of_nodeId? known with rfl | rfl
  · rfl
  · rfl

theorem refText_alias {c : Circuit} {name : String} {b : BranchId} (word : name ≠ "")
    (found : c.lookup? name = some b) : c.refText ⟨b, false⟩ = name := by
  rw [Circuit.lookup?_eq] at found
  have named := (Circuit.firstBranch?_eq_some.mp found).2.1
  simp only [Circuit.isNamed, Bool.and_eq_true, beq_iff_eq] at named
  simp [Circuit.refText, named.2.2, word]

theorem refText_between {c : Circuit} {p n : NodeId} {ref : BranchRef} (names : c.NamesAliases)
    (joins : c.Joins ref p n) : c.refText ref =
      if n = ground then c.nodeName p else c.nodeName p ++ ", " ++ c.nodeName n := by
  simp [Circuit.refText, names _ joins.own, joins.positive, joins.negative]

theorem reprints_access (faithful : z.Faithful) (wf : z.WellFormed) {q : Quantity}
    (word : Lexeme.IsWord .identifier q.function.toList)
    (known : r.config.access? q.function = some q.probe.access)
    (probe : q.probe = z.circuit.probe q.ref.branch q.probe.access)
    (pointed : Pointed z scope q.ref) :
    ∃ p, Reprints r scope z (.access q) p := by
  have accessed := fun {args e} => @call_access r scope z q args e known probe
  obtain ⟨function, ref, seen⟩ := q
  have replays : ∀ {raw args}, (∀ t ∈ args, t.isItem = true) → ReplaysAll r scope z raw args →
      (∀ e, z.Alike e → branch function args e = .ok ref e) →
      Replays r scope z (.marker :: raw ++ [.arguments, .identifier function])
        (.access ⟨function, ref, seen⟩) := fun proper inner points =>
    replays_call proper inner fun tag site e like => accessed like (points e like) tag site
  have text : ∀ e, z.Alike e → (Tree.access ⟨function, ref, seen⟩).source e.circuit =
      function ++ "(" ++ z.circuit.refText ref ++ ")" := by
    intro e like
    rw [Tree.source, Quantity.text, like.refText]
  have bare : ReplaysAll r scope z [] [] := fun _ _ => Works.nil
  cases pointed with
  | named nameWord deferred found =>
    rename_i name b
    refine ⟨.call function [.name name], ⟨word, nameWord, trivial⟩, ?_, rfl, ?_⟩
    · intro e like
      rw [text e like, refText_alias (ne_empty_of_word nameWord) found]
      rfl
    · refine replays (by simp [Tree.isItem]) (replaysAll_cons (t := .deferred name) rfl ?_ bare) ?_
      · exact fun items free => deferred ▸ Works.name free name
      · intro e like
        have again : e.circuit.lookup? name = some b := by
          rw [Circuit.lookup?_extends like.grown, found]
        simp only [branch, bind, EStateM.bind, get, getThe, MonadStateOf.get, EStateM.get, again]
        rfl
  | between left right found =>
    rename_i p n
    have joins := Circuit.joins_of_between? (Circuit.between?_of_connect found)
    have replaysName : ∀ {i}, Located z scope i →
        Replays r scope z [.identifier (z.circuit.nodeName i)]
          (identifier z scope (z.circuit.nodeName i)) :=
      fun _ items free => Works.name free _
    by_cases grounded : n = ground
    · refine ⟨.call function [.name (z.circuit.nodeName p)],
        ⟨word, left.word, trivial⟩, ?_, rfl, ?_⟩
      · intro e like
        rw [text e like, refText_between faithful.branches joins, if_pos grounded]
        rfl
      · refine replays (by simp [isItem_of_nodeId? left.named])
          (replaysAll_cons (isItem_of_nodeId? left.named) (replaysName left) bare) fun e like => ?_
        rw [branch_node function left.named, ← grounded]
        exact connect_alike found left.inside (by rw [grounded]; exact wf.circuit.ground) like
    · have right := right.resolve_left grounded
      refine ⟨.call function [.name (z.circuit.nodeName p), .name (z.circuit.nodeName n)],
        ⟨word, left.word, right.word, trivial⟩, ?_, rfl, ?_⟩
      · intro e like
        rw [text e like, refText_between faithful.branches joins, if_neg grounded]
        rfl
      · refine replays (by simp [isItem_of_nodeId? left.named, isItem_of_nodeId? right.named])
          (replaysAll_cons (isItem_of_nodeId? left.named) (replaysName left)
            (replaysAll_cons (isItem_of_nodeId? right.named) (replaysName right) bare))
              fun e like => ?_
        rw [branch_nodes function left.named right.named]
        exact connect_alike found left.inside right.inside like

theorem chosen?_anonymous (r : Resolver) (c : Tree) : chosen? r c.anonymous = chosen? r c := by
  cases c <;> rfl

theorem length_anonymousAll (ts : List Tree) : (Tree.anonymousAll ts).length = ts.length := by
  induction ts with
  | nil => rfl
  | cons t ts ih => simp only [Tree.anonymousAll, List.length_cons, ih]

theorem mem_anonymousAll {ts : List Tree} {u : Tree} (h : u ∈ Tree.anonymousAll ts) :
    ∃ t ∈ ts, t.anonymous = u := by
  induction ts with
  | nil => cases h
  | cons t ts ih =>
    rcases List.mem_cons.mp h with rfl | more
    · exact ⟨t, .head _, rfl⟩
    · obtain ⟨t', mem, same⟩ := ih more
      exact ⟨t', .tail _ mem, same⟩

theorem requireValues_eq_ok {ts : List Tree} {e : Design} (values : ∀ t ∈ ts, t.IsValue) :
    requireValues ts e = .ok () e := by
  induction ts with
  | nil => rfl
  | cons t ts ih =>
    obtain ⟨first, rest⟩ := List.forall_mem_cons.mp values
    exact bind_eq_ok.mpr ⟨(), e, requireValue_eq_ok (first _), ih rest⟩

theorem call_kept {name : String} {f : Function} {args : List Tree} {s : Summary} {e : Design}
    (plain : r.config.access? name = none) (found : Function.find? name = some f)
    (fits : (args.length < f.least || f.most < args.length) = false) (kept : Kept z f args s)
    (like : z.Alike e) (tag : Nat) (site : CallSite) :
      call ⟨r.config, tag⟩ scope site name (Tree.anonymousAll args) e =
      .ok (Tree.call name args none s).anonymous e := by
  have named : f.name = name := by simpa using List.find?_some found
  simp only [call, plain, found, function, length_anonymousAll, fits,
    Bool.false_eq_true, ↓reduceIte]
  cases kept with
  | given role unknown =>
    rename_i p
    simp only [role]
    have asks : asked (Tree.anonymousAll [.parameter p]) = some p := rfl
    rw [parameterGiven_of_asked _ e f.name asks, answer, like.parameterOf, unknown, named]
    rfl
  | plain given filter values unknown =>
    have fine : ∀ t ∈ Tree.anonymousAll args, t.IsValue := by
      intro u mem
      obtain ⟨t, inside, rfl⟩ := mem_anonymousAll mem
      exact (values t inside).anonymous
    have result : mathematical ⟨r.config, tag⟩ f (Tree.anonymousAll args) e =
        .ok (Tree.call name args none (f.summary (Tree.summaries args))).anonymous e := by
      rw [mathematical_eq, Function.fold?_anonymous, unknown, named, Tree.summaries_anonymousAll]
      rfl
    cases role : f.role with
    | given => exact absurd role given
    | filter => exact absurd role filter
    | environment | unary _ | binary _ =>
      exact bind_eq_ok.mpr ⟨(), e, requireValues_eq_ok fine, result⟩

theorem values_of_kept {f : Function} {args : List Tree} {s : Summary} (kept : Kept z f args s) :
    ∀ t ∈ args, t.IsValue := by
  cases kept with
  | given =>
    intro t mem
    cases List.mem_singleton.mp mem
    exact fun _ => rfl
  | plain _ _ values => exact values

mutual

theorem reprint (simple : r.config.simplify = true) (faithful : z.Faithful) (wf : z.WellFormed)
    (t : Tree)
    (value : t.IsValue) (all : t.All (Resolved r scope z)) (legible : t.All (Legible r)) :
    ∃ p, Reprints r scope z t p := by
  have here := all.self
  cases t with
  | literal v o => exact reprints_literal simple o legible.self
  | parameter p => exact ⟨_, reprints_name here.1 here.2 (fun _ => rfl) rfl rfl⟩
  | «variable» v s => exact ⟨_, reprints_name here.1 here.2 (fun _ => rfl) rfl rfl⟩
  | declaration v init => exact here.elim
  | access q =>
    obtain ⟨word, known, probe, pointed⟩ := here
    exact reprints_access faithful wf word known probe pointed
  | node i => cases value .empty
  | port i => cases value .empty
  | unary op x s =>
    obtain ⟨operand, same⟩ := here
    obtain ⟨p, h⟩ := reprint simple faithful wf x operand (Tree.all_unary.mp all).1
      (Tree.all_unary.mp legible).1
    refine ⟨.unary op p, h.spelled, fun e like => ?_, rfl, fun items free => ?_⟩
    · rw [Tree.source, Phrase.source, h.guarded like]
    · refine (h.replays items free).trans (Works.unary simple operand.anonymous ?_)
      rw [Simplify.unary_anonymous, same]
  | binary op l y s =>
    obtain ⟨left, right, same⟩ := here
    obtain ⟨allLeft, allRight, _⟩ := Tree.all_binary.mp all
    obtain ⟨legibleLeft, legibleRight, _⟩ := Tree.all_binary.mp legible
    obtain ⟨p, first⟩ := reprint simple faithful wf l left allLeft legibleLeft
    obtain ⟨q, second⟩ := reprint simple faithful wf y right allRight legibleRight
    refine ⟨.binary op p q, ⟨first.spelled, second.spelled⟩, fun e like => ?_, rfl,
      fun items free => ?_⟩
    · rw [Tree.source, Phrase.source, first.guarded like, second.guarded like]
    · refine ((first.replays items free).trans
        (second.replays _ (free_cons left.anonymous.isItem items))).trans
        (Works.binary simple left.anonymous right.anonymous ?_)
      rw [Simplify.binary_anonymous, same]
      rfl
  | ternary c t u s =>
    obtain ⟨⟨cond, thn, els⟩, unknown, rfl⟩ := here
    obtain ⟨allCond, allThn, allEls, _⟩ := Tree.all_ternary.mp all
    obtain ⟨legibleCond, legibleThn, legibleEls, _⟩ := Tree.all_ternary.mp legible
    obtain ⟨p, first⟩ := reprint simple faithful wf c cond allCond legibleCond
    obtain ⟨q, second⟩ := reprint simple faithful wf t thn allThn legibleThn
    obtain ⟨o, third⟩ := reprint simple faithful wf u els allEls legibleEls
    refine ⟨.ternary p q o, ⟨first.spelled, second.spelled, third.spelled⟩, fun e like => ?_, rfl,
      fun items free => ?_⟩
    · rw [Tree.source, Phrase.source, first.guarded like, second.source e like, third.source e like]
    · have last : Works r scope z [.ternary q.raw o.raw] (c.anonymous :: items) _ :=
        .ternary cond.anonymous thn.anonymous els.anonymous (chosen?_anonymous r c ▸ unknown)
          second.replays
          third.replays
      simp only [Tree.summary_anonymous] at last
      exact (first.replays items free).trans last
  | call name args filter s =>
    cases filter with
    | some b => exact legible.self.elim
    | none =>
      obtain ⟨word, plain, f, found, fits, kept⟩ := here
      have unaccessed : r.config.access? name = none := by
        cases args with
        | nil => exact legible.self
        | cons x xs => exact plain nofun
      obtain ⟨ps, inner⟩ := reprintAll simple faithful wf args (values_of_kept kept)
        (Tree.all_call.mp all).1
        (Tree.all_call.mp legible).1
      refine ⟨.call name ps, ⟨word, inner.spelled⟩, fun e like => ?_, rfl, ?_⟩
      · rw [Tree.source, Phrase.source, inner.sources e like]
      · refine replays_call ?_ inner.replays fun tag site e like =>
          ⟨e, like, call_kept unaccessed found fits kept like tag site⟩
        intro u mem
        obtain ⟨t, inside, rfl⟩ := mem_anonymousAll mem
        exact (values_of_kept kept t inside).anonymous.isItem
  | arguments items => cases value .empty
  | marker => cases value .empty
  | deferred name => cases value .empty

theorem reprintAll (simple : r.config.simplify = true) (faithful : z.Faithful) (wf : z.WellFormed)
    (ts : List Tree) (values : ∀ t ∈ ts, t.IsValue) (all : ∀ t ∈ ts, t.All (Resolved r scope z))
    (legible : ∀ t ∈ ts, t.All (Legible r)) : ∃ ps, ReprintsAll r scope z ts ps := by
  cases ts with
  | nil => exact ⟨[], trivial, fun _ _ => rfl, fun _ _ => Works.nil⟩
  | cons t ts =>
    obtain ⟨value, others⟩ := List.forall_mem_cons.mp values
    obtain ⟨allFirst, allRest⟩ := List.forall_mem_cons.mp all
    obtain ⟨legibleFirst, legibleRest⟩ := List.forall_mem_cons.mp legible
    obtain ⟨p, first⟩ := reprint simple faithful wf t value allFirst legibleFirst
    obtain ⟨ps, rest⟩ := reprintAll simple faithful wf ts others allRest legibleRest
    refine ⟨p :: ps, ⟨first.spelled, rest.spelled⟩, fun e like => ?_,
      replaysAll_cons value.anonymous.isItem first.replays rest.replays⟩
    rw [Tree.sources, Phrase.sources, first.source e like, rest.sources e like]

end

end Reprint

end Resolve

theorem Source.resolve_printed {s : Source} {r : Resolver} {scope : ScopeId} {t : Tree}
    {d d₁ : Design} (wf : d.WellFormed) (faithful : d.Faithful) (simple : r.config.simplify = true)
    (worded : Token.WordedAll s.raw) (run : s.resolve r scope d = .ok t d₁)
    (legible : t.All (Resolve.Legible r)) :
    ∃ p : Phrase, p.Spelled ∧ ∀ e, d₁.Alike e → t.source e.circuit = p.source ∧
      ∀ key tag, ∃ e', d₁.Alike e' ∧
      Source.resolve ⟨r.config, tag⟩ ⟨p.raw, key⟩ scope e = .ok t.anonymous e' := by
  obtain ⟨wf₁, faithful₁, value, all⟩ := resolve_resolved wf faithful simple worded run
  obtain ⟨p, h⟩ := Resolve.reprint simple faithful₁ wf₁ t value all legible
  refine ⟨p, h.spelled, fun e like => ⟨h.source e like, fun key tag => ?_⟩⟩
  obtain ⟨e', like', worked⟩ := h.replays [] nofun tag key [] 0 e like
  refine ⟨e', like', bind_eq_ok.mpr ⟨_, e', worked, ?_⟩⟩
  exact Resolve.single_eq_ok.mpr ⟨rfl, value.anonymous _, rfl⟩

namespace Editor

/-- What a tree prints is read and resolved to the tree again, where it was resolved: up to the
parameters that literals were taken from, and unless a function without arguments has the name of an
access function. -/
theorem printed_resolves_back (name : String) (config : Config) (ops : List Operation)
    {text : SourceText}
    {raw : Raw} {key : Nat} {r : Resolver} {scope : ScopeId} {t : Tree} {d : Design}
    (read : Raw.ofText text = .ok raw) (simple : r.config.simplify = true)
    (run : Source.resolve r ⟨raw, key⟩ scope
      ((Editor.ofDevice (Device.create name config)).performAll ops).device.design = .ok t d)
    (unfiltered : ∀ f args b s, .call f args (some b) s ∉ t.parts)
    (legible : ∀ v o, .literal v o ∈ t.parts → v.Legible)
    (unaccessed : ∀ f s, .call f [] none s ∈ t.parts → r.config.access? f = none) :
    ∃ again : Raw, (∀ file, Raw.ofText (.ofString file (t.source d.circuit)) = .ok again) ∧
      ∀ e, d.Alike e → ∀ key tag, ∃ e', d.Alike e' ∧
        Source.resolve ⟨r.config, tag⟩ ⟨again, key⟩ scope e = .ok t.anonymous e' ∧
        t.anonymous.summary = t.summary ∧ t.anonymous.source e'.circuit = t.source d.circuit := by
  have sound : ((Editor.ofDevice (Device.create name config)).performAll ops).device.Sound :=
    sound_performAll ops (Device.sound_create name config)
  have readable : t.All (Resolve.Legible r) := by
    intro u mem
    cases u with
    | literal v o => exact legible v o mem
    | call f args filter s =>
      cases filter with
      | some b => exact unfiltered f args b s mem
      | none =>
        cases args with
        | nil => exact unaccessed f s mem
        | cons x xs => trivial
    | _ => trivial
  obtain ⟨p, spelled, printed⟩ := Source.resolve_printed sound.wellFormed sound.faithful simple
    (Raw.worded_of_ofText read) run readable
  have source := (printed d (.refl d)).1
  refine ⟨p.raw, fun file
    => by rw [source]; exact p.ofText_source spelled file, fun e like key tag => ?_⟩
  obtain ⟨e', like', back⟩ := (printed e like).2 key tag
  refine ⟨e', like', back, t.summary_anonymous, ?_⟩
  rw [t.source_anonymous, (printed e' like').1, source]

def gainCalls : List Operation :=
  [.port "p", .port "n", .branch "load" "p" (some "n"),
    .parameter "g" .integer [.literal (.int 7)] false,
    .parameter "k" .integer [.literal (.int 4)] true, .analog, .declare "x" .real none]

def gain :
    Design := ((Editor.ofDevice (Device.create "gain" .default)).performAll gainCalls).device.design

def gainText : SourceText :=
  .ofString "gain" "k - 6 + x > 3 ? -V(n,p) ** 2 : $param_given(g) * max(I(load), $temperature)"

/-- The literals of a tree are integers that have an opposite, and its calls are none that the text
of the tree could mistake. -/
def readable (config : Config) : Tree → Bool
  | .literal (.int n) _ => n != Int64.minValue
  | .literal _ _ => false
  | .call _ _ (some _) _ => false
  | .call f _ none _ => (config.access? f).isNone
  | _ => true

theorem printed_resolves_back_gain : ∃ raw t d again e,
    Raw.ofText gainText = .ok raw ∧ Source.resolve ⟨.default, 0⟩ ⟨raw, 9⟩ 2 gain = .ok t d ∧
    t.source d.circuit =
    "x + -2 > 3 ? -V(n, p) ** 2 : $param_given(g) * max(I(load), $temperature())" ∧
    Raw.ofText (.ofString "again" (t.source d.circuit)) = .ok again ∧
    Source.resolve ⟨.default, 1⟩ ⟨again, 10⟩ 2 d = .ok t.anonymous e := by
  have checked : ((Raw.ofText gainText).toOption.bind fun raw => EStateM.run' (do
      let t ← Source.resolve ⟨.default, 0⟩ ⟨raw, 9⟩ 2
      let d ← get
      return t.parts.all (readable .default) && t.source d.circuit ==
        "x + -2 > 3 ? -V(n, p) ** 2 : $param_given(g) * max(I(load), $temperature())") gain) =
          some true := by
    decide +kernel
  cases read : Raw.ofText gainText with
  | error e =>
    rw [read] at checked
    cases checked
  | ok raw =>
    rw [read] at checked
    simp only [Except.toOption, Option.bind_some, EStateM.run', EStateM.run, bind,
      EStateM.bind] at checked
    cases run : Source.resolve ⟨.default, 0⟩ ⟨raw, 9⟩ 2 gain with
    | error f d =>
      rw [run] at checked
      cases checked
    | ok t d =>
      simp only [run, get, getThe, MonadStateOf.get, EStateM.get, pure, EStateM.pure,
        Option.some.injEq, Bool.and_eq_true, List.all_eq_true, beq_iff_eq] at checked
      obtain ⟨fine, printed⟩ := checked
      obtain ⟨again, readAgain, back⟩ := printed_resolves_back "gain" .default
        gainCalls read rfl run
        (fun f args b s mem => by cases fine _ mem)
        (fun v o mem => by
          have opposite := fine _ mem
          cases v with
          | int n => simpa [readable, Value.Legible] using opposite
          | _ => cases opposite)
        (fun f s mem => by simpa [readable] using fine _ mem)
      obtain ⟨e, _, resolved, _⟩ := back d (.refl d) 10 1
      exact ⟨raw, t, d, again, e, rfl, run, printed, readAgain "again", resolved⟩

/-- Access functions of which one has the name of a function without arguments. -/
def thermalAccess : Config := { Config.default with access := [("$vt", "potential")] }

/-- Where the name of a function without arguments accesses a quantity, it cannot be called as
printed. -/
theorem printed_call_captured : ∃ t d f e,
    Raw.ofText (.ofString "thermal" "$vt") = .ok [.identifier "$vt"] ∧
    Source.resolve ⟨thermalAccess, 0⟩ ⟨[.identifier "$vt"], 0⟩ 0 Design.empty = .ok t d ∧
    Raw.ofText (.ofString "again" (t.source d.circuit)) =
    .ok [.marker, .arguments, .identifier "$vt"] ∧
    Source.resolve ⟨thermalAccess, 1⟩ ⟨[.marker, .arguments, .identifier "$vt"], 1⟩ 0 d =
    .error f e := by
  refine ⟨_, _, _, _, rfl, rfl, ?_, rfl⟩
  rfl

end Editor
end Analog
