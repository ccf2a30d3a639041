import Analog.Proofs.Resolver.Repeatability

/-!
Resolving an expression twice from the same design: with every operation as it is written, and with
operations simplified at once. The second run follows the first one token by token, so a relation
between trees that tokens, operations and calls keep holds of the results. The second run may never
come to an arm of a choice, so the two designs and the numbers of their branches go apart.
-/
namespace Analog

def Resolver.simplifying (r : Resolver) (simplify : Bool) : Resolver :=
  { r with config := { r.config with simplify := simplify } }

def Token.isArguments : Token → Bool
  | .arguments => true
  | _ => false

/-- Tokens that are all allowed, where a token is told whether it follows an argument list. -/
def Token.Admitted (allows : Bool → Token → Prop) : Bool → List Token → Prop
  | _, [] => True
  | applied, t :: ts => allows applied t ∧ Admitted allows t.isArguments ts

/-- What has become of a design in the course of resolution. -/
structure Design.Leads (d d' : Design) : Prop where
  grown : d.Extends d'
  snapshot : d'.snapshot = d.snapshot

theorem Design.Leads.refl (d : Design) : d.Leads d := ⟨.refl d, rfl⟩

theorem Design.Leads.trans {a b c : Design} (ab : a.Leads b) (bc : b.Leads c) : a.Leads c :=
  ⟨ab.grown.trans bc.grown, bc.snapshot.trans ab.snapshot⟩

namespace Tree

def isName : Tree → Bool
  | .deferred _ | .node _ | .port _ => true
  | _ => false

theorem IsValue.not_isName {t : Tree} (h : t.IsValue) : t.isName = false := by
  have fine := h default
  cases t with
  | node | port | deferred => cases fine
  | _ => rfl

theorem IsValue.not_isMarker {t : Tree} (h : t.IsValue) : t.isMarker = false := by
  have fine := h default
  cases t with
  | marker => cases fine
  | _ => rfl

theorem IsValue.ne_arguments {t : Tree} (h : t.IsValue) (args : List Tree) :
    t ≠ .arguments args := by
  rintro rfl
  cases h default

theorem isName_of_nodeId? {t : Tree} {i : NodeId} (h : t.nodeId? = some i) : t.isName = true := by
  rcases Resolve.node_of_nodeId? h with rfl | rfl
  · rfl
  · rfl

/-- Trees of which the second is the first if that is a name, over `nodes` nodes, and is related to
it if that is a value. -/
structure Paired (nodes : Nat) (rel : Tree → Tree → Prop) (t t' : Tree) : Prop where
  name : t.isName = true → t' = t ∧ ∀ i, t.nodeId? = some i → i < nodes
  value : t.IsValue → rel t t' ∧ t'.IsValue

inductive Facing (nodes : Nat) (rel : Tree → Tree → Prop) : Tree → Tree → Prop
  | value {t t' : Tree} (value : t.IsValue) (value' : t'.IsValue) (related : rel t t') :
    Facing nodes rel t t'
  | name {t : Tree} (known : t.isName = true) (inside : ∀ i, t.nodeId? = some i → i < nodes) :
    Facing nodes rel t t
  | marker : Facing nodes rel .marker .marker
  | arguments {ts ts' : List Tree} (items : List.Forall₂ (Paired nodes rel) ts ts') :
    Facing nodes rel (.arguments ts) (.arguments ts')

section Faced

variable {nodes : Nat} {rel rel' : Tree → Tree → Prop} {t t' : Tree}

theorem Paired.mono (h : Paired nodes rel t t') (le : ∀ {x x' : Tree}, rel x x' → rel' x x') :
    Paired nodes rel' t t' := ⟨h.name, fun value => (h.value value).imp_left le⟩

theorem Paired.inside (h : Paired nodes rel t t') {i : NodeId} (node : t.nodeId? = some i) :
    i < nodes :=
  (h.name (isName_of_nodeId? node)).2 i node

namespace Facing

theorem mono (h : Facing nodes rel t t') (le : ∀ {x x' : Tree}, rel x x' → rel' x x') :
    Facing nodes rel' t t' := by
  cases h with
  | value value value' related => exact .value value value' (le related)
  | name known inside => exact .name known inside
  | marker => exact .marker
  | arguments items => exact .arguments (items.imp fun _ _ one => one.mono le)

theorem paired (h : Facing nodes rel t t') : Paired nodes rel t t' := by
  cases h with
  | value value value' related =>
    refine ⟨fun name => ?_, fun _ => ⟨related, value'⟩⟩
    rw [value.not_isName] at name
    cases name
  | name known inside =>
    refine ⟨fun _ => ⟨rfl, inside⟩, fun value => ?_⟩
    rw [value.not_isName] at known
    cases known
  | marker | arguments =>
    constructor
    · intro name
      cases name
    · intro value
      cases value default

theorem isMarker_eq (h : Facing nodes rel t t') : t'.isMarker = t.isMarker := by
  cases h with
  | value value value' => rw [value.not_isMarker, value'.not_isMarker]
  | name | marker | arguments => rfl

end Facing
end Faced
end Tree

theorem forall₂_dropWhile {α : Type} {R : α → α → Prop} {p : α → Bool}
    (agree : ∀ a b, R a b → p b = p a) {as bs : List α} (h : List.Forall₂ R as bs) :
    List.Forall₂ R (as.dropWhile p) (bs.dropWhile p) := by
  induction h with
  | nil => exact .nil
  | cons head tail ih =>
    rw [List.dropWhile_cons, List.dropWhile_cons, agree _ _ head]
    split
    · exact ih
    · exact .cons head tail

theorem forall₂_takeWhile {α : Type} {R : α → α → Prop} {p : α → Bool}
    (agree : ∀ a b, R a b → p b = p a) {as bs : List α} (h : List.Forall₂ R as bs) :
    List.Forall₂ R (as.takeWhile p) (bs.takeWhile p) := by
  induction h with
  | nil => exact .nil
  | cons head tail ih =>
    rw [List.takeWhile_cons, List.takeWhile_cons, agree _ _ head]
    split
    · exact .cons head ih
    · exact .nil

theorem popUntil?_facing {nodes : Nat} {rel : Tree → Tree → Prop} (stack stack' : Stack Tree)
    {below : Stack Tree} {items : List Tree}
    (h : List.Forall₂ (Tree.Facing nodes rel) stack.items stack'.items)
    (popped : stack.popUntil? Tree.isMarker = some (items, below)) :
    ∃ items' below', stack'.popUntil? Tree.isMarker = some (items', below') ∧
      List.Forall₂ (Tree.Facing nodes rel) items items' ∧
      List.Forall₂ (Tree.Facing nodes rel) below.items below'.items := by
  have agree : ∀ t t', Tree.Facing nodes rel t t' → (!Tree.isMarker t') = !Tree.isMarker t :=
    fun t t' one => by rw [one.isMarker_eq]
  have dropped := forall₂_dropWhile (p := (!Tree.isMarker ·)) agree h
  have taken := forall₂_takeWhile (p := (!Tree.isMarker ·)) agree h
  unfold Stack.popUntil? at popped ⊢
  split at popped
  · rename_i top rest kept
    cases popped
    rw [kept] at dropped
    cases kept' : stack'.items.dropWhile (!Tree.isMarker ·) with
    | nil =>
      rw [kept'] at dropped
      cases dropped
    | cons top' rest' =>
      rw [kept'] at dropped
      cases dropped with
      | cons _ tail => exact ⟨_, ⟨rest'⟩, rfl, List.rel_reverse taken, tail⟩
  · cases popped

theorem Circuit.connect_ok (c : Circuit) {p n : NodeId} (apart : p ≠ n) :
    ∃ r c', c.connect p n = .ok (r, c') := by
  unfold connect
  simp only [beq_iff_eq, apart, ↓reduceIte]
  split
  · exact ⟨_, _, rfl⟩
  · split
    · exact ⟨_, _, rfl⟩
    · exact ⟨_, _, rfl⟩

namespace Resolve

section Branches

variable {origin d d₁ e : Design}

/-- What an access reads in the two designs: a branch that has a name in `origin`, or the branches
between two nodes of it. -/
inductive SameBranch (origin d e : Design) : BranchRef → BranchRef → Prop
  | named {name : String} {b : BranchId} (found : origin.circuit.lookup? name = some b) :
    SameBranch origin d e ⟨b, false⟩ ⟨b, false⟩
  | between {p n : NodeId} {ref ref' : BranchRef} (left : p < origin.circuit.nodes.size)
    (right : n < origin.circuit.nodes.size) (found : d.circuit.between? p n = some ref)
    (found' : e.circuit.between? p n = some ref') : SameBranch origin d e ref ref'

theorem connect_same {function : String} {p n : NodeId} {ref : BranchRef}
    (left : p < origin.circuit.nodes.size)
    (right : n < origin.circuit.nodes.size) (run : connect function p n d = .ok ref d₁)
    (e : Design) :
    ∃ ref' e₁, connect function p n e = .ok ref' e₁ ∧ SameBranch origin d₁ e₁ ref ref' := by
  obtain ⟨c, made, rfl⟩ := (connect_ensures d function p n).of_ok run
  obtain ⟨r, c', made'⟩ := e.circuit.connect_ok (Circuit.connect_cases made).1
  refine ⟨r, { e with circuit := c' }, ?_, .between left right (Circuit.between?_of_connect made)
    (Circuit.between?_of_connect made')⟩
  rw [connect_eq, made']

theorem extends_of_branch {function : String} {args : List Tree} {ref : BranchRef}
    (run : branch function args d = .ok ref d₁) : d.Extends d₁ := by
  have connected {p n : NodeId} (run : connect function p n d = .ok ref d₁) : d.Extends d₁ := by
    obtain ⟨c, made, rfl⟩ := (connect_ensures d function p n).of_ok run
    exact Design.extends_circuit (Circuit.connect_extends made) (Circuit.keepsNames_connect made)
  cases (branch_ensures d function args).of_ok run with
  | named => exact .refl d
  | grounded _ made | between _ _ made => exact connected made

theorem eq_of_paired {nodes : Nat} {rel : Tree → Tree → Prop} {ts ts' : List Tree}
    (items : List.Forall₂ (Tree.Paired nodes rel) ts ts') (known : ∀ t ∈ ts, t.isName = true) :
    ts' = ts := by
  induction items with
  | nil => rfl
  | cons head _ ih =>
    rw [(head.name (known _ List.mem_cons_self)).1,
      ih fun t mem => known t (List.mem_cons_of_mem _ mem)]

theorem branch_same {rel : Tree → Tree → Prop} {function : String} {args args' : List Tree}
    {ref : BranchRef}
    (wf : origin.WellFormed) (plain : origin.Extends d) (simple : origin.Extends e)
    (items : List.Forall₂ (Tree.Paired origin.circuit.nodes.size rel) args args')
    (run : branch function args d = .ok ref d₁) :
    ∃ ref' e₁, branch function args' e = .ok ref' e₁ ∧ SameBranch origin d₁ e₁ ref ref' := by
  cases (branch_ensures d function args).of_ok run with
  | named found =>
    rename_i name b
    cases eq_of_paired items (by simp [Tree.isName])
    rw [Circuit.lookup?_extends plain.circuit] at found
    refine ⟨⟨b, false⟩, e, ?_, .named found⟩
    rw [← Circuit.lookup?_extends simple.circuit] at found
    rw [branch_named, found]
  | grounded node made =>
    rename_i t p
    obtain ⟨_, _, one, -, -⟩ := List.forall₂_cons_left_iff.mp items
    cases eq_of_paired items (by simp [Tree.isName_of_nodeId? node])
    have same : branch function [t] = connect function p ground := by
      rcases node_of_nodeId? node with rfl | rfl
      · rfl
      · rfl
    rw [same]
    exact connect_same (one.inside node) wf.circuit.ground made e
  | between left right made =>
    rename_i t u p n
    obtain ⟨_, _, one, rest, -⟩ := List.forall₂_cons_left_iff.mp items
    obtain ⟨_, _, other, -, -⟩ := List.forall₂_cons_left_iff.mp rest
    cases eq_of_paired items (by simp [Tree.isName_of_nodeId? left, Tree.isName_of_nodeId? right])
    have same : branch function [t, u] = connect function p n := by
      rcases node_of_nodeId? left with rfl | rfl <;> rcases node_of_nodeId? right with
        rfl | rfl <;> rfl
    rw [same]
    exact connect_same (one.inside left) (other.inside right) made e

end Branches

theorem chosen?_plain (r : Resolver) (c : Tree) : chosen? (r.simplifying false) c = none := by
  cases c <;> rfl

theorem chosen?_eq_some {r : Resolver} {c : Tree} {b : Bool}
    (h : chosen? (r.simplifying true) c = some b) :
    ∃ v o, c = .literal v o ∧ v.truth? = some b := by
  cases c with
  | literal v o => exact ⟨v, o, rfl, h⟩
  | _ => cases h

def Applied (stack : Stack Tree) : Prop := ∃ args rest, stack.items = .arguments args :: rest

theorem not_applied_push {t : Tree} (h : ∀ args, t ≠ .arguments args) (rest : List Tree) :
    ¬Applied ⟨t :: rest⟩ := by
  rintro ⟨args, below, items⟩
  cases items
  exact h args rfl

theorem identifier_ne_arguments (d : Design) (scope : ScopeId) (name : String) (args : List Tree) :
    identifier d scope name ≠ .arguments args := by
  intro same
  unfold identifier at same
  split at same
  · split at same <;> cases same
  · cases same
  · cases same
  · cases same
  · split at same
    · split at same <;> cases same
    · cases same

/-- A relation between the trees that a plain and a simplifying run from `origin` make of tokens
that are allowed. -/
structure Lockstep (r : Resolver) (scope : ScopeId) (origin : Design) (allows : Bool → Token → Prop)
    (R : Design → Design → Tree → Tree → Prop) : Prop where
  arms : ∀ {applied thn els}, allows applied (.ternary thn els) →
    Token.Admitted allows false thn ∧ Token.Admitted allows false els
  values : ∀ {d e t t'}, R d e t t' → t.IsValue ∧ t'.IsValue
  mono : ∀ {d e d₁ e₁ t t'}, origin.Leads d → origin.Leads e → d.Extends d₁ → e.Extends e₁ →
    R d e t t' → R d₁ e₁ t t'
  literal : ∀ {applied v d e}, allows applied (.literal v) → R d e (.ofValue v) (.ofValue v)
  named : ∀ {name d e}, (identifier origin scope name).IsValue →
    R d e (identifier origin scope name) (identifier origin scope name)
  called : ∀ {site name args args' t d d₁ e}, allows true (.identifier name) → origin.Leads d →
    origin.Leads e →
    Ready d args → Ready e args' →
    List.Forall₂ (Tree.Paired origin.circuit.nodes.size (R d e)) args args' →
    call (r.simplifying false) scope site name args d = .ok t d₁ →
    ∃ t' e₁, call (r.simplifying true) scope site name args' e = .ok t' e₁ ∧ R d₁ e₁ t t'
  unary : ∀ {applied op x x' d e}, allows applied (.unary op) →
    x'.Built e.snapshot e.circuit.nodes.size →
    R d e x x' → R d e (Simplify.plainUnary op x) (Simplify.unary op x')
  binary : ∀ {applied op x x' y y' d e}, allows applied (.binary op) →
    x'.Built e.snapshot e.circuit.nodes.size → y'.Built e.snapshot e.circuit.nodes.size →
    R d e x x' → R d e y y' → R d e (Simplify.plainBinary op x y) (Simplify.binary op x' y').tree
  ternary : ∀ {c c' t t' u u' d e}, R d e c c' → R d e t t' → R d e u u' →
    R d e (.ternary c t u (.select c.summary t.summary u.summary))
      (.ternary c' t' u' (.select c'.summary t'.summary u'.summary))
  /-- A choice that is known leads to the arm that it selects, whatever the other one is. -/
  chosen : ∀ {c t t' u u' v o b d e e'}, R d e c (.literal v o) → v.truth? = some b → R d e t t' →
    R d e' u u' → R d e (if b then .ternary c t u (.select c.summary t.summary u.summary)
      else .ternary c u t (.select c.summary u.summary t.summary)) t'

theorem identifier_cases {d : Design} (wf : d.WellFormed) (scope : ScopeId) (name : String) :
    (identifier d scope name).IsValue ∨ (identifier d scope name).isName = true ∧
      ∀ i, (identifier d scope name).nodeId? = some i → i < d.circuit.nodes.size := by
  unfold identifier
  split
  · split
    · exact .inl fun _ => rfl
    · exact .inl fun _ => rfl
  · exact .inl fun _ => rfl
  · rename_i i found
    refine .inr ⟨rfl, ?_⟩
    rintro _ ⟨⟩
    exact wf.lookup? found
  · rename_i i found
    refine .inr ⟨rfl, ?_⟩
    rintro _ ⟨⟩
    exact wf.lookup? found
  · split
    · split
      · exact .inl fun _ => rfl
      · exact .inr ⟨rfl, fun _ none => by cases none⟩
    · exact .inr ⟨rfl, fun _ none => by cases none⟩

theorem plain_facing {nodes : Nat} {rel : Tree → Tree → Prop} {items items' : List Tree}
    (same : List.Forall₂ (Tree.Facing nodes rel) items items')
    (plain : ∀ args below, items ≠ .arguments args :: below) :
    ∀ args below, items' ≠ .arguments args :: below := by
  rintro args' below' rfl
  obtain ⟨t, below, head, _, rfl⟩ := List.forall₂_cons_right_iff.mp same
  cases head with
  | value _ value' => exact value'.ne_arguments args' rfl
  | name known => cases known
  | arguments => exact plain _ below rfl

namespace Lockstep

variable {r : Resolver} {scope : ScopeId} {key : Nat} {origin : Design}
  {allows : Bool → Token → Prop} {R : Design → Design → Tree → Tree → Prop}

abbrev At (origin : Design) (R : Design → Design → Tree → Tree → Prop) (d e : Design) :
    Tree → Tree → Prop :=
  Tree.Facing origin.circuit.nodes.size (R d e)

section Operations

variable (h : Lockstep r scope origin allows R) {d d₁ e e₁ : Design} {t t' : Tree}
include h

theorem at_of_related (related : R d e t t') : At origin R d e t t' :=
  .value (h.values related).1 (h.values related).2 related

omit h in
theorem related_of_fault {c : Circuit} (same : At origin R d e t t')
    (fine : t.valueFault? c = none) :
    R d e t t' := (same.paired.value (Tree.isValue_of_fault fine)).1

theorem at_identifier (wf : origin.WellFormed) (name : String) :
    At origin R d e (identifier origin scope name) (identifier origin scope name) := by
  rcases identifier_cases wf scope name with value | ⟨known, inside⟩
  · exact h.at_of_related (h.named value)
  · exact .name known inside

theorem unary_follows {applied : Bool} {op : UnaryOp} {x x' : Tree}
    (allowed : allows applied (.unary op))
    (built : x'.Built e.snapshot e.circuit.nodes.size) (same : At origin R d e x x')
    (run : Resolve.unary (r.simplifying false) op x d = .ok t d₁) :
    ∃ t' e₁, Resolve.unary (r.simplifying true) op x' e = .ok t' e₁ ∧ R d₁ e₁ t t' := by
  obtain ⟨fine, rfl, rfl⟩ := (unary_ensures _ d op x).of_ok run
  have related := related_of_fault same fine
  have value' := requireValue_eq_ok ((h.values related).2 e.circuit)
  exact ⟨_, e, bind_eq_ok.mpr ⟨(), e, value', rfl⟩, h.unary allowed built related⟩

theorem binary_follows {applied : Bool} {op : BinaryOp} {x x' y y' : Tree} {rest : List Tree}
    (allowed : allows applied (.binary op)) (onward : origin.Leads d) (onward' : origin.Leads e)
    (left : At origin R d e x x') (right : At origin R d e y y')
    (ready : Ready e (y' :: x' :: rest))
    (run : Resolve.binary (r.simplifying false) op x y d = .ok t d₁) :
    ∃ t' e₁, Resolve.binary (r.simplifying true) op x' y' e = .ok t' e₁ ∧ R d₁ e₁ t t' := by
  obtain ⟨leftFine, rightFine, rfl, rfl⟩ := (binary_ensures _ d op x y).of_ok run
  have leftRelated := related_of_fault left leftFine
  have rightRelated := related_of_fault right rightFine
  have leftValue' := requireValue_eq_ok ((h.values leftRelated).2 e.circuit)
  have rightValue' := requireValue_eq_ok ((h.values rightRelated).2 e.circuit)
  obtain ⟨c, released, same⟩ := ready.drops op
  obtain ⟨rightBuilt, leftBuilt, -⟩ := ready.built
  refine ⟨_, { e with circuit := c },
    bind_eq_ok.mpr ⟨(), e, leftValue', bind_eq_ok.mpr ⟨(), e, rightValue',
    bind_eq_ok.mpr ⟨(), _, released, rfl⟩⟩⟩, ?_⟩
  exact h.mono onward onward' (.refl _) (Design.extends_uncounted same)
    (h.binary allowed leftBuilt rightBuilt leftRelated rightRelated)

end Operations

/-- What is known of one arm of a choice, worked off in both ways. -/
structure Arm (origin : Design) (R : Design → Design → Tree → Tree → Prop)
    (plain simple : DesignM (Stack Tree)) : Prop where
  grows : ∀ {stack d d₁}, Ready d [] → plain d = .ok stack d₁ →
    d.Extends d₁ ∧ d₁.snapshot = d.snapshot ∧ Ready d₁ stack.items
  grows' : ∀ {stack e e₁}, Ready e [] → simple e = .ok stack e₁ →
    e.Extends e₁ ∧ e₁.snapshot = e.snapshot ∧ Ready e₁ stack.items
  follows : ∀ {stack d d₁ e}, origin.Leads d → origin.Leads e → Ready d [] → Ready e [] →
    plain d = .ok stack d₁ → ∃ stack' e₁, simple e = .ok stack' e₁ ∧
      List.Forall₂ (At origin R d₁ e₁) stack.items stack'.items

structure Resolved (R : Design → Design → Tree → Tree → Prop) (d e : Design) (t t' : Tree)
    (d₁ e₁ : Design) : Prop where
  leads : d.Leads d₁
  leads' : e.Leads e₁
  ready : Ready d₁ []
  ready' : Ready e₁ []
  related : R d₁ e₁ t t'

section Choices

variable (h : Lockstep r scope origin allows R) {d d₁ e : Design} {t : Tree}
include h

theorem resolve_arm {plain simple : DesignM (Stack Tree)} (arm : Arm origin R plain simple)
    {raw : Raw}
    (onward : origin.Leads d) (onward' : origin.Leads e) (ready : Ready d []) (ready' : Ready e [])
    (run : (plain >>= single raw) d = .ok t d₁) :
    ∃ t' e₁, (simple >>= single raw) e = .ok t' e₁ ∧ Resolved R d e t t' d₁ e₁ := by
  obtain ⟨stack, d', worked, rest⟩ := bind_eq_ok.mp run
  obtain ⟨items, fine, rfl⟩ := single_eq_ok.mp rest
  obtain ⟨stack', e₁, worked', same⟩ := arm.follows onward onward' ready ready' worked
  obtain ⟨grown, read, readyAfter⟩ := arm.grows ready worked
  obtain ⟨grown', read', readyAfter'⟩ := arm.grows' ready' worked'
  rw [items] at same
  obtain ⟨t', _, one, rest', items'⟩ := List.forall₂_cons_left_iff.mp same
  cases rest'
  have related := related_of_fault one fine
  refine ⟨t', e₁, bind_eq_ok.mpr ⟨stack', e₁, worked', ?_⟩, ⟨grown, read⟩, ⟨grown', read'⟩,
    readyAfter.aside, readyAfter'.aside, related⟩
  exact single_eq_ok.mpr ⟨items', (h.values related).2 _, rfl⟩

theorem choice_follows {c c' : Tree} {thn els : Raw}
    {first second first' second' : DesignM (Stack Tree)}
    (firstArm : Arm origin R first first') (secondArm : Arm origin R second second')
    (onward : origin.Leads d) (onward' : origin.Leads e) (same : At origin R d e c c')
    (ready : Ready d []) (ready' : Ready e [])
    (run : choice (r.simplifying false) c thn els first second d = .ok t d₁) :
    ∃ t' e₁, choice (r.simplifying true) c' thn els first' second' e = .ok t' e₁ ∧
    R d₁ e₁ t t' := by
  obtain ⟨fine, ways⟩ := choice_of_ok run
  have cond := related_of_fault same fine
  have value' := requireValue_eq_ok ((h.values cond).2 e.circuit)
  -- The plain run comes to both arms, whatever the condition.
  simp only [chosen?_plain, reduceCtorEq, false_and, true_and, false_or] at ways
  obtain ⟨t, u, d₂, thnRun, elsRun, rfl⟩ := ways
  unfold choice
  obtain ⟨t', e₂, thnRun', thnResolved⟩ := h.resolve_arm firstArm onward onward' ready ready' thnRun
  have onwardThn := onward.trans thnResolved.leads
  cases chosen : chosen? (r.simplifying true) c' with
  | some b =>
    obtain ⟨v, o, rfl, truth⟩ := chosen?_eq_some chosen
    obtain ⟨u', e₃, elsRun', elsResolved⟩ := h.resolve_arm secondArm onwardThn onward'
      thnResolved.ready ready'
      elsRun
    have grown := thnResolved.leads.grown.trans elsResolved.leads.grown
    have thnRelated := h.mono onwardThn (onward'.trans thnResolved.leads')
      elsResolved.leads.grown (.refl _)
      thnResolved.related
    cases b with
    | true =>
      refine ⟨t', e₂, bind_eq_ok.mpr ⟨(), e, value', thnRun'⟩, ?_⟩
      have condThn := h.mono onward onward' grown thnResolved.leads'.grown cond
      exact h.chosen condThn truth thnRelated elsResolved.related
    | false =>
      refine ⟨u', e₃, bind_eq_ok.mpr ⟨(), e, value', elsRun'⟩, ?_⟩
      have condEls := h.mono onward onward' grown elsResolved.leads'.grown cond
      exact h.chosen condEls truth elsResolved.related thnRelated
  | none =>
    obtain ⟨u', e₃, elsRun', elsResolved⟩ := h.resolve_arm secondArm onwardThn
      (onward'.trans thnResolved.leads')
      thnResolved.ready thnResolved.ready' elsRun
    obtain ⟨stack', e', worked', one'⟩ := bind_eq_ok.mp thnRun'
    refine ⟨_, e₃, bind_eq_ok.mpr ⟨(), e, value', bind_eq_ok.mpr ⟨stack', e', worked',
      bind_eq_ok.mpr ⟨t', e₂, one', bind_eq_ok.mpr ⟨u', e₃, orRelease_eq_ok.mpr elsRun', rfl⟩⟩⟩⟩,
        ?_⟩
    have condBoth := h.mono onward onward' (thnResolved.leads.grown.trans elsResolved.leads.grown)
      (thnResolved.leads'.grown.trans elsResolved.leads'.grown) cond
    have thnBoth := h.mono onwardThn (onward'.trans thnResolved.leads') elsResolved.leads.grown
      elsResolved.leads'.grown thnResolved.related
    exact h.ternary condBoth thnBoth elsResolved.related

end Choices

theorem replaced (h : Lockstep r scope origin allows R) {site : List Nat} {token : Token}
    {items' below below' : List Tree} {t t' : Tree}
    {d d₁ e e₁ : Design} (onward : origin.Leads d) (onward' : origin.Leads e)
    (ready' : Ready e items')
    (grown : d.Extends d₁) (tail : List.Forall₂ (At origin R d e) below below')
    (related : R d₁ e₁ t t')
    (stepped : Stepped (r.simplifying true) scope key site items' token e (t' :: below') e₁) :
    ∃ stack₁' e₁, step (r.simplifying true) scope key site ⟨items'⟩ token e = .ok stack₁' e₁ ∧
      List.Forall₂ (At origin R d₁ e₁) (t :: below) stack₁'.items ∧
      (Applied ⟨t :: below⟩ → token.isArguments = true) := by
  have readyStack : Ready e (Stack.mk items').items := ready'
  have grown' := (readyStack.step stepped.run).1
  refine ⟨_, e₁, stepped.run, .cons (h.at_of_related related) ?_, fun listed => ?_⟩
  · exact tail.imp fun _ _ one => one.mono (h.mono onward onward' grown grown')
  · exact absurd listed (not_applied_push (h.values related).1.ne_arguments below)

mutual

theorem step_follows (h : Lockstep r scope origin allows R) (wf : origin.WellFormed)
    (site : List Nat)
    (stack stack' : Stack Tree) (t : Token) {stack₁ : Stack Tree} {d d₁ e : Design} {applied : Bool}
    (allowed : allows applied t) (known : Applied stack → applied = true)
    (onward : origin.Leads d) (onward' : origin.Leads e) (ready : Ready d stack.items)
    (ready' : Ready e stack'.items) (same : List.Forall₂ (At origin R d e) stack.items stack'.items)
    (run : step (r.simplifying false) scope key site stack t d = .ok stack₁ d₁) :
    ∃ stack₁' e₁, step (r.simplifying true) scope key site stack' t e = .ok stack₁' e₁ ∧
      List.Forall₂ (At origin R d₁ e₁) stack₁.items stack₁'.items ∧
      (Applied stack₁ → t.isArguments = true) := by
  have grown := (ready.step run).1
  obtain ⟨items⟩ := stack
  obtain ⟨items'⟩ := stack'
  obtain ⟨items₁⟩ := stack₁
  cases stepped_of_step run with
  | literal _ v =>
    exact h.replaced onward onward' ready' grown same (h.literal allowed) (.literal items' v e)
  | marker =>
    refine ⟨_, e, (Stepped.marker items' e).run, .cons .marker same, fun listed => ?_⟩
    exact absurd listed (not_applied_push (t := .marker) (fun _ => by simp) items)
  | arguments popped =>
    obtain ⟨args', rest', popped', args, rest⟩ := popUntil?_facing ⟨items⟩ ⟨items'⟩ same popped
    refine ⟨_, e, (Stepped.arguments popped').run, .cons (.arguments ?_) rest, fun _ => rfl⟩
    exact args.imp fun _ _ one => one.paired
  | called made =>
    rw [known ⟨_, _, rfl⟩] at allowed
    obtain ⟨_, rest', head, tail, rfl⟩ := List.forall₂_cons_left_iff.mp same
    cases head with
    | value value => exact absurd rfl (value.ne_arguments _)
    | name known => cases known
    | arguments args =>
      obtain ⟨t', e₁, made', related⟩ := h.called allowed onward onward' ready.arguments
        ready'.arguments args
        made
      exact h.replaced onward onward' ready' grown tail related (.called made')
  | named plain =>
    rename_i name
    have stepped : Stepped (r.simplifying true) scope key site items' (.identifier name) e
      (identifier e scope name :: items') e := .named (plain_facing same plain)
    refine ⟨_, e, stepped.run, .cons ?_ same, fun listed => ?_⟩
    · rw [identifier_eq onward.grown onward.snapshot, identifier_eq onward'.grown onward'.snapshot]
      exact h.at_identifier wf name
    · exact absurd listed (not_applied_push (identifier_ne_arguments _ scope name) items)
  | unary made =>
    obtain ⟨x', rest', head, tail, rfl⟩ := List.forall₂_cons_left_iff.mp same
    obtain ⟨t', e₁, made', related⟩ := h.unary_follows allowed ready'.built.1 head made
    exact h.replaced onward onward' ready' grown tail related (.unary made')
  | binary made =>
    obtain ⟨y', _, right, more, rfl⟩ := List.forall₂_cons_left_iff.mp same
    obtain ⟨x', rest', left, tail, rfl⟩ := List.forall₂_cons_left_iff.mp more
    obtain ⟨t', e₁, made', related⟩ := h.binary_follows allowed onward onward' left
      right ready' made
    exact h.replaced onward onward' ready' grown tail related (.binary made')
  | ternary made =>
    rename_i thn els c t rest
    obtain ⟨thnAllowed, elsAllowed⟩ := h.arms allowed
    obtain ⟨c', rest', head, tail, rfl⟩ := List.forall₂_cons_left_iff.mp same
    have thnArm : Arm origin R (steps (r.simplifying false) scope key (0 :: site) 0 .empty thn)
        (steps (r.simplifying true) scope key (0 :: site) 0 .empty thn) :=
      ⟨fun ready => ready.steps, fun ready => ready.steps, fun onward onward' ready ready' =>
        steps_follows h wf (0 :: site) 0 .empty .empty thn thnAllowed nofun onward onward'
          ready ready' .nil⟩
    have elsArm : Arm origin R (steps (r.simplifying false) scope key (1 :: site) 0 .empty els)
        (steps (r.simplifying true) scope key (1 :: site) 0 .empty els) :=
      ⟨fun ready => ready.steps, fun ready => ready.steps, fun onward onward' ready ready' =>
        steps_follows h wf (1 :: site) 0 .empty .empty els elsAllowed nofun onward onward'
          ready ready' .nil⟩
    obtain ⟨t', e₁, made', related⟩ := h.choice_follows thnArm elsArm onward onward'
      head ready.aside
      ready'.aside made
    exact h.replaced onward onward' ready' grown tail related (.ternary made')

theorem steps_follows (h : Lockstep r scope origin allows R) (wf : origin.WellFormed)
    (site : List Nat)
    (k : Nat) (stack stack' : Stack Tree) (ts : List Token) {stack₁ : Stack Tree} {d d₁ e : Design}
    {applied : Bool} (allowed : Token.Admitted allows applied ts)
    (known : Applied stack → applied = true) (onward : origin.Leads d) (onward' : origin.Leads e)
    (ready : Ready d stack.items) (ready' : Ready e stack'.items)
    (same : List.Forall₂ (At origin R d e) stack.items stack'.items)
    (run : steps (r.simplifying false) scope key site k stack ts d = .ok stack₁ d₁) :
    ∃ stack₁' e₁, steps (r.simplifying true) scope key site k stack' ts e = .ok stack₁' e₁ ∧
      List.Forall₂ (At origin R d₁ e₁) stack₁.items stack₁'.items := by
  cases ts with
  | nil =>
    rw [steps] at run
    cases run
    exact ⟨stack', e, by rw [steps]; rfl, same⟩
  | cons t ts =>
    rw [steps] at run
    obtain ⟨stack₂, d₂, first, rest⟩ := bind_eq_ok.mp run
    obtain ⟨grown, read, readyNext⟩ := ready.step first
    obtain ⟨stack₂', e₂, first', sameNext, knownNext⟩ := step_follows h wf (k :: site) stack
      stack' t allowed.1
      known onward onward' ready ready' same first
    obtain ⟨grown', read', readyNext'⟩ := ready'.step first'
    obtain ⟨stack₁', e₁, rest', sameLast⟩ := steps_follows h wf site (k + 1) stack₂
      stack₂' ts allowed.2
      knownNext (onward.trans ⟨grown, read⟩) (onward'.trans ⟨grown', read'⟩) readyNext
        readyNext' sameNext rest
    refine ⟨stack₁', e₁, ?_, sameLast⟩
    rw [steps]
    exact bind_eq_ok.mpr ⟨stack₂', e₂, first', rest'⟩

end

/-- What resolves as it is written resolves with simplification, to a tree that is related. -/
theorem resolve (h : Lockstep r scope origin allows R) (wf : origin.WellFormed) {s : Source}
    {t : Tree} {d₁ : Design} (allowed : Token.Admitted allows false s.raw)
    (run : s.resolve (r.simplifying false) scope origin = .ok t d₁) :
    ∃ t' d₂, s.resolve (r.simplifying true) scope origin = .ok t' d₂ ∧ R d₁ d₂ t t' := by
  have arm : Arm origin R (steps (r.simplifying false) scope s.key [] 0 .empty s.raw)
      (steps (r.simplifying true) scope s.key [] 0 .empty s.raw) :=
    ⟨fun ready => ready.steps, fun ready => ready.steps, fun onward onward' ready ready' =>
      h.steps_follows wf [] 0 .empty .empty s.raw allowed nofun onward onward' ready ready' .nil⟩
  obtain ⟨t', d₂, run', resolved⟩ := h.resolve_arm arm (.refl origin) (.refl origin) (.initial wf)
    (.initial wf) run
  exact ⟨t', d₂, run', resolved.related⟩

end Lockstep
end Resolve
end Analog
