import Analog.Proofs.Resolver.Lockstep
import Analog.Proofs.Tree.IntegerValue

/-!
Where an expression resolves as it is written, it resolves with simplification, too, and the tree
has the value of the first one wherever that has a value. The numbers of branches go apart, so what
a tree reads is compared by leaves.
-/
namespace Analog

mutual

/-- Whether no function is called but those that access a branch. A name is `applied` if it follows
an argument list. -/
def Token.callless (config : Config) (applied : Bool) : Token → Bool
  | .identifier name => !applied || (config.access? name).isSome || (Function.find? name).isNone
  | .ternary thn els => calllessAll config false thn && calllessAll config false els
  | _ => true

def Token.calllessAll (config : Config) (applied : Bool) : List Token → Bool
  | [] => true
  | t :: ts => t.callless config applied && calllessAll config t.isArguments ts

end

theorem Token.admitted_of_callless {config : Config} {applied : Bool} {ts : List Token}
    (h : calllessAll config applied ts = true) :
    Admitted (fun applied t => t.callless config applied = true) applied ts := by
  induction ts generalizing applied with
  | nil => trivial
  | cons t ts ih =>
    rw [calllessAll, Bool.and_eq_true] at h
    exact ⟨h.1, ih h.2⟩

namespace Tree

theorem valueFault?_of_scalar {t : Tree} (h : t.Scalar) (c : Circuit) : t.valueFault? c = none := by
  cases t with
  | node | port | marker | deferred | arguments => cases h
  | _ => rfl

/-- In circuits that grow out of `c` and `c'`, the second tree has the value of the first. -/
structure Refines (c c' : Circuit) (t t' : Tree) : Prop where
  plain : t.Scalar
  simple : t'.Scalar
  value : ∀ later later', c.Extends later → c'.Extends later' → ∀ read n,
    t.value? later read = some n → t'.value? later' read = some n

namespace Refines

variable {c c' d d' : Circuit} {x x' y y' z z' : Tree}

theorem mono (h : Refines c c' x x') (plain : c.Extends d) (simple : c'.Extends d') :
    Refines d d' x x' :=
  ⟨h.plain, h.simple, fun later later' grown grown' =>
    h.value later later' (plain.trans grown) (simple.trans grown')⟩

theorem unary (h : Refines c c' x x') (op : UnaryOp) :
    Refines c c' (Simplify.plainUnary op x) (Simplify.unary op x') := by
  refine ⟨h.plain, Simplify.scalar_unary op h.simple, ?_⟩
  intro later later' grown grown' read n known
  obtain ⟨m, operand, result⟩ := Option.map_eq_some_iff.mp known
  refine Simplify.value?_unary op x' (Option.map_eq_some_iff.mpr ⟨m, ?_, result⟩)
  exact h.value later later' grown grown' read m operand

theorem binary (left : Refines c c' x x') (right : Refines c c' y y') (op : BinaryOp) :
    Refines c c' (Simplify.plainBinary op x y) (Simplify.binary op x' y').tree := by
  refine ⟨⟨left.plain, right.plain⟩, Simplify.scalar_binary op left.simple right.simple, ?_⟩
  intro later later' grown grown' read n known
  obtain ⟨a, b, leftKnown, rightKnown, result⟩ := Simplify.value?_binary.mp known
  refine Simplify.value?_simplified op x' y' (Simplify.value?_binary.mpr ⟨a, b, ?_, ?_, result⟩)
  · exact left.value later later' grown grown' read a leftKnown
  · exact right.value later later' grown grown' read b rightKnown

theorem value?_ternary {circuit : Circuit} {read : Leaf → Int64} {n : Int64} {s : Summary} :
    (Tree.ternary x y z s).value? circuit read = some n ↔ ∃ m, x.value? circuit read = some m ∧
      (if m.toInt ≠ 0 then y.value? circuit read else z.value? circuit read) = some n := by
  simp only [Tree.value?, Option.bind_eq_bind, Option.bind_eq_some_iff]

theorem ternary (cond : Refines c c' x x') (thn : Refines c c' y y') (els : Refines c c' z z')
    (s s' : Summary) : Refines c c' (.ternary x y z s) (.ternary x' y' z' s') := by
  refine ⟨⟨cond.plain, thn.plain, els.plain⟩, ⟨cond.simple, thn.simple, els.simple⟩, ?_⟩
  intro later later' grown grown' read n known
  obtain ⟨m, condition, result⟩ := value?_ternary.mp known
  refine value?_ternary.mpr ⟨m, cond.value later later' grown grown' read m condition, ?_⟩
  split at result
  · rename_i holds
    rw [if_pos holds]
    exact thn.value later later' grown grown' read n result
  · rename_i fails
    rw [if_neg fails]
    exact els.value later later' grown grown' read n result

theorem chosen {v : Value} {o : Option Symbol} {b : Bool} (cond : Refines c c' x (.literal v o))
    (truth : v.truth? = some b) (thn : y.Scalar) (els : z.Scalar)
    (arm : Refines c c' (if b then y else z) x') (s : Summary) :
    Refines c c' (.ternary x y z s) x' := by
  refine ⟨⟨cond.plain, thn, els⟩, arm.simple, ?_⟩
  intro later later' grown grown' read n known
  obtain ⟨m, condition, result⟩ := value?_ternary.mp known
  have literal := cond.value later later' grown grown' read m condition
  cases Simplify.integer?_eq_some.mp literal
  rw [Integer.truth?_int] at truth
  cases truth
  refine arm.value later later' grown grown' read n ?_
  simp only [bne_iff_ne]
  split at result
  · rename_i holds
    rw [if_pos holds]
    exact result
  · rename_i fails
    rw [if_neg fails]
    exact result

end Refines

end Tree

namespace Circuit

variable {c later : Circuit}

theorem leaf_named {name : String} {b : BranchId} (found : c.lookup? name = some b)
    (ext : c.Extends later) (function : String) (probe : Probe) :
    later.leaf ⟨function, ⟨b, false⟩, probe⟩ = .named function b := by
  have inside := lookup?_lt found
  rw [lookup?_eq] at found
  have named := (firstBranch?_eq_some.mp found).2.1
  simp only [isNamed, Bool.and_eq_true] at named
  rw [leaf, Branch.isAlias_eq_of_uncounted (ext.kept b inside), if_pos named.2.1]

theorem leaf_between {r : BranchRef} {p n : NodeId} (joined : c.Joins r p n) (ext : c.Extends later)
    (function : String) (probe : Probe) :
    later.leaf ⟨function, r, probe⟩ = .between function p n := by
  have same := ext.kept r.branch joined.inside
  have positive : later.refP r = c.refP r := by
    have ps := congrArg (fun b : Branch => if r.reversed then b.n else b.p) same
    exact ps
  have negative : later.refN r = c.refN r := by
    have ns := congrArg (fun b : Branch => if r.reversed then b.p else b.n) same
    exact ns
  have own : (later.branch r.branch).isAlias = false := by
    rw [Branch.isAlias_eq_of_uncounted same]
    exact joined.own
  rw [leaf, own, positive, negative, joined.positive, joined.negative]
  rfl

end Circuit

namespace Resolve

variable {origin d d₁ e e₁ : Design} {r : Resolver} {scope : ScopeId}

/-- The two references are seen as one leaf from now on. -/
theorem SameBranch.leaf {ref ref' : BranchRef} (h : SameBranch origin d e ref ref')
    (plain : origin.Extends d)
    (simple : origin.Extends e) {later later' : Circuit} (ext : d.circuit.Extends later)
    (ext' : e.circuit.Extends later') (function : String) (probe probe' : Probe) :
    later.leaf ⟨function, ref, probe⟩ = later'.leaf ⟨function, ref', probe'⟩ := by
  cases h with
  | named found =>
    rw [Circuit.leaf_named found (plain.circuit.trans ext),
      Circuit.leaf_named found (simple.circuit.trans ext')]
  | between _ _ found found' =>
    rw [Circuit.leaf_between (Circuit.joins_of_between? found) ext,
      Circuit.leaf_between (Circuit.joins_of_between? found') ext']

theorem access_refines (wf : origin.WellFormed) {function : String} {a : Access}
    {args args' : List Tree} {t : Tree}
    {rel : Tree → Tree → Prop} (plain : origin.Extends d) (simple : origin.Extends e)
    (items : List.Forall₂ (Tree.Paired origin.circuit.nodes.size rel) args args')
    (run : access function a args d = .ok t d₁) :
    ∃ t' e₁, access function a args' e = .ok t' e₁ ∧ Tree.Refines d₁.circuit e₁.circuit t t' := by
  obtain ⟨ref, d', named, rest⟩ := bind_eq_ok.mp run
  cases rest
  obtain ⟨ref', e', named', same⟩ := branch_same wf plain simple items named
  have plain' := plain.trans (extends_of_branch named)
  have simple' := simple.trans (extends_of_branch named')
  refine ⟨_, _, bind_eq_ok.mpr ⟨ref', e', named', rfl⟩, trivial, trivial, ?_⟩
  intro later later' ext ext' read n value
  have taken := Circuit.extends_of_uncounted (Circuit.uncounted_take d'.circuit ref.branch a.probe)
  have taken' := Circuit.extends_of_uncounted
    (Circuit.uncounted_take e'.circuit ref'.branch a.probe)
  rw [Tree.value?] at value ⊢
  rw [← same.leaf plain' simple' (taken.trans ext) (taken'.trans ext') function]
  exact value

theorem call_refines (wf : origin.WellFormed) {site : CallSite} {name : String}
    {args args' : List Tree} {t : Tree}
    {rel : Tree → Tree → Prop} (callless : Token.callless r.config true (.identifier name) = true)
    (plain : origin.Extends d) (simple : origin.Extends e)
    (items : List.Forall₂ (Tree.Paired origin.circuit.nodes.size rel) args args')
    (run : call (r.simplifying false) scope site name args d = .ok t d₁) :
    ∃ t' e₁, call (r.simplifying true) scope site name args' e = .ok t' e₁ ∧
      Tree.Refines d₁.circuit e₁.circuit t t' := by
  unfold call at run ⊢
  have known : ∀ b, (r.simplifying b).config.access? name = r.config.access? name := fun _ => rfl
  simp only [known] at run ⊢
  cases accessed : r.config.access? name with
  | some a =>
    simp only [accessed] at run ⊢
    exact access_refines wf plain simple items run
  | none =>
    simp only [Token.callless, accessed, Option.isSome_none, Bool.not_true, Bool.false_or,
      Option.isNone_iff_eq_none] at callless
    simp only [accessed, callless] at run
    obtain ⟨d', _, _, rest⟩ := bind_eq_ok.mp run
    cases bound : d'.lookup? scope name with
    | none =>
      simp only [bound] at rest
      cases rest
    | some b =>
      simp only [bound] at rest
      cases rest

theorem identifier_refines {c c' : Circuit} {name : String}
    (value : (identifier origin scope name).IsValue) :
    Tree.Refines c c' (identifier origin scope name) (identifier origin scope name) := by
  have fine := value default
  unfold identifier at fine ⊢
  split at fine
  · split <;> exact ⟨trivial, trivial, fun _ _ _ _ _ _ value => value⟩
  · exact ⟨trivial, trivial, fun _ _ _ _ _ _ value => value⟩
  · cases fine
  · cases fine
  · split at fine
    · split at fine
      · rename_i free
        rw [if_pos free]
        exact ⟨trivial, trivial, fun _ _ _ _ _ _ value => value⟩
      · cases fine
    · cases fine

theorem lockstep_refines (wf : origin.WellFormed) : Lockstep r scope origin
    (fun applied t => t.callless r.config applied = true)
    (fun d e => Tree.Refines d.circuit e.circuit) where
  arms allowed := by
    rw [Token.callless, Bool.and_eq_true] at allowed
    exact ⟨Token.admitted_of_callless allowed.1, Token.admitted_of_callless allowed.2⟩
  values h := ⟨Tree.valueFault?_of_scalar h.plain, Tree.valueFault?_of_scalar h.simple⟩
  mono _ _ plain simple h := h.mono plain.circuit simple.circuit
  literal _ := ⟨trivial, trivial, fun _ _ _ _ _ _ value => value⟩
  named := identifier_refines
  called callless plain simple _ _ items run := call_refines wf callless plain.grown
    simple.grown items run
  unary _ _ h := h.unary _
  binary _ _ _ left right := left.binary right _
  ternary cond thn els := cond.ternary thn els _ _
  chosen {_ _ _ _ _ _ _ b _ _ _} cond truth taken other := by
    cases b with
    | true => exact cond.chosen truth taken.plain other.plain taken _
    | false => exact cond.chosen truth other.plain taken.plain taken _

end Resolve

namespace Source

/-- What resolves as it is written resolves with simplification, to a tree that has the same value
for all values of what is read, wherever the tree as it is written has a value. -/
theorem simplifying_keeps_value {r : Resolver} {s : Source} {scope : ScopeId} {t : Tree}
    {d d₁ : Design} (wf : d.WellFormed) (callless : Token.calllessAll r.config false s.raw = true)
    (run : s.resolve (r.simplifying false) scope d = .ok t d₁) :
    ∃ t' d₂, s.resolve (r.simplifying true) scope d = .ok t' d₂ ∧
      ∀ read n, t.value? d₁.circuit read = some n → t'.value? d₂.circuit read = some n := by
  obtain ⟨t', d₂, run', refines⟩ := (Resolve.lockstep_refines wf).resolve wf
    (Token.admitted_of_callless callless) run
  exact ⟨t', d₂, run', fun read n value => refines.value _ _ (.refl _) (.refl _) read n value⟩

def shiftedReading : Source where
  raw := [.literal (.int 2), .literal (.int 1), .binary .gt,
    .ternary [.marker, .identifier "back", .arguments, .identifier "V",
        .literal (.int 3), .binary .add, .literal (.int 5), .binary .sub]
      [.marker, .identifier "p", .identifier "n", .arguments, .identifier "I"]]
  key := 0

theorem simplifying_keeps_value_shifted : bridged.WellFormed ∧
    Token.calllessAll Config.default false shiftedReading.raw = true ∧
    ∃ t d₁ t' d₂,
      shiftedReading.resolve (Resolver.simplifying ⟨.default, 0⟩ false) 0 bridged = .ok t d₁ ∧
      shiftedReading.resolve (Resolver.simplifying ⟨.default, 0⟩ true) 0 bridged = .ok t' d₂ ∧
      t.value? d₁.circuit (fun _ => 7) = some 5 ∧ t'.value? d₂.circuit (fun _ => 7) = some 5 := by
  have callless : Token.calllessAll Config.default false shiftedReading.raw = true := by decide
  obtain ⟨t', d₂, run, same⟩ := simplifying_keeps_value (r := ⟨.default, 0⟩)
    wellFormed_bridged callless
    (rfl : shiftedReading.resolve (Resolver.simplifying ⟨.default, 0⟩ false) 0 bridged = .ok _ _)
  exact ⟨wellFormed_bridged, callless, _, _, t', d₂, rfl, run, by decide, same _ _ (by decide)⟩

end Source
end Analog
