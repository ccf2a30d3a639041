import Analog.Proofs.Resolver.Steps
import Analog.Statement.Update

/-!
What resolving does to a design, step by step: uses are counted, nodes are joined, and filters get
nodes and branches of their own. What each of these steps keeps is kept by resolving, whether it
succeeds or not, and by statements that are no conditionals if assigning and shortening keep it,
too.
-/
namespace Analog

mutual

def Token.names : Token → List String
  | .identifier name => [name]
  | .ternary thn els => namesAll thn ++ namesAll els
  | _ => []

def Token.namesAll : List Token → List String
  | [] => []
  | t :: ts => t.names ++ namesAll ts

end

def Role.isFilter : Role → Bool
  | .filter => true
  | _ => false

def Config.filters (config : Config) (name : String) : Bool :=
  (config.access? name).isNone && (Function.find? name).any (·.role.isFilter)

def CircuitM.Recounts {α : Type} (act : CircuitM α) (c : Circuit) : Prop :=
  (∀ a c', act c = .ok a c' → c'.uncounted = c.uncounted) ∧ ∀ x c', act c = .error x c' →
    c'.uncounted = c.uncounted

theorem CircuitM.Recounts.bind {α β : Type} {act : CircuitM α} {next : α → CircuitM β} {c : Circuit}
    (first : Recounts act c) (rest : ∀ a c', Recounts (next a) c') : Recounts (act >>= next) c := by
  unfold Recounts at first ⊢
  simp only [Bind.bind, EStateM.bind]
  cases run : act c with
  | error x c₁ => exact ⟨nofun, fun _ _ same => first.2 x _ (by cases same; exact run)⟩
  | ok a c₁ =>
    have same := first.1 a c₁ run
    exact ⟨fun b c' run' => ((rest a c₁).1 b c' run').trans same,
      fun x c' run' => ((rest a c₁).2 x c' run').trans same⟩

namespace Circuit

open CircuitM

theorem recounts_of_eq {α : Type} {act : CircuitM α} {c : Circuit} {a : α}
    (same : act c = .ok a c) : Recounts act c := by
  unfold Recounts
  rw [same]
  constructor
  · rintro _ _ ⟨⟩
    rfl
  · rintro _ _ ⟨⟩

theorem recounts_lowerOne (b : BranchId) (u : Usage) (c : Circuit) : Recounts (lowerOne b u) c := by
  unfold Recounts lowerOne
  cases c.count b u with
  | zero =>
    refine ⟨nofun, ?_⟩
    rintro _ _ ⟨⟩
    rfl
  | succ n =>
    refine ⟨?_, nofun⟩
    rintro _ _ ⟨⟩
    exact uncounted_setCount c b u n

theorem recounts_give (b : BranchId) (u : Usage) (c : Circuit) : Recounts (give b u) c := by
  refine (recounts_lowerOne b u c).bind fun _ c₁ => ?_
  have got : Recounts get c₁ := recounts_of_eq rfl
  refine got.bind fun c₂ c₃ => ?_
  cases (c₂.branch b).base with
  | some a => exact recounts_lowerOne a u c₃
  | none => exact recounts_of_eq rfl

theorem recounts_giveAll (us : List (BranchId × Usage)) (c : Circuit) :
    Recounts (giveAll us) c := by
  induction us generalizing c with
  | nil => exact recounts_of_eq rfl
  | cons x us ih => exact (recounts_give x.1 x.2 c).bind fun _ => ih

theorem uncounted_takeFilter (c : Circuit) (b : BranchId) :
    (c.takeFilter b).uncounted = c.uncounted :=
  (uncounted_take _ _ _).trans (uncounted_take _ _ _)

end Circuit

/-- A relation to the design before that the steps of resolving keep; that of adding a filter only
at one of the `sites`. -/
structure Design.Upheld (sites : CallSite → Prop) (R : Design → Design → Prop) : Prop where
  refl : ∀ d, R d d
  trans : ∀ {a b c}, R a b → R b c → R a c
  recount : ∀ {d : Design} {c : Circuit}, c.uncounted = d.circuit.uncounted →
    R d { d with circuit := c }
  connect : ∀ {d : Design} {p n : NodeId} {ref : BranchRef} {c : Circuit},
    d.circuit.connect p n = .ok (ref, c) → R d { d with circuit := c }
  filter : ∀ {d : Design} {site : CallSite}, sites site → d.filters.lookup site = none →
    ∀ stem : String,
    R d { d with
      circuit := (d.circuit.addFilter stem).2
      filters := (site, (d.circuit.addFilter stem).1) :: d.filters }

abbrev DesignM.Stays {α : Type} (R : Design → Design → Prop) (act : DesignM α) (d : Design) :
    Prop :=
  Meets act d (fun _ => R d) fun _ => R d

namespace DesignM.Stays

variable {R : Design → Design → Prop} {α : Type} {act : DesignM α} {d : Design}

theorem ok {a : α} {d' : Design} (h : Stays R act d) (run : act d = .ok a d') : R d d' := by
  unfold Stays Meets at h
  rwa [run] at h

theorem error {f : Failure} {d' : Design} (h : Stays R act d) (run : act d = .error f d') :
    R d d' := by
  unfold Stays Meets at h
  rwa [run] at h

end DesignM.Stays

namespace Design.Upheld

open DesignM

variable {sites : CallSite → Prop} {R : Design → Design → Prop} {α β : Type} {act : DesignM α}
  {d : Design} (upheld : Upheld sites R)

include upheld

theorem bind {next : α → DesignM β} (first : Stays R act d) (rest : ∀ a d', Stays R (next a) d') :
    Stays R (act >>= next) d :=
  Meets.bind first fun a d' kept =>
    Meets.mono (rest a d') (fun _ _ => upheld.trans kept) fun _ _ => upheld.trans kept

theorem giveAll (us : List (BranchId × Usage)) (d : Design) :
    Stays R (onCircuit (Circuit.giveAll us)) d := by
  unfold Stays Meets onCircuit
  cases run : Circuit.giveAll us d.circuit with
  | ok _ c => exact upheld.recount ((Circuit.recounts_giveAll us _).1 _ _ run)
  | error u c => exact upheld.recount ((Circuit.recounts_giveAll us _).2 _ _ run)

theorem orRelease (held : List Tree) (h : Stays R act d) :
    Stays R (DesignM.orRelease held act) d := by
  unfold Stays Meets at h ⊢
  unfold DesignM.orRelease
  cases run : act d with
  | ok a d' =>
    rw [run] at h
    exact h
  | error f d' =>
    rw [run] at h
    cases f with
    | underflow u => exact h
    | endless => exact h
    | problem p =>
      have released : Stays R (onCircuit (Tree.releaseAll held)) d' := upheld.giveAll _ d'
      cases run' : onCircuit (Tree.releaseAll held) d' with
      | ok _ d'' =>
        simp only [run']
        exact upheld.trans h (released.ok run')
      | error f d'' =>
        simp only [run']
        exact upheld.trans h (released.error run')

end Design.Upheld

namespace Resolve

open DesignM

theorem branch_single (function : String) {t : Tree} (other : ∀ name, t ≠ .deferred name) :
    branch function [t] =
      match t.nodeId? with
      | some p => connect function p ground
      | none => DesignM.fail (.notBranch function) := by
  cases t with
  | deferred name => exact absurd rfl (other name)
  | _ => rfl

theorem branch_many (function : String) (t u v : Tree) (ts : List Tree) (d : Design) :
    branch function (t :: u :: v :: ts) d =
      .error (.ofCause (.accessArguments function (t :: u :: v :: ts).length)) d := by
  cases t <;> rfl

theorem filterBranch_eq (site : CallSite) (function : String) (d : Design) :
    filterBranch site function d = match d.filters.lookup site with
    | some b => .ok b d
    | none => .ok (d.circuit.addFilter function).1
        { d with circuit := (d.circuit.addFilter function).2
                 filters := (site, (d.circuit.addFilter function).1) :: d.filters } := by
  unfold filterBranch
  simp only [bind, EStateM.bind, get, getThe, MonadStateOf.get, EStateM.get]
  cases d.filters.lookup site <;> rfl

/-- A property of operations that all of resolving has if its parts have it: those that look at a
value, join two nodes, take a probe, ask for a parameter and, at one of the `sites`, read a
filter. -/
structure Pervades (sites : CallSite → Prop) (P : {α : Type} → DesignM α → Prop) : Prop where
  pure : ∀ {α : Type} (a : α), P (Pure.pure a : DesignM α)
  fail : ∀ {α : Type} (cause : Cause), P (DesignM.fail cause : DesignM α)
  bind : ∀ {α β : Type} {act : DesignM α} {next : α → DesignM β}, P act → (∀ a, P (next a)) →
    P (act >>= next)
  /-- Reading what a name means, for which the circuit does not matter. -/
  read : ∀ {α : Type} {next : Design → DesignM α}, (∀ d c, next { d with circuit := c } = next d) →
    (∀ d, P (next d)) → P (get >>= next)
  release : ∀ ts : List Tree, P (onCircuit (Tree.releaseAll ts))
  orRelease : ∀ {α : Type} (held : List Tree) {act : DesignM α}, P act →
    P (DesignM.orRelease held act)
  value : ∀ t : Tree, P (requireValue t)
  connect : ∀ (function : String) (p n : NodeId), P (Resolve.connect function p n)
  named : ∀ function name : String, P (Resolve.branch function [.deferred name])
  probe : ∀ (function : String) (a : Access) {args : List Tree}, P (Resolve.branch function args) →
    P (Resolve.access function a args)
  given : ∀ (r : Resolver) (function : String) (args : List Tree),
    P (parameterGiven r function args)
  filter : ∀ (r : Resolver) {site : CallSite} (function : String) (args : List Tree), sites site →
    P (Resolve.filter r site function args)

namespace Pervades

variable {sites : CallSite → Prop} {P : {α : Type} → DesignM α → Prop} (h : Pervades sites P)
    {scope : ScopeId}

include h

theorem requireValues (ts : List Tree) : P (Resolve.requireValues ts) := by
  induction ts with
  | nil => exact h.pure ()
  | cons t ts ih => exact h.bind (h.value t) fun _ => ih

theorem branch (function : String) (args : List Tree) : P (Resolve.branch function args) := by
  match args with
  | [] => exact h.fail _
  | [t] =>
    by_cases deferred : ∃ name, t = .deferred name
    · obtain ⟨name, rfl⟩ := deferred
      exact h.named function name
    · rw [branch_single function fun name is => deferred ⟨name, is⟩]
      split
      · exact h.connect function _ ground
      · exact h.fail _
  | [t, u] =>
    simp only [Resolve.branch]
    split
    · exact h.fail _
    · exact h.connect function _ _
    · exact h.fail _
  | t :: u :: v :: ts => cases t <;> exact h.fail _

theorem function (r : Resolver) (site : CallSite) {f : Function}
    (calm : f.role.isFilter = true → sites site)
    (args : List Tree) : P (Resolve.function r site f args) := by
  have computed : P (mathematical r f args) := by
    rw [mathematical_eq]
    exact h.pure _
  have guarded {act : DesignM Tree} (misfits : Prop) [Decidable misfits] (cause : Cause)
      (one : P act) :
      P (if misfits then DesignM.fail cause >>= fun _ : PUnit => act else act) := by
    split
    · exact h.bind (h.fail _) fun _ => one
    · exact one
  unfold Resolve.function
  cases role : f.role with
  | given => exact guarded _ _ (h.given r f.name args)
  | filter =>
    have allowed : sites site := calm (by rw [role]; rfl)
    exact guarded _ _ (h.bind (h.requireValues args) fun _ => h.filter r f.name args allowed)
  | environment | unary _ | binary _ =>
    exact guarded _ _ (h.bind (h.requireValues args) fun _ => computed)

theorem call (r : Resolver) (site : CallSite) {name : String}
    (calm : r.config.filters name = true → sites site)
    (args : List Tree) : P (Resolve.call r scope site name args) := by
  unfold Resolve.call
  cases accessed : r.config.access? name with
  | some a => exact h.probe name a (h.branch name args)
  | none =>
    cases found : Function.find? name with
    | some f =>
      refine h.function r site (fun isFilter => calm ?_) args
      simp [Config.filters, accessed, found, isFilter]
    | none =>
      refine h.read (fun _ _ => rfl) fun d => ?_
      cases d.lookup? scope name <;> exact h.fail _

theorem unary (r : Resolver) (op : UnaryOp) (x : Tree) : P (Resolve.unary r op x) :=
  h.bind (h.value x) fun _ => h.pure _

theorem binary (r : Resolver) (op : BinaryOp) (x y : Tree) : P (Resolve.binary r op x y) := by
  refine h.bind (h.value x) fun _ => h.bind (h.value y) fun _ => ?_
  split
  · exact h.bind (h.release _) fun _ => h.pure _
  · exact h.pure _

theorem single (raw : Raw) (stack : Stack Tree) : P (Resolve.single raw stack) := by
  unfold Resolve.single
  split
  · exact h.bind (h.orRelease _ (h.value _)) fun _ => h.pure _
  · exact h.orRelease _ (h.fail _)

theorem replace {act : DesignM Tree} (held below : List Tree) (first : P act) :
    P (do
      let t ← DesignM.orRelease held act
      return ⟨t :: below⟩ : DesignM (Stack Tree)) := h.bind (h.orRelease held first)
      fun _ => h.pure _

theorem choice (r : Resolver) (c : Tree) (thn els : Raw) {first second : DesignM (Stack Tree)}
    (one : P first) (two : P second) : P (Resolve.choice r c thn els first second) := by
  have other := h.bind two (h.single els)
  refine h.bind (h.value c) fun _ => ?_
  split
  · exact h.bind one (h.single thn)
  · exact other
  · exact h.bind one fun stack => h.bind (h.single thn stack) fun t =>
      h.bind (h.orRelease [t] other) fun _ => h.pure _

mutual

theorem step (r : Resolver) (scope : ScopeId) (key : Nat) (site : List Nat) (stack : Stack Tree)
    (t : Token)
    (calm : ∀ name ∈ t.names, r.config.filters name = true → ∀ path, sites ⟨r.tag, key, path⟩) :
    P (Resolve.step r scope key site stack t) := by
  cases t with
  | literal v | marker =>
    rw [Resolve.step]
    exact h.pure _
  | arguments =>
    rw [Resolve.step]
    split
    · exact h.pure _
    · exact h.orRelease _ (h.fail _)
  | identifier name =>
    rw [Resolve.step]
    split
    · exact h.replace _ _ (h.call r _ (calm name (.head _) · _) _)
    · exact h.read (fun _ _ => rfl) fun _ => h.pure _
  | unary op =>
    rw [Resolve.step]
    split
    · exact h.replace _ _ (h.unary r op _)
    · exact h.fail _
  | binary op =>
    rw [Resolve.step]
    split
    · exact h.replace _ _ (h.binary r op _ _)
    · exact h.orRelease _ (h.fail _)
  | ternary thn els =>
    rw [Resolve.step]
    split
    · exact h.replace _ _ (h.choice r _ thn els
        (steps r scope key (0 :: site) 0 .empty thn fun name mem => calm name
          (List.mem_append_left _ mem))
        (steps r scope key (1 :: site) 0 .empty els fun name mem => calm name
          (List.mem_append_right _ mem)))
    · exact h.fail _

theorem steps (r : Resolver) (scope : ScopeId) (key : Nat) (site : List Nat) (k : Nat)
    (stack : Stack Tree) (ts : List Token)
    (calm : ∀ name ∈ Token.namesAll ts, r.config.filters name = true → ∀ path,
      sites ⟨r.tag, key, path⟩) :
    P (Resolve.steps r scope key site k stack ts) := by
  cases ts with
  | nil =>
    rw [Resolve.steps]
    exact h.pure _
  | cons t ts =>
    rw [Resolve.steps]
    exact h.bind (step r scope key (k :: site) stack t fun name mem => calm name
      (List.mem_append_left _ mem))
      fun stack => steps r scope key site (k + 1) stack ts fun name mem =>
        calm name (List.mem_append_right _ mem)

end

end Pervades

end Resolve

theorem Design.Upheld.pervades {sites : CallSite → Prop} {R : Design → Design → Prop}
    (upheld : Upheld sites R) : Resolve.Pervades sites fun act => ∀ d, DesignM.Stays R act d where
  pure _ := upheld.refl
  fail _ := upheld.refl
  bind first rest d := upheld.bind (first d) rest
  read _ rest d := Meets.get (rest d d)
  release ts := upheld.giveAll (Tree.allUses ts)
  orRelease held _ first d := upheld.orRelease held (first d)
  value t d := by
    unfold DesignM.Stays Meets
    rw [Resolve.requireValue_eq]
    cases t.valueFault? d.circuit <;> exact upheld.refl d
  connect function p n d := by
    unfold DesignM.Stays Meets
    rw [Resolve.connect_eq]
    cases made : d.circuit.connect p n with
    | error err => exact upheld.refl d
    | ok x => exact upheld.connect made
  named function name d := by
    unfold DesignM.Stays Meets
    rw [Resolve.branch_named]
    cases d.circuit.lookup? name <;> exact upheld.refl d
  probe function a _ found d := upheld.bind (found d) fun ref _ =>
    upheld.recount (Circuit.uncounted_take _ ref.branch a.probe)
  given r function args d := by
    unfold DesignM.Stays Meets
    rw [Resolve.parameterGiven_eq]
    cases Resolve.asked args <;> exact upheld.refl d
  filter r site function args allowed d := by
    have found (d : Design) : DesignM.Stays R (Resolve.filterBranch site function) d := by
      unfold DesignM.Stays Meets
      rw [Resolve.filterBranch_eq]
      cases fresh : d.filters.lookup site with
      | some b => exact upheld.refl d
      | none => exact upheld.filter allowed fresh function
    unfold Resolve.filter
    split
    · exact upheld.refl d
    · exact upheld.bind (found d) fun b _ => upheld.recount (Circuit.uncounted_takeFilter _ b)

/-- The filters of an expression, if there are any, stand at some of the `sites`. -/
def Source.Calm (sites : CallSite → Prop) (r : Resolver) (s : Source) : Prop :=
  ∀ name ∈ Token.namesAll s.raw, r.config.filters name = true → ∀ path, sites ⟨r.tag, s.key, path⟩

theorem Resolve.Pervades.resolve {sites : CallSite → Prop} {P : {α : Type} → DesignM α → Prop}
    (h : Pervades sites P)
    {r : Resolver} {s : Source} (calm : s.Calm sites r) (scope : ScopeId) : P (s.resolve r scope) :=
  h.bind (h.steps r scope s.key [] 0 .empty s.raw calm) (h.single s.raw)

namespace Source

variable {sites : CallSite → Prop} {R : Design → Design → Prop} (upheld : Design.Upheld sites R)
  {r : Resolver} {s : Source} (calm : s.Calm sites r)

include upheld calm

theorem resolve_stays (scope : ScopeId) (d : Design) : DesignM.Stays R (s.resolve r scope) d :=
  upheld.pervades.resolve calm scope d

theorem resolveTarget_stays (scope : ScopeId) (d : Design) :
    DesignM.Stays R (s.resolveTarget r scope) d := by
  refine upheld.bind (resolve_stays upheld calm scope d) fun t d₁ =>
    upheld.bind (upheld.giveAll t.uses d₁) fun _ d₂ => ?_
  split <;> exact upheld.refl d₂

theorem renew_stays (scope : ScopeId) (d : Design) (old : Option Tree) :
    (∀ f d₁, s.resolve r scope d = .error f d₁ → R d d₁) ∧ ∀ t d₁, s.resolve r scope d = .ok t d₁ →
      (∀ f d₂, dropTree old d₁ = .error f d₂ → R d d₂) ∧ ∀ x d₂, dropTree old d₁ = .ok x d₂ →
      R d d₂ := by
  have stays := resolve_stays upheld calm scope d
  have drops : ∀ d₁, DesignM.Stays R (dropTree old) d₁ := upheld.giveAll _
  exact ⟨fun f d₁ run => stays.error run, fun t d₁ run =>
    ⟨fun f d₂ dropped => upheld.trans (stays.ok run) ((drops d₁).error dropped),
      fun x d₂ dropped => upheld.trans (stays.ok run) ((drops d₁).ok dropped)⟩⟩

end Source

/-- Besides, updating a declaration, an assignment or a contribution that stands in `scope` keeps to
it. -/
structure Design.Sustained (sites : CallSite → Prop) (scope : ScopeId)
    (R : Design → Design → Prop) : Prop extends Upheld sites R where
  assign : ∀ (d : Design) (v : VariableId) (s : Summary), R d (d.assign v s).2
  shorten : ∀ (d : Design) (q : Quantity), R d (Contribution.shorten q scope d)

namespace Statement

def ownSources : Statement → List Source
  | .declare s => s.source.toList
  | .assign s => [s.source]
  | .contribute s => [s.target, s.source]
  | .conditional c _ _ _ _ => [c.source]
  | .block _ _ => []

end Statement

section Leaves

variable {sites : CallSite → Prop} {scope : ScopeId} {R : Design → Design → Prop}
  (sustained : Design.Sustained sites scope R) {r : Resolver}

open Statement

include sustained

theorem Declaration.update_stays {s : Declaration}
    (calm : ∀ source ∈ ownSources (.declare s), source.Calm sites r)
    (d : Design) : R d (s.update r scope d).design := by
  unfold update
  split
  · exact sustained.refl d
  · rename_i source written
    obtain ⟨failed, worked⟩ := source.renew_stays sustained.toUpheld
      (calm source (by simp [ownSources, written])) scope d s.value
    split
    · exact failed _ _ (by assumption)
    · rename_i t d₁ run
      obtain ⟨failed, worked⟩ := worked t d₁ run
      split
      · exact failed _ _ (by assumption)
      · exact sustained.trans (worked _ _ (by assumption)) (sustained.assign _ _ _)

theorem Assignment.update_stays {s : Assignment}
    (calm : ∀ source ∈ ownSources (.assign s), source.Calm sites r)
    (d : Design) : R d (s.update r scope d).design := by
  unfold update
  split
  · exact sustained.refl d
  · obtain ⟨failed, worked⟩ := s.source.renew_stays sustained.toUpheld (calm _ List.mem_cons_self)
      scope d s.value
    simp only
    split
    · exact failed _ _ (by assumption)
    · rename_i t d₁ run
      obtain ⟨failed, worked⟩ := worked t d₁ run
      split
      · exact failed _ _ (by assumption)
      · exact sustained.trans (worked _ _ (by assumption)) (sustained.assign _ _ _)

theorem Contribution.locate_stays {s : Contribution} (calm : s.target.Calm sites r) (d : Design) :
    R d (s.locate r scope d).design := by
  have stays := s.target.resolveTarget_stays sustained.toUpheld calm scope d
  unfold locate
  split
  · exact sustained.refl d
  · split
    · rename_i failed
      exact stays.error failed
    · rename_i found
      exact sustained.trans (stays.ok found) (sustained.recount (Circuit.uncounted_take _ _ _))

theorem Contribution.located_stays {s : Contribution} (calm : s.source.Calm sites r) (d : Design) :
    R (s.locate r scope d).design (s.update r scope d).design := by
  unfold update
  simp only
  split
  · exact sustained.refl _
  · obtain ⟨failed, worked⟩ := s.source.renew_stays sustained.toUpheld calm scope
      (s.locate r scope d).design
      (s.locate r scope d).value.value
    split
    · exact failed _ _ (by assumption)
    · rename_i t d₁ run
      obtain ⟨failed, worked⟩ := worked t d₁ run
      unfold accept
      split
      · exact failed _ _ (by assumption)
      · refine sustained.trans (worked _ _ (by assumption)) ?_
        simp only
        split
        · exact sustained.shorten _ _
        · exact sustained.refl _

theorem Contribution.update_stays {s : Contribution}
    (calm : ∀ source ∈ ownSources (.contribute s), source.Calm sites r) (d : Design) :
    R d (s.update r scope d).design :=
  sustained.trans (locate_stays sustained (calm _ List.mem_cons_self) d)
    (located_stays sustained (calm _ (List.mem_cons_of_mem _ List.mem_cons_self)) d)

end Leaves
end Analog
