import Analog.Proofs.Parser.UnsignedLiterals
import Analog.Proofs.Resolver.Lockstep
import Analog.Proofs.Resolver.PrintedRoundTrip

/-!
The two printers of expressions. One finds the text of a raw expression on a stack of finished
operands; the other one goes down a resolved tree and writes branches by what they join. Without
simplification, the tokens of a phrase are resolved to a tree that has the text of the phrase and
binds as tightly, so both printers put the same brackets.
-/
namespace Analog

namespace Token

mutual

/-- The names that stand alone in a token, which may follow an argument list. -/
def bare (applied : Bool) : Token → List String
  | .identifier x => if applied then [] else [x]
  | .ternary thn els => bareAll false thn ++ bareAll false els
  | _ => []

def bareAll (applied : Bool) : List Token → List String
  | [] => []
  | t :: ts => t.bare applied ++ bareAll t.isArguments ts

end

def applies (applied : Bool) (ts : List Token) : Bool := ts.foldl (fun _ t => t.isArguments) applied

theorem bareAll_append (applied : Bool) (ts us : List Token) :
    bareAll applied (ts ++ us) = bareAll applied ts ++ bareAll (applies applied ts) us := by
  induction ts generalizing applied with
  | nil => rfl
  | cons t ts ih =>
    simp only [List.cons_append, bareAll, ih, List.append_assoc, applies, List.foldl_cons]

end Token

namespace Phrase

theorem applies_raw (p : Phrase) (applied : Bool) : Token.applies applied p.raw = false := by
  cases p <;> simp [raw, Token.applies, Token.isArguments]

end Phrase

namespace Resolve

/-- A tree that is written as a phrase is, and may stand among the arguments of an access. -/
structure Prints (z : Design) (t : Tree) (p : Phrase) : Prop where
  item : t.isItem = true
  source : t.source z.circuit = p.source
  strength : t.strength = p.strength
  ungrounded : t.nodeId? ≠ some ground
  filled : t ≠ .deferred ""

section Parts

variable {r : Resolver} {scope : ScopeId} {z d d₁ : Design} {t : Tree} {p : Phrase}

theorem Prints.compound (item : t.isItem = true) (source : t.source z.circuit = p.source)
    (strength : t.strength = p.strength) (apart : t.nodeId? = none) (filled : t ≠ .deferred "") :
    Prints z t p :=
  ⟨item, source, strength, by simp [apart], filled⟩

theorem Prints.guarded (h : Prints z t p) (bound : Nat) :
    Tree.guarded t bound (t.source z.circuit) = p.within bound p.source := by
  simp only [Tree.guarded, Phrase.within, h.source, h.strength]

theorem prints_identifier (faithful : z.Faithful) {x : String} (word : x ≠ "") (later : d.Extends z)
    (closed : ∀ f, Function.find? x = some f → f.least = 0 → ∃ y, z.lookup? scope x = some y ∧ ∀ b,
      y ≠ .branch b)
    (soft : ∀ p, z.lookup? scope x = some (.parameter p) → (z.parameterOf p).value = none) :
    Prints z (identifier d scope x) (.name x) := by
  have deferred : Prints z (.deferred x) (.name x) :=
    ⟨rfl, rfl, rfl, (Option.some_ne_none _).symm, fun same => word (Tree.deferred.inj same)⟩
  have unbound (free : ∀ y, z.lookup? scope x = some y → ∃ b, y = .branch b) (f : Function)
      (found : Function.find? x = some f) : (f.least == 0) = false := by
    refine beq_eq_false_iff_ne.mpr fun least => ?_
    obtain ⟨y, bound, other⟩ := closed f found least
    obtain ⟨b, rfl⟩ := free y bound
    exact other b rfl
  cases bound : z.lookup? scope x with
  | none =>
    simp only [identifier, ← later.lookup? scope x, bound]
    cases found : Function.find? x with
    | none => exact deferred
    | some f =>
      simpa only [unbound (by simp [bound]) f found, Bool.false_eq_true, ↓reduceIte] using deferred
  | some y =>
    have named := nodeName_of_bound faithful bound
    simp only [identifier, ← later.lookup? scope x, bound]
    cases y with
    | branch b =>
      cases found : Function.find? x with
      | none => exact deferred
      | some f =>
        simpa only [unbound (by simp [bound]) f found, Bool.false_eq_true, ↓reduceIte]
          using deferred
    | parameter p =>
      have same : (d.parameterOf p).value = none := by
        rw [← soft p bound, Design.parameterOf, Design.parameterOf, later.parameters]
      simp only [same]
      exact .compound rfl rfl rfl rfl (by simp)
    | «variable» v => exact .compound rfl rfl rfl rfl (by simp)
    | port i => exact ⟨rfl, named.1, rfl, fun same => named.2 (Option.some.inj same), by simp⟩
    | net i => exact ⟨rfl, named.1, rfl, fun same => named.2 (Option.some.inj same), by simp⟩

theorem prints_sources {ts : List Tree} {ps : List Phrase} (h : List.Forall₂ (Prints z) ts ps) :
    Tree.sources z.circuit ts = Phrase.sources ps := by
  induction h with
  | nil => rfl
  | cons first _ ih => rw [Tree.sources, Phrase.sources, first.source, ih]

theorem isItem_of_prints {ts : List Tree} {ps : List Phrase} (h : List.Forall₂ (Prints z) ts ps) :
    ∀ t ∈ ts, t.isItem = true := by
  induction h with
  | nil => exact fun _ => nofun
  | cons first _ ih => exact List.forall_mem_cons.mpr ⟨first.item, ih⟩

theorem refText_of_names (names : z.circuit.NamesAliases) {function : String} {args : List Tree}
    {ps : List Phrase} {ref : BranchRef} (ready : Ready d args)
    (items : List.Forall₂ (Prints z) args ps)
    (points : Names d function args ref d₁) (later : d₁.Extends z) :
    z.circuit.refText ref = ", ".intercalate (Phrase.sources ps) := by
  have joined {i j : NodeId} (hi : i < d.circuit.nodes.size) (hj : j < d.circuit.nodes.size)
      (run : connect function i j d = .ok ref d₁) : z.circuit.refText ref =
        if j = ground then z.circuit.nodeName i else z.circuit.nodeName i ++ ", " ++
          z.circuit.nodeName j := by
    obtain ⟨c, made, rfl⟩ := (connect_ensures d function i j).of_ok run
    have more := (Circuit.connect_extends made).nodes
    exact refText_between names (Circuit.joins_of_between? (later.circuit.found i j ref
      (Nat.lt_of_lt_of_le hi more) (Nat.lt_of_lt_of_le hj more) (Circuit.between?_of_connect made)))
  have node {u : Tree} {q : Phrase} {i : NodeId} (h : Prints z u q) (known : u.nodeId? = some i) :
      z.circuit.nodeName i = q.source ∧ i ≠ ground := by
    refine ⟨?_, fun same => h.ungrounded (same ▸ known)⟩
    rw [← h.source]
    rcases node_of_nodeId? known with rfl | rfl <;> rfl
  have built := ready.built
  rw [← prints_sources items]
  cases points with
  | named found =>
    obtain - | ⟨first, -⟩ := items
    exact refText_alias (fun same => first.filled (same ▸ rfl))
      ((Circuit.lookup?_extends later.circuit _).trans found)
  | grounded left run =>
    obtain - | ⟨first, -⟩ := items
    rw [joined (j := ground) (lt_of_nodeId? left built.1) ready.wellFormed.circuit.ground run,
      if_pos rfl, (node first left).1, ← first.source]
    rfl
  | between left right run =>
    obtain - | ⟨first, - | ⟨second, -⟩⟩ := items
    rw [joined (lt_of_nodeId? left built.1) (lt_of_nodeId? right built.2.1) run,
      if_neg (node second right).2, (node first left).1, (node second right).1, ← first.source,
        ← second.source]
    rfl

theorem function_plain (plain : r.config.simplify = false) {site : CallSite} {f : Function}
    {args : List Tree}
    (run : function r site f args d = .ok t d₁) : ∃ b s, t = .call f.name args b s := by
  have fits := (function_ensures r d site f args).of_ok run
  simp only [function, fits, Bool.false_eq_true, ↓reduceIte] at run
  cases role : f.role with
  | given =>
    simp only [role] at run
    obtain ⟨p, asks⟩ := asked_of_parameterGiven run
    rw [parameterGiven_of_asked r d f.name asks, answer, plain] at run
    cases run
    cases (d.parameterOf p.id).given <;> exact ⟨_, _, rfl⟩
  | filter =>
    simp only [role] at run
    obtain ⟨_, d', _, rest⟩ := bind_eq_ok.mp run
    simp only [filter, plain, Bool.false_and, Bool.false_eq_true, ↓reduceIte] at rest
    obtain ⟨b, d'', _, last⟩ := bind_eq_ok.mp rest
    cases last
    exact ⟨_, _, rfl⟩
  | environment | unary _ | binary _ =>
    simp only [role] at run
    obtain ⟨_, d', _, rest⟩ := bind_eq_ok.mp run
    rw [mathematical_eq, plain] at rest
    cases rest
    cases f.fold? args <;> exact ⟨_, _, rfl⟩

theorem prints_call (plain : r.config.simplify = false) (names : z.circuit.NamesAliases)
    {site : CallSite} {f : String} {args : List Tree} {ps : List Phrase} (ready : Ready d args)
    (items : List.Forall₂ (Prints z) args ps) (run : call r scope site f args d = .ok t d₁)
    (later : d₁.Extends z) : Prints z t (.call f ps) := by
  unfold call at run
  cases accessed : r.config.access? f with
  | some a =>
    simp only [accessed] at run
    obtain ⟨ref, d', points, rest⟩ := bind_eq_ok.mp run
    cases rest
    have taken := Design.extends_uncounted (Circuit.uncounted_take d'.circuit ref.branch a.probe)
    refine .compound rfl ?_ rfl rfl (by simp)
    rw [Tree.source, Quantity.text, Phrase.source,
      refText_of_names names ready items ((branch_ensures d f args).of_ok points)
        (taken.trans later)]
  | none =>
    cases found : Function.find? f with
    | some g =>
      simp only [accessed, found] at run
      obtain ⟨b, s, rfl⟩ := function_plain plain run
      obtain rfl : g.name = f := by simpa using List.find?_some found
      refine .compound rfl ?_ rfl rfl (by simp)
      rw [Tree.source, Phrase.source, prints_sources items]
    | none =>
      simp only [accessed, found] at run
      obtain ⟨d', _, _, rest⟩ := bind_eq_ok.mp run
      cases bound : d'.lookup? scope f <;> simp only [bound] at rest <;> cases rest

end Parts

section Walk

variable {r : Resolver} {scope : ScopeId} {key k : Nat} {site : List Nat} {z d d₁ : Design}
  {items : List Tree} {stack : Stack Tree}

theorem run_append {ts us : List Token} (ready : Ready d items)
    (run : steps r scope key site k ⟨items⟩ (ts ++ us) d = .ok stack d₁) :
    ∃ between d', steps r scope key site k ⟨items⟩ ts d = .ok ⟨between⟩ d' ∧ Ready d' between ∧
      d'.Extends d₁ ∧ steps r scope key site (k + ts.length) ⟨between⟩ us d' = .ok stack d₁ := by
  rw [steps_append] at run
  obtain ⟨⟨between⟩, d', first, rest⟩ := bind_eq_ok.mp run
  obtain ⟨_, _, ready'⟩ := ready.steps first
  exact ⟨between, d', first, ready', (ready'.steps rest).1, rest⟩

theorem stepped_of_steps {t : Token} (run : steps r scope key site k ⟨items⟩ [t] d = .ok stack d₁) :
    Stepped r scope key (k :: site) items t d stack.items d₁ := by
  rw [steps] at run
  obtain ⟨⟨between⟩, d', first, rest⟩ := bind_eq_ok.mp run
  rw [steps] at rest
  cases rest
  exact stepped_of_step first

theorem choice_plain (plain : r.config.simplify = false) {c t : Tree} {thn els : Raw}
    {first second : DesignM (Stack Tree)} (run : choice r c thn els first second d = .ok t d₁) :
    ∃ x y d', (first >>= single thn) d = .ok x d' ∧ (second >>= single els) d' = .ok y d₁ ∧
      t = .ternary c x y (.select c.summary x.summary y.summary) := by
  have unknown : chosen? r c = none := by cases c <;> simp [chosen?, plain]
  unfold choice at run
  obtain ⟨_, _, value, rest⟩ := bind_eq_ok.mp run
  obtain ⟨_, rfl⟩ := (requireValue_ensures d c).of_ok value
  rw [unknown] at rest
  obtain ⟨stack, d₂, worked, rest⟩ := bind_eq_ok.mp rest
  obtain ⟨x, d₃, one, rest⟩ := bind_eq_ok.mp rest
  obtain ⟨y, d₄, two, last⟩ := bind_eq_ok.mp rest
  cases last
  exact ⟨x, y, d₃, bind_eq_ok.mpr ⟨stack, d₂, worked, one⟩, orRelease_eq_ok.mp two, rfl⟩

def Unmarked (v : Value) (text : String) : Prop := text = v.text ∧ Tree.isSigned v = false

def Alone (scope : ScopeId) (z : Design) (x : String) : Prop :=
  x ≠ "" → ∀ d, d.Extends z → Prints z (identifier d scope x) (.name x)

mutual

theorem prints_raw (plain : r.config.simplify = false) (names : z.circuit.NamesAliases) (p : Phrase)
    (made : p.Over Unmarked (· ≠ "")) (alone : ∀ x ∈ Token.bareAll false p.raw, Alone scope z x)
    {site : List Nat} {k : Nat} {items : List Tree} {stack : Stack Tree} {d d₁ : Design}
    (free : Free items)
    (ready : Ready d items) (run : steps r scope key site k ⟨items⟩ p.raw d = .ok stack d₁)
    (later : d₁.Extends z) : ∃ t, stack.items = t :: items ∧ Prints z t p := by
  generalize result : stack.items = items₁
  cases p with
  | literal v text =>
    cases result ▸ stepped_of_steps run with
    | literal =>
      refine ⟨_, rfl, .compound rfl made.1.symm ?_ rfl (by simp [Tree.ofValue])⟩
      simp [Tree.strength, Tree.ofValue, made.2, Phrase.strength]
  | name x =>
    cases result ▸ stepped_of_steps run with
    | called => exact absurd rfl (free _ _)
    | named =>
      exact ⟨_, rfl, alone x (by simp [Phrase.raw, Token.bareAll, Token.bare]) made _ later⟩
  | call f args =>
    have inner : ∀ x ∈ Token.bareAll false (Phrase.rawAll args), Alone scope z x := by
      intro x mem
      refine alone x ?_
      rw [Phrase.raw, List.cons_append, Token.bareAll, Token.bareAll_append]
      exact List.mem_append_right _ (List.mem_append_left _ mem)
    have shape : (Phrase.call f args).raw =
        [.marker] ++ (Phrase.rawAll args ++ ([.arguments] ++ [.identifier f])) := by
          simp [Phrase.raw]
    rw [shape] at run
    obtain ⟨_, d₂, opened, ready₂, _, run⟩ := run_append ready run
    cases stepped_of_steps opened
    obtain ⟨_, d₃, first, ready₃, grown₃, run⟩ := run_append ready₂ run
    obtain ⟨ts, rfl, prints⟩ := prints_rawAll plain names args made.2 inner
      (free_marker items) ready₂ first
      (grown₃.trans later)
    obtain ⟨_, d₄, closed, ready₄, _, run⟩ := run_append ready₃ run
    have above := popUntil?_marker (isItem_of_prints prints) items
    generalize ts.reverse ++ .marker :: items = whole at closed above
    cases stepped_of_steps closed with
    | arguments popped =>
      cases above.symm.trans popped
      cases result ▸ stepped_of_steps run with
      | called called =>
        exact ⟨_, rfl, prints_call plain names ready₄.arguments prints called later⟩
      | named free => exact absurd rfl (free _ _)
  | unary op x =>
    rw [Phrase.raw, Token.bareAll_append, List.forall_mem_append] at alone
    obtain ⟨_, d', first, _, grown, rest⟩ := run_append ready run
    obtain ⟨t, rfl, prints⟩ := prints_raw plain names x made alone.1 free ready first
      (grown.trans later)
    cases result ▸ stepped_of_steps rest with
    | unary made =>
      obtain ⟨_, _, _, last⟩ := bind_eq_ok.mp made
      rw [plain] at last
      cases last
      refine ⟨_, rfl, .compound rfl ?_ rfl rfl (by simp [Simplify.plainUnary])⟩
      rw [Phrase.source, ← prints.guarded]
      rfl
  | binary op l m =>
    rw [Phrase.raw, Token.bareAll_append, Token.bareAll_append, l.applies_raw,
      List.forall_mem_append, List.forall_mem_append] at alone
    rw [Phrase.raw, List.append_assoc] at run
    obtain ⟨_, d₂, first, ready₂, grown₂, run⟩ := run_append ready run
    obtain ⟨x, rfl, left⟩ := prints_raw plain names l made.1 alone.1.1 free ready first
      (grown₂.trans later)
    obtain ⟨_, d₃, second, ready₃, grown₃, run⟩ := run_append ready₂ run
    obtain ⟨y, rfl, right⟩ := prints_raw plain names m made.2 alone.1.2
      (free_cons left.item items) ready₂ second
      (grown₃.trans later)
    cases result ▸ stepped_of_steps run with
    | binary made =>
      obtain ⟨_, _, _, rest⟩ := bind_eq_ok.mp made
      obtain ⟨_, _, _, last⟩ := bind_eq_ok.mp rest
      simp only [plain, Bool.false_eq_true, ↓reduceIte] at last
      cases last
      refine ⟨_, rfl, .compound rfl ?_ rfl rfl (by simp [Simplify.plainBinary])⟩
      rw [Phrase.source, ← left.guarded, ← right.guarded]
      rfl
  | ternary c t e =>
    rw [Phrase.raw, Token.bareAll_append, c.applies_raw, List.forall_mem_append] at alone
    simp only [Token.bareAll, Token.bare, List.append_nil, List.forall_mem_append] at alone
    obtain ⟨_, d₂, first, ready₂, grown₂, run⟩ := run_append ready run
    obtain ⟨x, rfl, cond⟩ := prints_raw plain names c made.1 alone.1 free ready first
      (grown₂.trans later)
    cases result ▸ stepped_of_steps run with
    | ternary chose =>
      obtain ⟨y, u, d₃, one, two, rfl⟩ := choice_plain plain chose
      obtain ⟨stack₁, d₄, worked, alone₁⟩ := bind_eq_ok.mp one
      obtain ⟨left, _, rfl⟩ := single_eq_ok.mp alone₁
      obtain ⟨_, _, ready₃⟩ := ready₂.aside.steps worked
      obtain ⟨stack₂, d₅, worked', alone₂⟩ := bind_eq_ok.mp two
      obtain ⟨right, _, rfl⟩ := single_eq_ok.mp alone₂
      have grown := (ready₃.aside.steps worked').1
      have empty : Free [] := nofun
      obtain ⟨y', same, thn⟩ := prints_raw plain names t made.2.1 alone.2.1 empty
        ready₂.aside worked
        (grown.trans later)
      obtain ⟨u', same', els⟩ := prints_raw plain names e made.2.2 alone.2.2 empty
        ready₃.aside worked' later
      cases left.symm.trans same
      cases right.symm.trans same'
      refine ⟨_, rfl, .compound rfl ?_ rfl rfl (by simp)⟩
      rw [Phrase.source, ← cond.guarded, ← thn.source, ← els.source]
      rfl

theorem prints_rawAll (plain : r.config.simplify = false) (names : z.circuit.NamesAliases)
    (ps : List Phrase) (made : Phrase.OverAll Unmarked (· ≠ "") ps)
    (alone : ∀ x ∈ Token.bareAll false (Phrase.rawAll ps), Alone scope z x)
    {site : List Nat} {k : Nat}
    {items : List Tree} {stack : Stack Tree} {d d₁ : Design} (free : Free items)
    (ready : Ready d items)
    (run : steps r scope key site k ⟨items⟩ (Phrase.rawAll ps) d = .ok stack d₁)
    (later : d₁.Extends z) :
    ∃ ts, stack.items = ts.reverse ++ items ∧ List.Forall₂ (Prints z) ts ps := by
  cases ps with
  | nil =>
    rw [Phrase.rawAll, steps] at run
    cases run
    exact ⟨[], rfl, .nil⟩
  | cons p ps =>
    rw [Phrase.rawAll, Token.bareAll_append, p.applies_raw, List.forall_mem_append] at alone
    obtain ⟨_, d', first, ready', grown, rest⟩ := run_append ready run
    obtain ⟨t, rfl, prints⟩ := prints_raw plain names p made.1 alone.1 free ready first
      (grown.trans later)
    obtain ⟨ts, result, others⟩ := prints_rawAll plain names ps made.2 alone.2
      (free_cons prints.item items) ready'
      rest later
    exact ⟨t :: ts, by simp [result], .cons prints others⟩

end

end Walk

end Resolve

namespace Editor

/-- The two printers agree: where names of functions without arguments are followed by brackets and
no parameter with a known value is read, what a text resolves to without simplification is written
as the raw expression is. -/
theorem printers_agree (name : String) (config : Config) (ops : List Operation) {text : SourceText}
    {raw : Raw} {key : Nat} {r : Resolver} {scope : ScopeId} {t : Tree} {d e : Design}
    (edited : e = ((Editor.ofDevice (Device.create name config)).performAll ops).device.design)
    (read : Raw.ofText text = .ok raw) (plain : r.config.simplify = false)
    (closed : ∀ x ∈ Token.bareAll false raw, ∀ f, Function.find? x = some f → f.least = 0 →
      ∃ y, e.lookup? scope x = some y ∧ ∀ b, y ≠ .branch b)
    (soft : ∀ x ∈ Token.bareAll false raw, ∀ p, e.lookup? scope x = some (.parameter p) →
      (e.parameterOf p).value = none)
    (run : Source.resolve r ⟨raw, key⟩ scope e = .ok t d) : t.source d.circuit = raw.source := by
  have sound : ((Editor.ofDevice (Device.create name config)).performAll ops).device.Sound :=
    sound_performAll ops (Device.sound_create name config)
  rw [edited] at closed soft run
  obtain ⟨p, rfl, made⟩ := Raw.phrase_of_ofText read
  have unmarked : p.Over Resolve.Unmarked (· ≠ "") := by
    refine Phrase.Over.imp ?_ (fun _ => Resolve.ne_empty_of_word) p made
    rintro v text ⟨same, w, known, kind, value⟩
    exact ⟨same, Value.isSigned_of_read known kind value⟩
  have begun := Resolve.Ready.initial sound.wellFormed
  obtain ⟨stack, _, worked, rest⟩ := bind_eq_ok.mp run
  obtain ⟨left, _, rfl⟩ := Resolve.single_eq_ok.mp rest
  obtain ⟨grown, _, _⟩ := begun.steps worked
  have faithful := sound.faithful.extends sound.wellFormed grown
  have alone : ∀ x ∈ Token.bareAll false p.raw, Resolve.Alone scope d x := by
    intro x mem filled _ later
    refine Resolve.prints_identifier faithful filled later ?_ ?_
    · rw [grown.lookup?]
      exact closed x mem
    · intro p bound
      rw [Design.parameterOf, grown.parameters]
      exact soft x mem p (grown.lookup? scope x ▸ bound)
  have empty : Resolve.Free [] := nofun
  obtain ⟨u, same, prints⟩ := Resolve.prints_raw plain faithful.branches p unmarked alone
    empty begun worked
    (.refl d)
  cases left.symm.trans same
  rw [prints.source, Phrase.source_raw
    (Phrase.Over.imp (fun _ _ h => h.1) (fun _ _ => trivial) p unmarked)]

def plainText : SourceText :=
  .ofString "plain"
    "-(x + g) ** 2 > V(n,p) ? I(load) * $param_given(g) : max(x - (1 - x), $temperature())"

def printable (e : Design) (scope : ScopeId) (x : String) : Bool :=
  (Function.find? x).all (·.least != 0) && match e.lookup? scope x with
    | some (.parameter p) => (e.parameterOf p).value.isNone
    | _ => true

theorem printers_agree_gain : ∃ raw t d, Raw.ofText plainText = .ok raw ∧
    Source.resolve ⟨{ Config.default with simplify := false }, 0⟩ ⟨raw, 9⟩ 2 gain = .ok t d ∧
    t.source d.circuit = raw.source ∧ raw.source =
      "-(x + g) ** 2 > V(n, p) ? I(load) * $param_given(g) : max(x - (1 - x), $temperature())" := by
  have checked : ((Raw.ofText plainText).toOption.bind fun raw => EStateM.run' (do
      let _ ← Source.resolve ⟨{ Config.default with simplify := false }, 0⟩ ⟨raw, 9⟩ 2
      return (Token.bareAll false raw).all (printable gain 2) && raw.source ==
        "-(x + g) ** 2 > V(n, p) ? I(load) * $param_given(g) : max(x - (1 - x), $temperature())")
          gain) =
      some true := by
    decide +kernel
  cases read : Raw.ofText plainText with
  | error e =>
    rw [read] at checked
    cases checked
  | ok raw =>
    rw [read] at checked
    simp only [Except.toOption, Option.bind_some, EStateM.run', EStateM.run, bind,
      EStateM.bind] at checked
    cases run : Source.resolve ⟨{ Config.default with simplify := false }, 0⟩ ⟨raw, 9⟩ 2 gain with
    | error f d =>
      rw [run] at checked
      cases checked
    | ok t d =>
      simp only [run, pure, EStateM.pure, Option.some.injEq, Bool.and_eq_true, List.all_eq_true,
        beq_iff_eq] at checked
      obtain ⟨fine, printed⟩ := checked
      refine ⟨raw, t, d, rfl, run, printers_agree "gain" .default gainCalls rfl read rfl ?_ ?_ run,
        printed⟩
      · intro x mem f found least
        have bracketed := fine x mem
        simp [printable, found, least] at bracketed
      · intro x mem p (bound : gain.lookup? 2 x = _)
        have known := fine x mem
        simp only [printable, bound, Bool.and_eq_true, Option.isNone_iff_eq_none] at known
        exact known.2

end Editor
end Analog
