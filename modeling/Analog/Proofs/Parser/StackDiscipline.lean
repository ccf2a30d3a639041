import Analog.Program.Items
import Analog.Proofs.Resolver.PrintedRoundTrip
import Analog.Proofs.Tree.Operands

/-!
The stack of the resolver. The tokens of an expression that was read put one tree on top of a stack
on which no argument list waits for its name, whatever the names in them mean, and they do not look
at what lies below. So there is much that can be wrong with such an expression, but not the order of
its tokens.
-/
namespace Analog

/-- A problem with the order of tokens. -/
def Failure.Malformed (f : Failure) : Prop :=
  ∃ p : Problem, f = .problem p ∧ p.cause.fault? = some .malformed

theorem Failure.not_malformed_ofCause {c : Cause} (other : c.fault? ≠ some .malformed) :
    ¬ (Failure.ofCause c).Malformed := by
  rintro ⟨p, same, fault⟩
  cases same
  exact other fault

theorem Failure.not_malformed_underflow (u : Underflow) : ¬ (Failure.underflow u).Malformed := by
  rintro ⟨p, same, _⟩
  cases same

theorem Meets.of_error {σ α : Type} {act : EStateM Failure σ α} {s s' : σ} {done : α → σ → Prop}
    {failed : Failure → σ → Prop} {f : Failure} (h : Meets act s done failed)
    (run : act s = .error f s') :
    failed f s' := by
  unfold Meets at h
  rw [run] at h
  exact h

abbrev Resolve.Formed {α : Type} (act : DesignM α) (d : Design) (done : α → Prop) : Prop :=
  Meets act d (fun a _ => done a) fun f _ => ¬ f.Malformed

namespace Tree

/-- A tree that the resolver leaves on its stack for an operand: no bracket, and all that it was
made from are values. -/
structure Operand (t : Tree) : Prop where
  item : t.isItem = true
  applied : t.All Applied

theorem Operand.ofValue (v : Value) : (Tree.ofValue v).Operand := ⟨rfl, Resolve.applied_value v⟩

theorem Operand.fault {t : Tree} (h : t.Operand) {c : Circuit} {cause : Cause}
    (found : t.valueFault? c = some cause) : cause.fault? ≠ some .malformed := by
  have item := h.item
  cases t with
  | deferred name =>
    cases found
    exact nofun
  | node i =>
    cases found
    exact nofun
  | port i =>
    cases found
    exact nofun
  | marker => cases item
  | arguments items => cases item
  | _ => cases found

end Tree

namespace Simplify

theorem isValue_unary (op : UnaryOp) {x : Tree} (applied : x.All Tree.Applied) :
    (unary op x).IsValue := by
  obtain ⟨v, same⟩ | ⟨y, s, rfl, same⟩ | same := unary_cases op x
  · rw [same]
    exact fun _ => rfl
  · rw [same]
    exact applied.self
  · rw [same]
    exact fun _ => rfl

theorem isValue_identity? {op : BinaryOp} {x : Tree} {c : Value} {o : Option Symbol}
    {s : Simplified} (value : x.IsValue) (h : identity? op x c o = some s) : s.tree.IsValue := by
  unfold identity? at h
  split at h
  · cases h
    exact fun _ => rfl
  · split at h
    · cases h
      exact fun _ => rfl
    · split at h
      · cases h
        exact value
      · split at h
        · cases h
          exact value
        · cases h

theorem isValue_rightLiteral (op : BinaryOp) (x : Tree) (c : Value) (o : Option Symbol)
    (value : x.IsValue) (applied : x.All Tree.Applied) : (rightLiteral op x c o).tree.IsValue := by
  fun_induction rightLiteral op x c o with
  | case1 op c o v q =>
    unfold literals
    split
    · exact fun _ => rfl
    · split <;> exact fun _ => rfl
  | case2 op c o inner y c1 o1 s whole t found => exact isValue_identity? value found
  | case3 => exact fun _ => rfl
  | case4 op c o inner y c1 o1 s whole _ joint _ folded _ ih =>
    obtain ⟨left, _, here⟩ := Tree.all_binary.mp applied
    exact ih here.1 left
  | case5 => exact fun _ => rfl
  | case6 op c o x single chain =>
    cases found : identity? op x c o with
    | none => exact fun _ => rfl
    | some t => exact isValue_identity? value found

theorem isValue_binary (op : BinaryOp) {l r : Tree} (leftValue : l.IsValue) (rightValue : r.IsValue)
    (left : l.All Tree.Applied) (right : r.All Tree.Applied) : (binary op l r).tree.IsValue := by
  unfold binary
  split
  · exact isValue_rightLiteral op l _ _ leftValue left
  · split
    · exact isValue_rightLiteral op r _ _ rightValue right
    · exact fun _ => rfl
  · exact fun _ => rfl

end Simplify

namespace Resolve

variable {r : Resolver} {scope : ScopeId} {key : Nat} {d : Design}

section Operations

theorem Formed.fail {α : Type} {c : Cause} {done : α → Prop} (other : c.fault? ≠ some .malformed) :
    Formed (DesignM.fail c : DesignM α) d done := Failure.not_malformed_ofCause other

theorem Formed.orRelease {α : Type} {held : List Tree} {act : DesignM α} {done : α → Prop}
    (h : Formed act d done) : Formed (DesignM.orRelease held act) d done := by
  unfold Formed Meets at h ⊢
  unfold DesignM.orRelease
  cases run : act d with
  | ok a d' =>
    rw [run] at h
    exact h
  | error f d' =>
    rw [run] at h
    cases f with
    | underflow u => exact h
    | endless => exact h
    | problem p =>
      simp only [DesignM.onCircuit]
      cases Tree.releaseAll held d'.circuit with
      | ok _ c => exact h
      | error u c => exact Failure.not_malformed_underflow u

theorem onCircuit_formed {α : Type} (act : CircuitM α) : Formed (DesignM.onCircuit act) d fun _ =>
    True := by
  unfold Formed Meets DesignM.onCircuit
  cases act d.circuit with
  | ok a c => trivial
  | error u c => exact Failure.not_malformed_underflow u

theorem requireValue_formed {t : Tree} (operand : t.Operand) : Formed (requireValue t) d fun _ =>
    t.IsValue := by
  unfold requireValue
  refine Meets.get ?_
  cases found : t.valueFault? d.circuit with
  | some cause => exact Formed.fail (operand.fault found)
  | none => exact Tree.isValue_of_fault found

theorem requireValues_formed {ts : List Tree} (operands : ∀ t ∈ ts, t.Operand) :
    Formed (requireValues ts) d fun _ => True := by
  induction ts generalizing d with
  | nil => trivial
  | cons t ts ih =>
    exact Meets.bind (requireValue_formed (operands t List.mem_cons_self)) fun _ _ _ =>
      ih fun u mem => operands u (List.mem_cons_of_mem t mem)

theorem connect_formed (function : String) (p n : NodeId) : Formed (connect function p n) d fun _ =>
    True := by
  unfold connect
  refine Meets.get ?_
  split
  · trivial
  · exact Formed.fail nofun

theorem branch_formed (function : String) (args : List Tree) :
    Formed (branch function args) d fun _ => True := by
  unfold branch
  split
  · refine Meets.get ?_
    split
    · trivial
    · exact Formed.fail nofun
  · split
    · exact connect_formed function _ _
    · exact Formed.fail nofun
  · split
    · exact Formed.fail nofun
    · exact connect_formed function _ _
    · exact Formed.fail nofun
  · exact Formed.fail nofun

theorem parameterGiven_formed (function : String) (args : List Tree) :
    Formed (parameterGiven r function args) d fun t => t.isItem = true := by
  unfold Formed parameterGiven
  refine Meets.get ?_
  extract_lets parameter
  cases parameter with
  | none => exact Formed.fail nofun
  | some p =>
    dsimp only
    split <;> rfl

theorem filter_formed (site : CallSite) (function : String) (args : List Tree) :
    Formed (filter r site function args) d fun t => t.isItem = true := by
  have found : Formed (filterBranch site function) d fun _ => True := by
    unfold Formed filterBranch
    refine Meets.get ?_
    split <;> trivial
  unfold Formed filter
  split
  · rfl
  · exact Meets.bind found fun b d' _ => rfl

theorem function_formed (site : CallSite) (f : Function) {args : List Tree}
    (operands : ∀ t ∈ args, t.Operand) :
    Formed (function r site f args) d fun t => t.isItem = true := by
  unfold Formed function
  by_cases misfit : (args.length < f.least || f.most < args.length) = true
  · simp only [misfit, ↓reduceIte]
    split <;> exact Formed.fail nofun
  · simp only [misfit, Bool.false_eq_true, ↓reduceIte]
    split
    · exact parameterGiven_formed f.name args
    · exact Meets.bind (requireValues_formed operands) fun _ d' _ => filter_formed site f.name args
    · refine Meets.bind (requireValues_formed operands) fun _ d' _ => ?_
      unfold mathematical
      split <;> rfl

theorem call_formed (site : CallSite) (name : String) {args : List Tree}
    (operands : ∀ t ∈ args, t.Operand) : Formed (call r scope site name args) d Tree.Operand := by
  have item : Formed (call r scope site name args) d fun t => t.isItem = true := by
    unfold Formed call
    split
    · exact Meets.bind (branch_formed name args) fun ref d' _ => rfl
    · exact function_formed site _ operands
    · refine Meets.get ?_
      split <;> exact Formed.fail nofun
  unfold Formed Meets at item ⊢
  cases run : call r scope site name args d with
  | error f d' =>
    rw [run] at item
    exact item
  | ok t d' =>
    rw [run] at item
    exact ⟨item, applied_call (fun u mem => (operands u mem).applied) run⟩

theorem unary_formed (op : UnaryOp) {x : Tree} (operand : x.Operand) :
    Formed (unary r op x) d Tree.Operand := by
  refine Meets.bind (requireValue_formed operand) fun _ d' value => ?_
  refine Meets.pure ?_
  split
  · exact ⟨(Simplify.isValue_unary op operand.applied).isItem,
      Simplify.all_of_unary Tree.closed_applied op value operand.applied⟩
  · exact ⟨rfl, Tree.all_unary.mpr ⟨operand.applied, value⟩⟩

theorem binary_formed (op : BinaryOp) {x y : Tree} (left : x.Operand) (right : y.Operand) :
    Formed (binary r op x y) d Tree.Operand := by
  refine Meets.bind (requireValue_formed left) fun _ d' leftValue => ?_
  refine Meets.bind (requireValue_formed right) fun _ d' rightValue => ?_
  split
  · refine Meets.bind (onCircuit_formed _) fun _ d' _ => ?_
    exact ⟨(Simplify.isValue_binary op leftValue rightValue left.applied right.applied).isItem,
      Simplify.all_of_binary Tree.closed_applied op leftValue rightValue left.applied right.applied⟩
  · exact ⟨rfl, Tree.all_binary.mpr ⟨left.applied, right.applied, leftValue, rightValue⟩⟩

end Operations

section Walk

theorem single_formed (raw : Raw) {t : Tree} (operand : t.Operand) :
    Formed (single raw ⟨[t]⟩) d fun u => u.IsValue ∧ u.Operand :=
  Meets.bind (Formed.orRelease (requireValue_formed operand)) fun _ _ value => ⟨value, operand⟩

/-- The tokens put one operand on top of a stack on which no argument list waits. -/
def Pushes (r : Resolver) (scope : ScopeId) (raw : Raw) : Prop :=
  ∀ key site k items d, Free items → Formed (steps r scope key site k ⟨items⟩ raw) d
    fun stack => ∃ t, t.Operand ∧ stack.items = t :: items

/-- The tokens put some operands on top of a stack on which no argument list waits. -/
def PushesAll (r : Resolver) (scope : ScopeId) (raw : Raw) : Prop :=
  ∀ key site k items d, Free items → Formed (steps r scope key site k ⟨items⟩ raw) d
    fun stack => ∃ ts : List Tree, (∀ t ∈ ts, t.Operand) ∧ stack.items = ts.reverse ++ items

theorem step_formed {site : List Nat} {k : Nat} {stack : Stack Tree} {t : Token}
    {done : Stack Tree → Prop} (h : Formed (step r scope key (k :: site) stack t) d done) :
    Formed (steps r scope key site k stack [t]) d done := by
  refine Meets.bind h fun stack' d' held => ?_
  rw [steps]
  exact held

theorem replace_formed {held below : List Tree} {act : DesignM Tree}
    (h : Formed act d Tree.Operand) :
    Formed (DesignM.orRelease held act >>= fun t => pure (⟨t :: below⟩ : Stack Tree)) d
      fun stack => ∃ t, t.Operand ∧ stack.items = t :: below :=
  Meets.bind h.orRelease fun t _ operand => ⟨t, operand, rfl⟩

theorem pushes_literal (v : Value) : Pushes r scope [.literal v] :=
  fun _ _ _ _ _ _ => step_formed ⟨_, .ofValue v, rfl⟩

theorem operand_identifier (d : Design) (scope : ScopeId) (name : String) :
    (identifier d scope name).Operand := by
  refine ⟨?_, applied_identifier name⟩
  unfold identifier
  split
  · split <;> rfl
  · rfl
  · rfl
  · rfl
  · split
    · split <;> rfl
    · rfl

theorem pushes_name (x : String) : Pushes r scope [.identifier x] := by
  intro key site k items d free
  refine step_formed ?_
  rw [step_identifier free]
  exact Meets.get ⟨_, operand_identifier d scope x, rfl⟩

theorem Pushes.unary {raw : Raw} (h : Pushes r scope raw) (op : UnaryOp) :
    Pushes r scope (raw ++ [.unary op]) := by
  intro key site k items d free
  rw [steps_append]
  refine Meets.bind (h key site k items d free) ?_
  rintro ⟨_⟩ d' ⟨x, operand, rfl⟩
  exact step_formed (replace_formed (unary_formed op operand))

theorem Pushes.binary {left right : Raw} (first : Pushes r scope left)
    (second : Pushes r scope right)
    (op : BinaryOp) : Pushes r scope (left ++ right ++ [.binary op]) := by
  intro key site k items d free
  rw [List.append_assoc, steps_append]
  refine Meets.bind (first key site k items d free) ?_
  rintro ⟨_⟩ d' ⟨x, leftOperand, rfl⟩
  rw [steps_append]
  refine Meets.bind (second key site _ _ d' (free_cons leftOperand.item items)) ?_
  rintro ⟨_⟩ d'' ⟨y, rightOperand, rfl⟩
  exact step_formed (replace_formed (binary_formed op leftOperand rightOperand))

theorem Pushes.arm {raw : Raw} (h : Pushes r scope raw) (key : Nat) (site : List Nat) (d : Design) :
    Formed (steps r scope key site 0 .empty raw >>= single raw) d fun u => u.IsValue ∧
    u.Operand := by
  refine Meets.bind (h key site 0 [] d nofun) ?_
  rintro ⟨_⟩ d' ⟨t, operand, rfl⟩
  exact single_formed raw operand

theorem Pushes.ternary {cond thn els : Raw} (first : Pushes r scope cond)
    (second : Pushes r scope thn)
    (third : Pushes r scope els) : Pushes r scope (cond ++ [.ternary thn els]) := by
  intro key site k items d free
  rw [steps_append]
  refine Meets.bind (first key site k items d free) ?_
  rintro ⟨_⟩ d' ⟨c, operand, rfl⟩
  refine step_formed (replace_formed (Meets.bind (requireValue_formed operand) fun _
    d'' value => ?_))
  split
  · exact (second.arm key _ d'').mono (fun _ _ made => made.2) fun _ _ other => other
  · exact (third.arm key _ d'').mono (fun _ _ made => made.2) fun _ _ other => other
  · rw [← bind_assoc]
    refine Meets.bind (second.arm key _ d'') fun t d₁ thnMade => ?_
    refine Meets.bind (Formed.orRelease (third.arm key _ d₁)) fun e d₂ elsMade => ?_
    exact ⟨rfl, Tree.all_ternary.mpr ⟨operand.applied, thnMade.2.applied, elsMade.2.applied,
      value, thnMade.1, elsMade.1⟩⟩

theorem pushesAll_nil : PushesAll r scope [] := fun _ _ _ _ _ _ => ⟨[], List.forall_mem_nil _, rfl⟩

theorem PushesAll.cons {raw rest : Raw} (first : Pushes r scope raw)
    (others : PushesAll r scope rest) : PushesAll r scope (raw ++ rest) := by
  intro key site k items d free
  rw [steps_append]
  refine Meets.bind (first key site k items d free) ?_
  rintro ⟨_⟩ d' ⟨t, operand, rfl⟩
  refine (others key site _ _ d' (free_cons operand.item items)).mono ?_ fun _ _ other => other
  rintro ⟨_⟩ d'' ⟨ts, operands, rfl⟩
  exact ⟨t :: ts, List.forall_mem_cons.mpr ⟨operand, operands⟩, by simp⟩

theorem PushesAll.call {args : Raw} (h : PushesAll r scope args) (f : String) :
    Pushes r scope (.marker :: args ++ [.arguments, .identifier f]) := by
  intro key site k items d free
  have opened : Formed (step r scope key (k :: site) ⟨items⟩ .marker) d
      (· = ⟨.marker :: items⟩) := by
    rw [step]
    exact Meets.pure rfl
  refine Meets.bind opened ?_
  rintro _ d₁ rfl
  rw [List.append_eq, steps_append]
  refine Meets.bind (h key site _ _ d₁ (free_marker items)) ?_
  rintro ⟨_⟩ d₂ ⟨ts, operands, rfl⟩
  have closed (place : List Nat) :
      Formed (step r scope key place ⟨ts.reverse ++ .marker :: items⟩ .arguments) d₂
      (· = ⟨.arguments ts :: items⟩) := by
    rw [step, popUntil?_marker (fun t mem => (operands t mem).item) items]
    exact Meets.pure rfl
  refine Meets.bind (closed _) ?_
  rintro _ d₃ rfl
  exact step_formed (replace_formed (call_formed _ f operands))

end Walk

end Resolve

namespace Phrase

variable (r : Resolver) (scope : ScopeId)

mutual

theorem pushes (p : Phrase) : Resolve.Pushes r scope p.raw := by
  cases p with
  | literal v text => exact Resolve.pushes_literal v
  | name x => exact Resolve.pushes_name x
  | call f args => exact (pushesAll args).call f
  | unary op x => exact (pushes x).unary op
  | binary op l y => exact (pushes l).binary (pushes y) op
  | ternary c t e => exact (pushes c).ternary (pushes t) (pushes e)

theorem pushesAll (ps : List Phrase) : Resolve.PushesAll r scope (rawAll ps) := by
  cases ps with
  | nil => exact Resolve.pushesAll_nil
  | cons p ps => exact .cons (pushes p) (pushesAll ps)

end

end Phrase

/-- An expression that was read, whatever stood before and after it. -/
def Raw.Parsed (raw : Raw) : Prop := ∃ ws rest, Raw.read ws = .ok (raw, rest)

theorem Raw.Parsed.pushes {raw : Raw} (h : raw.Parsed) (r : Resolver) (scope : ScopeId) :
    Resolve.Pushes r scope raw := by
  obtain ⟨ws, rest, read⟩ := h
  obtain ⟨_, p, rfl, _⟩ := (Raw.read_eq_ok.mp read).phrased
    (fun w _ => (trivial : (fun _ => True) w))
  exact p.pushes r scope

theorem Raw.parsed_of_ofText {s : SourceText} {raw : Raw} (read : Raw.ofText s = .ok raw) :
    raw.Parsed := by
  obtain ⟨ws, _, found⟩ := Raw.bind_eq_ok.mp read
  obtain ⟨⟨r, rest⟩, first, last⟩ := Raw.bind_eq_ok.mp found
  simp only at last
  split at last
  · cases last
    exact ⟨ws, rest, first⟩
  · cases last

namespace Clause

mutual

def expressions : Clause → List Raw
  | .declare _ _ init => init.toList
  | .assign _ value => [value]
  | .contribute target value => [target, value]
  | .conditional cond thn els => cond :: (expressionsAll thn ++ expressionsAll els)
  | .block body => expressionsAll body

def expressionsAll : List Clause → List Raw
  | [] => []
  | c :: cs => c.expressions ++ expressionsAll cs

end

theorem expressionsAll_append (cs ds : List Clause) :
    expressionsAll (cs ++ ds) = expressionsAll cs ++ expressionsAll ds := by
  induction cs with
  | nil => rfl
  | cons c cs ih => simp only [List.cons_append, expressionsAll, ih, List.append_assoc]

def Parsed (cs : List Clause) : Prop := ∀ raw ∈ expressionsAll cs, raw.Parsed

theorem Parsed.add {cs : List Clause} (h : Parsed cs) {c : Clause}
    (more : ∀ raw ∈ c.expressions, raw.Parsed) : Parsed (cs ++ [c]) := by
  intro raw mem
  simp only [expressionsAll_append, expressionsAll, List.append_nil, List.mem_append] at mem
  exact mem.elim (h raw) (more raw)

def Gives (x : Reading) : Prop := ∀ cs ws, x = .ok (cs, ws) → Parsed cs

theorem readSemicolon_gives {cs : List Clause} (h : Parsed cs) (ws : Words) :
    Gives (readSemicolon cs ws) := by
  intro ds rest run
  obtain ⟨_, _, same⟩ := Raw.bind_eq_ok.mp run
  cases same
  exact h

theorem parsed_of_readInit {ws rest : Words} {init : Option Raw}
    (run : readInit ws = .ok (init, rest)) : ∀ raw ∈ init.toList, raw.Parsed := by
  unfold readInit at run
  split at run
  · obtain ⟨⟨value, after⟩, read, same⟩ := Raw.bind_eq_ok.mp run
    cases same
    exact List.forall_mem_singleton.mpr ⟨_, _, read⟩
  · cases run
    exact List.forall_mem_nil _

theorem readVariables_gives (type : DataType) (fuel : Nat) {before : List Clause}
    (h : Parsed before) (ws : Words) : Gives (readVariables type fuel before ws) := by
  induction fuel generalizing before ws with
  | zero => exact fun _ _ run => by cases run
  | succ fuel ih =>
    intro cs rest run
    obtain ⟨⟨name, ws₁⟩, _, run₁⟩ := Raw.bind_eq_ok.mp run
    obtain ⟨⟨init, ws₂⟩, read, run₂⟩ := Raw.bind_eq_ok.mp run₁
    have more := h.add (c := .declare name.text type init) (parsed_of_readInit read)
    simp only at run₂
    split at run₂
    · cases run₂
    · split at run₂
      · exact ih more _ cs rest run₂
      · exact readSemicolon_gives more _ cs rest run₂

theorem readAssignment_gives {before : List Clause} (h : Parsed before) (ws : Words) :
    Gives (readAssignment before ws) := by
  intro cs rest run
  obtain ⟨⟨name, ws₁⟩, _, run₁⟩ := Raw.bind_eq_ok.mp run
  obtain ⟨⟨_, ws₂⟩, _, run₂⟩ := Raw.bind_eq_ok.mp run₁
  obtain ⟨⟨value, ws₃⟩, read, run₃⟩ := Raw.bind_eq_ok.mp run₂
  exact readSemicolon_gives (h.add (List.forall_mem_singleton.mpr ⟨_, _, read⟩)) _ cs rest run₃

theorem readContribution_gives {before : List Clause} (h : Parsed before) (ws : Words) :
    Gives (readContribution before ws) := by
  intro cs rest run
  obtain ⟨⟨target, ws₁⟩, first, run₁⟩ := Raw.bind_eq_ok.mp run
  obtain ⟨⟨_, ws₂⟩, _, run₂⟩ := Raw.bind_eq_ok.mp run₁
  obtain ⟨⟨value, ws₃⟩, second, run₃⟩ := Raw.bind_eq_ok.mp run₂
  have both : ∀ raw ∈ (Clause.contribute target value).expressions, raw.Parsed :=
    List.forall_mem_cons.mpr ⟨⟨_, _, first⟩, List.forall_mem_singleton.mpr ⟨_, _, second⟩⟩
  exact readSemicolon_gives (h.add both) _ cs rest run₃

theorem parsed_of_readCondition {ws rest : Words} {cond : Raw}
    (run : readCondition ws = .ok (cond, rest)) : cond.Parsed := by
  obtain ⟨⟨_, ws₁⟩, _, run₁⟩ := Raw.bind_eq_ok.mp run
  obtain ⟨⟨raw, ws₂⟩, read, run₂⟩ := Raw.bind_eq_ok.mp run₁
  obtain ⟨_, _, same⟩ := Raw.bind_eq_ok.mp run₂
  cases same
  exact ⟨_, _, read⟩

mutual

theorem readBodyFuel_gives (fuel : Nat) (ws : Words) : Gives (readBodyFuel fuel ws) := by
  cases fuel with
  | zero => exact fun _ _ run => by cases run
  | succ fuel =>
    intro cs rest run
    have empty : Parsed [] := List.forall_mem_nil _
    rw [readBodyFuel] at run
    split at run
    · obtain ⟨ws₁, _, run₁⟩ := Raw.bind_eq_ok.mp run
      exact readSequence_gives fuel empty ws₁ cs rest run₁
    · exact readStatement_gives fuel empty ws cs rest run

theorem readSequence_gives (fuel : Nat) {before : List Clause} (h : Parsed before) (ws : Words) :
    Gives (readSequence fuel before ws) := by
  cases fuel with
  | zero => exact fun _ _ run => by cases run
  | succ fuel =>
    intro cs rest run
    rw [readSequence] at run
    split at run
    · cases run
      exact h
    · split at run
      · cases run
      · obtain ⟨⟨ds, ws₁⟩, first, run₁⟩ := Raw.bind_eq_ok.mp run
        exact readSequence_gives fuel (readStatement_gives fuel h ws ds ws₁ first) ws₁ cs rest run₁

theorem readStatement_gives (fuel : Nat) {before : List Clause} (h : Parsed before) (ws : Words) :
    Gives (readStatement fuel before ws) := by
  cases fuel with
  | zero => exact fun _ _ run => by cases run
  | succ fuel =>
    intro cs rest run
    rw [readStatement] at run
    split at run
    · cases run
      exact h
    split at run
    · obtain ⟨⟨body, ws₁⟩, inner, same⟩ := Raw.bind_eq_ok.mp run
      have taken := readBodyFuel_gives fuel ws body ws₁ inner
      cases same
      exact h.add taken
    split at run
    · obtain ⟨⟨cond, ws₁⟩, first, run₁⟩ := Raw.bind_eq_ok.mp run
      obtain ⟨⟨thn, ws₂⟩, second, run₂⟩ := Raw.bind_eq_ok.mp run₁
      have taken := readBodyFuel_gives fuel ws₁ thn ws₂ second
      simp only at run₂
      split at run₂
      · obtain ⟨⟨els, ws₃⟩, third, same⟩ := Raw.bind_eq_ok.mp run₂
        cases same
        have other := readBodyFuel_gives fuel _ els _ third
        exact h.add (List.forall_mem_cons.mpr ⟨parsed_of_readCondition first,
          List.forall_mem_append.mpr ⟨taken, other⟩⟩)
      · cases run₂
        exact h.add (List.forall_mem_cons.mpr ⟨parsed_of_readCondition first,
          List.forall_mem_append.mpr ⟨taken, List.forall_mem_nil _⟩⟩)
    split at run
    · exact readVariables_gives .real _ h _ cs rest run
    split at run
    · exact readVariables_gives .integer _ h _ cs rest run
    split at run
    · exact readAssignment_gives h ws cs rest run
    · exact readContribution_gives h ws cs rest run

end

end Clause

namespace ProgramItem

def expressions : ProgramItem → List Raw
  | .parameter _ _ default _ => [default]
  | .analog _ body => Clause.expressionsAll body
  | _ => []

def Parsed (items : List ProgramItem) : Prop := ∀ item ∈ items, ∀ raw ∈ item.expressions, raw.Parsed

theorem Parsed.andThen {e : Emitted} (first : Parsed e.items) {f : Words → Emitted}
    (rest : ∀ ws, Parsed (f ws).items) : Parsed (e.andThen f).items := by
  unfold Emitted.andThen
  split
  · exact first
  · exact List.forall_mem_append.mpr ⟨first, rest _⟩

theorem parsed_nil : Parsed [] := List.forall_mem_nil _

theorem readNames_parsed {make : Lexeme → ProgramItem} (plain : ∀ w, (make w).expressions = [])
    (ws : Words) : Parsed (readNames make ws).items := by
  have one (w : Lexeme) : ∀ raw ∈ (make w).expressions, raw.Parsed := by
    rw [plain]
    exact List.forall_mem_nil _
  fun_induction readNames make ws with
  | case1 => exact parsed_nil
  | case2 => exact parsed_nil
  | case3 name _ _ _ _ _ ih => exact List.forall_mem_cons.mpr ⟨one name, ih⟩
  | case4 name => exact List.forall_mem_singleton.mpr (one name)

theorem readParametersFuel_parsed (type : DataType) (isLocal : Bool) (fuel : Nat) (ws : Words) :
    Parsed (readParametersFuel type isLocal fuel ws).items := by
  induction fuel generalizing ws with
  | zero => exact parsed_nil
  | succ fuel ih =>
    rw [readParametersFuel]
    split
    · exact parsed_nil
    · rename_i name value rest run
      have read : value.Parsed := by
        obtain ⟨⟨_, ws₁⟩, _, run₁⟩ := Raw.bind_eq_ok.mp run
        obtain ⟨⟨_, ws₂⟩, _, run₂⟩ := Raw.bind_eq_ok.mp run₁
        obtain ⟨⟨raw, ws₃⟩, read, same⟩ := Raw.bind_eq_ok.mp run₂
        cases same
        exact ⟨_, _, read⟩
      have first : ∀ raw ∈ (ProgramItem.parameter name type value isLocal).expressions,
        raw.Parsed :=
        List.forall_mem_singleton.mpr read
      split
      · exact List.forall_mem_cons.mpr ⟨first, ih _⟩
      · exact List.forall_mem_singleton.mpr first

theorem read_parsed (ws : Words) : Parsed (read ws).items := by
  unfold read
  extract_lets word
  split
  · exact parsed_nil
  · split
    case h_1 | h_2 | h_3 | h_4 | h_7 | h_8 => exact readNames_parsed (fun _ => rfl) _
    case h_5 | h_6 => exact readParametersFuel_parsed _ _ _ _
    case h_9 =>
      unfold readBranches
      split
      · exact parsed_nil
      · exact readNames_parsed (fun _ => rfl) _
    case h_10 =>
      unfold readAnalog
      split
      · exact parsed_nil
      · rename_i body rest run
        exact List.forall_mem_singleton.mpr (Clause.readBodyFuel_gives _ _ body rest run)
    case h_11 => exact parsed_nil

theorem readAll_parsed (fuel : Nat) (ws : Words) : Parsed (readAll fuel ws).items := by
  induction fuel generalizing ws with
  | zero => exact parsed_nil
  | succ fuel ih =>
    rw [readAll]
    split
    · exact parsed_nil
    · split
      · exact parsed_nil
      · exact (read_parsed ws).andThen ih

theorem readPorts_parsed (ws : Words) : Parsed (readPorts ws).items := by
  unfold readPorts
  split
  · refine Parsed.andThen ?_ fun _ => parsed_nil
    split
    · exact parsed_nil
    · exact readNames_parsed (fun _ => rfl) _
  · exact parsed_nil

theorem readDevice_parsed (ws : Words) : Parsed (readDevice ws).items := by
  unfold readDevice
  split
  · split
    · exact parsed_nil
    · rename_i name rest _
      have head : Parsed (.device name :: (readPorts rest).items) :=
        List.forall_mem_cons.mpr ⟨List.forall_mem_nil _, readPorts_parsed rest⟩
      exact (Parsed.andThen head fun _ => parsed_nil).andThen fun _ => readAll_parsed _ _
  · exact parsed_nil

theorem readDevices_parsed (fuel : Nat) (ws : Words) : Parsed (readDevices fuel ws).items := by
  induction fuel generalizing ws with
  | zero => exact parsed_nil
  | succ fuel ih =>
    rw [readDevices]
    split
    · exact parsed_nil
    · exact (readDevice_parsed ws).andThen ih

end ProgramItem

theorem Program.ofWords_parsed (ws : Words) : ProgramItem.Parsed (Program.ofWords ws).items := by
  have all := ProgramItem.readDevices_parsed ws.length ws
  unfold Program.ofWords
  extract_lets e
  split <;> exact all

namespace Source

variable {r : Resolver} {s : Source} {scope : ScopeId} {d : Design}

theorem resolve_formed (parsed : s.raw.Parsed) : Resolve.Formed (s.resolve r scope) d fun _ =>
    True :=
  ((parsed.pushes r scope).arm s.key [] d).mono (fun _ _ _ => trivial) fun _ _ other => other

theorem resolveTarget_formed (parsed : s.raw.Parsed) :
    Resolve.Formed (s.resolveTarget r scope) d fun _ => True := by
  refine Meets.bind (resolve_formed parsed) fun t d₁ _ => ?_
  refine Meets.bind (Resolve.onCircuit_formed _) fun _ d₂ _ => ?_
  split
  · trivial
  · exact Meets.get (Resolve.Formed.fail nofun)

end Source

/-- Expressions come out of the reader in an order of tokens that suits the resolver. This holds of
one that is all of a text, and of those in the declarations and statements of a program. Whatever
their names mean, and in whatever scope, design and configuration they are resolved, as a value or
as the target of a contribution, the order of their tokens is never found wrong, neither at the
outermost level nor in an arm of a choice. -/
theorem Raw.parsed_never_malformed :
    (∀ s raw, Raw.ofText s = .ok raw → raw.Parsed) ∧
    (∀ ws, ∀ item ∈ (Program.ofWords ws).items, ∀ raw ∈ item.expressions, raw.Parsed) ∧
    ∀ raw : Raw, raw.Parsed → ∀ (r : Resolver) (key : Nat) (scope : ScopeId) (d d' : Design)
      (f : Failure),
      Source.resolve r ⟨raw, key⟩ scope d = .error f d' ∨
      Source.resolveTarget r ⟨raw, key⟩ scope d = .error f d' →
      ¬ f.Malformed := by
  refine ⟨fun _ _ => Raw.parsed_of_ofText, Program.ofWords_parsed, ?_⟩
  rintro raw parsed r key scope d d' f (run | run)
  · exact Meets.of_error (Source.resolve_formed (s := ⟨raw, key⟩) parsed) run
  · exact Meets.of_error (Source.resolveTarget_formed (s := ⟨raw, key⟩) parsed) run

end Analog
