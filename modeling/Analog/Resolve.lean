import Analog.Collection.Stack
import Analog.Config
import Analog.Design.Scope
import Analog.Function
import Analog.Raw.Basic
import Analog.Simplify
import Analog.Tree.Printer

/-!
From tokens to trees. The tokens are worked off with a stack of trees; names are looked up in a
scope, accesses make the branches they read, and operators are simplified at once. An expression
resolves completely or not at all: on a problem every use taken so far is given back.
-/
namespace Analog

structure Resolver where
  config : Config
  tag : Nat

def Tree.valueFault? (c : Circuit) : Tree → Option Cause
  | .deferred name => some (.undeclared name)
  | .node i => some (.nodeAsValue (c.nodeName i))
  | .port i => some (.portAsValue (c.nodeName i))
  | .marker => some .listAsValue
  | .arguments _ => some .listAsValue
  | _ => none

def Tree.nodeId? : Tree → Option NodeId
  | .node i => some i
  | .port i => some i
  | _ => none

def Tree.isMarker : Tree → Bool
  | .marker => true
  | _ => false

def Tree.firstDeferred? : List Tree → Option String
  | [] => none
  | .deferred name :: _ => some name
  | _ :: ts => firstDeferred? ts

namespace Resolve

open DesignM

def requireValue (t : Tree) : DesignM Unit := do
  match t.valueFault? (← get).circuit with
  | some cause => fail cause
  | none => return ()

def requireValues : List Tree → DesignM Unit
  | [] => return ()
  | t :: ts => do
    requireValue t
    requireValues ts

/-- A name that is not called. One that means nothing, or a branch, is left for an access to see
to. -/
def identifier (d : Design) (scope : ScopeId) (name : String) : Tree :=
  match d.lookup? scope name with
  | some (.parameter p) =>
    match (d.parameterOf p).value with
    | some v => .literal v (some ⟨name, p⟩)
    | none => .parameter ⟨name, p⟩
  | some (.variable v) => .variable ⟨name, v⟩ (d.snapshot v)
  | some (.port i) => .port i
  | some (.net i) => .node i
  | _ =>
    match Function.find? name with
    | some f => if f.least == 0 then .call name [] none (f.summary []) else .deferred name
    | none => .deferred name

def connect (function : String) (p n : NodeId) : DesignM BranchRef := do
  let d ← get
  match d.circuit.connect p n with
  | .ok (ref, c) => do
    set { d with circuit := c }
    return ref
  | .error e => fail (.loop function e)

def branch (function : String) (args : List Tree) : DesignM BranchRef := do
  match args with
  | [.deferred name] =>
    match (← get).circuit.lookup? name with
    | some b => return ⟨b, false⟩
    | none => fail (.awaitedBranch name)
  | [t] =>
    match t.nodeId? with
    | some p => connect function p ground
    | none => fail (.notBranch function)
  | [t, u] =>
    match Tree.firstDeferred? [t, u], t.nodeId?, u.nodeId? with
    | some name, _, _ => fail (.undeclaredNode name)
    | none, some p, some n => connect function p n
    | none, _, _ => fail (.notBranch function)
  | args => fail (.accessArguments function args.length)

def access (function : String) (a : Access) (args : List Tree) : DesignM Tree := do
  let ref ← branch function args
  let d ← get
  set { d with circuit := d.circuit.take ref.branch a.probe }
  return .access ⟨function, ref, d.circuit.probe ref.branch a⟩

def parameterGiven (r : Resolver) (function : String) (args : List Tree) : DesignM Tree := do
  let d ← get
  let parameter : Option Symbol := match args with
    | .parameter p :: _ => some p
    | .literal _ o :: _ => o
    | _ => none
  match parameter with
  | none => fail (.notParameter function (", ".intercalate (Tree.sources d.circuit args)))
  | some p =>
    match (d.parameterOf p.id).given, r.config.simplify with
    | some b, true => return .ofValue (.ofBool b)
    | _, _ => return .call function args none (.fixed true)

def filterBranch (site : CallSite) (function : String) : DesignM BranchId := do
  let d ← get
  match d.filters.lookup site with
  | some b => return b
  | none => do
    let (b, c) := d.circuit.addFilter function
    set { d with circuit := c, filters := (site, b) :: d.filters }
    return b

def isLiteral : Tree → Bool
  | .literal _ _ => true
  | _ => false

/-- A filter reads the potential of its internal branch, besides what its arguments read. The
derivative of a known value is zero. -/
def filter (r : Resolver) (site : CallSite) (function : String) (args : List Tree) :
    DesignM Tree := do
  if r.config.simplify && function == "ddt" && (args.head?.map isLiteral).getD false then
    return .ofValue (.int 0)
  let b ← filterBranch site function
  let d ← get
  set { d with circuit := d.circuit.takeFilter b }
  let read := Summary.combine [.ofProbe (d.circuit.probe b .potential), Tree.argumentsSummary args]
  return .call function args (some b) { read with offset := false, constant := false }

def mathematical (r : Resolver) (f : Function) (args : List Tree) : DesignM Tree := do
  match f.fold? args, r.config.simplify with
  | some v, true => return .ofValue v
  | _, _ => return .call f.name args none (f.summary (Tree.summaries args))

def function (r : Resolver) (site : CallSite) (f : Function) (args : List Tree) : DesignM Tree := do
  if args.length < f.least || f.most < args.length then
    fail (.functionArguments f.name f.least f.most args.length)
  match f.role with
  | .given => parameterGiven r f.name args
  | .filter => do
    requireValues args
    filter r site f.name args
  | _ => do
    requireValues args
    mathematical r f args

def call (r : Resolver) (scope : ScopeId) (site : CallSite) (name : String) (args : List Tree) :
    DesignM Tree := do
  match r.config.access? name, Function.find? name with
  | some a, _ => access name a args
  | none, some f => function r site f args
  | none, none =>
    match (← get).lookup? scope name with
    | some _ => fail (.notFunction name)
    | none => fail (.unknownFunction name)

def unary (r : Resolver) (op : UnaryOp) (x : Tree) : DesignM Tree := do
  requireValue x
  return if r.config.simplify then Simplify.unary op x else Simplify.plainUnary op x

def binary (r : Resolver) (op : BinaryOp) (x y : Tree) : DesignM Tree := do
  requireValue x
  requireValue y
  if r.config.simplify then
    let s := Simplify.binary op x y
    onCircuit (Tree.releaseAll s.dropped.toList)
    return s.tree
  else return Simplify.plainBinary op x y

def chosen? (r : Resolver) : Tree → Option Bool
  | .literal v _ => if r.config.simplify then v.truth? else none
  | _ => none

def single (raw : Raw) (stack : Stack Tree) : DesignM Tree := do
  match stack.items with
  | [t] => do
    orRelease [t] (requireValue t)
    return t
  | items => orRelease stack.toList (fail (.valueCount (Raw.linear raw) items.length))

mutual

/-- Works off one token. Operands that were taken from the stack are dropped on a problem, and then
the rest of the stack. -/
def step (r : Resolver) (scope : ScopeId) (key : Nat) (site : List Nat) (stack : Stack Tree) :
    Token → DesignM (Stack Tree)
  | .literal v => return stack.push (.ofValue v)
  | .marker => return stack.push .marker
  | .arguments =>
    match stack.popUntil? Tree.isMarker with
    | some (items, below) => return below.push (.arguments items)
    | none => orRelease stack.toList (fail .insufficient)
  | .identifier name =>
    match stack.items with
    | .arguments args :: below => do
      let t ← orRelease (.arguments args :: below.reverse)
        (call r scope ⟨r.tag, key, site⟩ name args)
      return ⟨t :: below⟩
    | _ => do
      return stack.push (identifier (← get) scope name)
  | .unary op =>
    match stack.items with
    | x :: below => do
      let t ← orRelease (x :: below.reverse) (unary r op x)
      return ⟨t :: below⟩
    | [] => fail .insufficient
  | .binary op =>
    match stack.items with
    | y :: x :: below => do
      let t ← orRelease (x :: y :: below.reverse) (binary r op x y)
      return ⟨t :: below⟩
    | _ => orRelease stack.toList (fail .insufficient)
  | .ternary thn els =>
    match stack.items with
    | c :: below => do
      let t ← orRelease (c :: below.reverse) do
        requireValue c
        match chosen? r c with
        | some true => single thn (← steps r scope key (0 :: site) 0 .empty thn)
        | some false => single els (← steps r scope key (1 :: site) 0 .empty els)
        | none => do
          let t ← single thn (← steps r scope key (0 :: site) 0 .empty thn)
          let e ← orRelease [t] do
            single els (← steps r scope key (1 :: site) 0 .empty els)
          return .ternary c t e (.select c.summary t.summary e.summary)
      return ⟨t :: below⟩
    | [] => fail .insufficient

def steps (r : Resolver) (scope : ScopeId) (key : Nat) (site : List Nat) (k : Nat)
    (stack : Stack Tree) : List Token → DesignM (Stack Tree)
  | [] => return stack
  | t :: ts => do
    let stack ← step r scope key (k :: site) stack t
    steps r scope key site (k + 1) stack ts

end

end Resolve

def Source.resolve (r : Resolver) (s : Source) (scope : ScopeId) : DesignM Tree := do
  Resolve.single s.raw (← Resolve.steps r scope s.key [] 0 .empty s.raw)

/-- The quantity that a contribution goes to; it is not read, so no use is kept. -/
def Source.resolveTarget (r : Resolver) (s : Source) (scope : ScopeId) : DesignM Quantity := do
  let t ← s.resolve r scope
  DesignM.onCircuit t.release
  match t with
  | .access q => return q
  | t => DesignM.fail (.notTarget (t.source (← get).circuit))

end Analog
