import Analog.Markup.Meaning
import Analog.Markup.Token

/-!
The elements of a settings text, and the reader that makes them of tokens. An alias stands for an
element that was named before, even for one it stands in.
-/
namespace Analog.Markup

inductive Element where
  | scalar (line : Nat) (tag : String) (text : List Char)
  | sequence (line : Nat) (tag : String) (items : List Element)
  | mapping (line : Nat) (tag : String) (entries : List (Element × Element))
  | reference (line : Nat) (name : List Char) (target number : Nat)

namespace Element

def line : Element → Nat
  | scalar line _ _ => line
  | sequence line _ _ => line
  | mapping line _ _ => line
  | reference line _ _ _ => line

def tag : Element → String
  | scalar _ tag _ => tag
  | sequence _ tag _ => tag
  | mapping _ tag _ => tag
  | reference _ _ _ _ => ""

def keyText : Element → List Char
  | scalar _ _ text => text
  | sequence _ _ _ => []
  | mapping _ _ _ => []
  | reference _ name _ _ => name

def sameKind : Element → Element → Bool
  | scalar _ _ _, scalar _ _ _ => true
  | sequence _ _ _, sequence _ _ _ => true
  | mapping _ _ _, mapping _ _ _ => true
  | reference _ _ _ _, reference _ _ _ _ => true
  | _, _ => false

end Element

/-! Tags -/

def longStem : List Char := "tag:yaml.org,2002:".toList

def shortTag (tag : List Char) : String :=
  if longStem.isPrefixOf tag then "!!" ++ String.ofList (tag.drop longStem.length)
    else String.ofList tag

def defaultTag (text : List Char) (plain : Bool) : String :=
  if !plain then "!!str"
  else if text == ['<', '<'] then "!!merge"
  else (Meaning.ofPlain true text).tag

def writtenTag (tag : List Char) (otherwise : String) : String :=
  if tag.isEmpty || tag == ['!'] then otherwise else shortTag tag

/-! Reading -/

structure Reader where
  stream : Stream
  handles : List (List Char × List Char)
  names : List (List Char × Nat)
  named : List (Nat × Element)
  aliases : Nat

abbrev ReadM := EStateM Flaw Reader

namespace ReadM

def lift {α : Type} : Except Flaw α → ReadM α
  | .ok a => pure a
  | .error e => throw e

def peek : ReadM Token := do
  let r ← get
  let s ← lift r.stream.fill
  set { r with stream := s }
  return s.queue.headD ⟨.streamEnd, s.cursor.line⟩

def advance : ReadM Unit :=
  modify fun r =>
    { r with stream := { r.stream with queue := r.stream.queue.tail, taken := r.stream.taken + 1 } }

def fail {α : Type} (cause : Misplacement) (start reached : Nat) : ReadM α :=
  throw (.grammar cause start reached)

def name (n : List Char) : ReadM Nat :=
  modifyGet fun r => (r.names.length, { r with names := (n, r.names.length) :: r.names })

def keep (number : Option Nat) (n : Element) : ReadM Element := do
  match number with
  | some i => modify fun r => { r with named := (i, n) :: r.named }
  | none => pure ()
  return n

def aliasElement (line : Nat) (n : List Char) : ReadM Element := do
  let r ← get
  match r.names.lookup n with
  | none => throw (.unknownAnchor (String.ofList n))
  | some i =>
    set { r with aliases := r.aliases + 1 }
    return .reference line n i r.aliases

structure Properties where
  line : Nat
  anchor : Option (List Char)
  tag : Option (Tag × Nat)

def properties : ReadM Properties := do
  let t ← peek
  match t.kind with
  | .anchor a =>
    advance
    let u ← peek
    match u.kind with
    | .tag g =>
      advance
      return ⟨t.line, some a, some (g, u.line)⟩
    | _ => return ⟨t.line, some a, none⟩
  | .tag g =>
    advance
    let u ← peek
    match u.kind with
    | .anchor a =>
      advance
      return ⟨t.line, some a, some (g, t.line)⟩
    | _ => return ⟨t.line, none, some (g, t.line)⟩
  | _ => return ⟨t.line, none, none⟩

def wholeTag (p : Properties) : ReadM (List Char) := do
  match p.tag with
  | none => return []
  | some (g, line) =>
    if g.handle.isEmpty then return g.suffix
    let r ← get
    match r.handles.lookup g.handle with
    | some stem => return stem ++ g.suffix
    | none => fail .tagHandle p.line line

def missing (line : Nat) : Element := .scalar (line + 1) "!!null" []

def bareElement (p : Properties) (number : Option Nat) (tag : List Char) (reached : Nat) :
    ReadM Element :=
  if p.anchor.isNone && tag.isEmpty then fail .content p.line reached
  else keep number (.scalar (p.line + 1) (writtenTag tag "!!null") [])

mutual

def element : Nat → Bool → Bool → ReadM Element
  | 0, _, _ => fail .content 0 0
  | fuel + 1, block, bare => do
    let t ← peek
    if let .reference n := t.kind then
      let a ← aliasElement (t.line + 1) n
      advance
      return a
    let p ← properties
    let t ← peek
    let tag ← wholeTag p
    let line := p.line + 1
    let number ← p.anchor.mapM name
    match t.kind with
    | .scalar text plain =>
      advance
      keep number (.scalar line (writtenTag tag (defaultTag text plain)) text)
    | .flowSequenceStart =>
      advance
      let items ← flowItems fuel t.line true []
      keep number (.sequence line (writtenTag tag "!!seq") items)
    | .flowMappingStart =>
      advance
      let entries ← flowEntries fuel t.line true []
      keep number (.mapping line (writtenTag tag "!!map") entries)
    | .blockEntry =>
      if bare then
        let items ← bareItems fuel []
        keep number (.sequence line (writtenTag tag "!!seq") items)
      else bareElement p number tag t.line
    | .blockSequenceStart =>
      if block then
        advance
        let items ← blockItems fuel t.line []
        keep number (.sequence line (writtenTag tag "!!seq") items)
      else bareElement p number tag t.line
    | .blockMappingStart =>
      if block then
        advance
        let entries ← blockEntries fuel t.line []
        keep number (.mapping line (writtenTag tag "!!map") entries)
      else bareElement p number tag t.line
    | _ => bareElement p number tag t.line

def blockItems : Nat → Nat → List Element → ReadM (List Element)
  | 0, _, _ => fail .content 0 0
  | fuel + 1, start, items => do
    let t ← peek
    match t.kind with
    | .blockEntry =>
      advance
      let u ← peek
      let n ← match u.kind with
        | .blockEntry | .blockEnd => pure (missing t.line)
        | _ => element fuel true false
      blockItems fuel start (items ++ [n])
    | .blockEnd =>
      advance
      return items
    | _ => fail .blockEntry start t.line

def bareItems : Nat → List Element → ReadM (List Element)
  | 0, _ => fail .content 0 0
  | fuel + 1, items => do
    let t ← peek
    match t.kind with
    | .blockEntry =>
      advance
      let u ← peek
      let n ← match u.kind with
        | .blockEntry | .key | .value | .blockEnd => pure (missing t.line)
        | _ => element fuel true false
      bareItems fuel (items ++ [n])
    | _ => return items

def blockEntries : Nat → Nat → List (Element × Element) → ReadM (List (Element × Element))
  | 0, _, _ => fail .content 0 0
  | fuel + 1, start, entries => do
    let t ← peek
    match t.kind with
    | .key =>
      advance
      let k ← blockPart fuel t.line
      let v ← blockValue fuel
      blockEntries fuel start (entries ++ [(k, v)])
    | .blockEnd =>
      advance
      return entries
    | _ => fail .key start t.line

def blockPart : Nat → Nat → ReadM Element
  | 0, _ => fail .content 0 0
  | fuel + 1, line => do
    let u ← peek
    match u.kind with
    | .key | .value | .blockEnd => return missing line
    | _ => element fuel true true

def blockValue : Nat → ReadM Element
  | 0 => fail .content 0 0
  | fuel + 1 => do
    let t ← peek
    match t.kind with
    | .value =>
      advance
      blockPart fuel t.line
    | _ => return missing t.line

def flowItems : Nat → Nat → Bool → List Element → ReadM (List Element)
  | 0, _, _, _ => fail .content 0 0
  | fuel + 1, start, first, items => do
    let t ← peek
    if t.kind == .flowSequenceEnd then
      advance
      return items
    if !first then
      if t.kind == .flowEntry then advance else fail .sequenceEnd start t.line
    let t ← peek
    match t.kind with
    | .flowSequenceEnd =>
      advance
      return items
    | .key =>
      advance
      let entry ← flowPair fuel
      flowItems fuel start false (items ++ [.mapping (t.line + 1) "!!map" [entry]])
    | _ =>
      let n ← element fuel false false
      flowItems fuel start false (items ++ [n])

def flowPair : Nat → ReadM (Element × Element)
  | 0 => fail .content 0 0
  | fuel + 1 => do
    let t ← peek
    let k ← match t.kind with
      | .value | .flowEntry | .flowSequenceEnd =>
        advance
        pure (missing t.line)
      | _ => element fuel false false
    let t ← peek
    if t.kind == .value then
      advance
      let u ← peek
      match u.kind with
      | .flowEntry | .flowSequenceEnd => return (k, missing t.line)
      | _ => return (k, ← element fuel false false)
    else return (k, missing t.line)

def flowEntries : Nat → Nat → Bool → List (Element × Element) → ReadM (List (Element × Element))
  | 0, _, _, _ => fail .content 0 0
  | fuel + 1, start, first, entries => do
    let t ← peek
    if t.kind == .flowMappingEnd then
      advance
      return entries
    if !first then
      if t.kind == .flowEntry then advance else fail .mappingEnd start t.line
    let t ← peek
    match t.kind with
    | .flowMappingEnd =>
      advance
      return entries
    | .key =>
      advance
      let u ← peek
      let k ← match u.kind with
        | .value | .flowEntry | .flowMappingEnd => pure (missing u.line)
        | _ => element fuel false false
      let v ← flowValue fuel
      flowEntries fuel start false (entries ++ [(k, v)])
    | _ =>
      let k ← element fuel false false
      let u ← peek
      flowEntries fuel start false (entries ++ [(k, missing u.line)])

def flowValue : Nat → ReadM Element
  | 0 => fail .content 0 0
  | fuel + 1 => do
    let t ← peek
    if t.kind == .value then
      advance
      let u ← peek
      match u.kind with
      | .flowEntry | .flowMappingEnd => return missing u.line
      | _ => element fuel false false
    else return missing t.line

end

/-! Documents -/

def addHandle (handle stem : List Char) : ReadM Unit :=
  modify fun r => { r with handles := r.handles ++ [(handle, stem)] }

def directives : Nat → Bool → ReadM Unit
  | 0, _ => pure ()
  | fuel + 1, versioned => do
    let t ← peek
    match t.kind with
    | .directive (.version major minor) =>
      if versioned then fail .secondVersion 0 t.line
      if major != 1 || minor != 1 then fail .version 0 t.line
      advance
      directives fuel true
    | .directive (.tag handle stem) =>
      let r ← get
      if (r.handles.lookup handle).isSome then fail .secondTagHandle 0 t.line
      addHandle handle stem
      advance
      directives fuel versioned
    | _ =>
      addHandle ['!'] ['!']
      addHandle ['!', '!'] longStem

def markedDocument (fuel : Nat) : ReadM Element := do
  directives fuel false
  let t ← peek
  if t.kind != .documentStart then fail .documentStart 0 t.line
  advance
  let t ← peek
  match t.kind with
  | .directive _ | .documentStart | .documentEnd | .streamEnd => return missing t.line
  | _ => element fuel true false

def document (fuel : Nat) : ReadM (Option Element) := do
  let t ← peek
  match t.kind with
  | .streamEnd => return none
  | .directive _ | .documentStart =>
    let n ← markedDocument fuel
    let _ ← peek
    return some n
  | _ =>
    directives fuel false
    let n ← element fuel true false
    let _ ← peek
    return some n

end ReadM

structure Document where
  root : Option Element
  named : List (Nat × Element)

def isAllowed (c : Char) : Bool :=
  let n := c.toNat
  n == 0x09 || n == 0x0A || n == 0x0D || (0x20 ≤ n && n ≤ 0x7E) || n == 0x85 ||
    (0xA0 ≤ n && n ≤ 0xFFFD) || 0x10000 ≤ n

def withoutOrderMark : List Char → List Char
  | '\ufeff' :: cs => cs
  | cs => cs

/-- Reads the first document of a text. Every call of a reader takes a token or comes before one
that does, and a text of `n` characters has at most `4 * n + 4` tokens. -/
def Document.read (cs : List Char) : Except Flaw Document :=
  let cs := withoutOrderMark cs
  if !cs.all isAllowed then .error .controlCharacter
  else match (ReadM.document (16 * cs.length + 64)).run ⟨.ofText cs, [], [], [], 0⟩ with
    | .ok root r => .ok ⟨root, r.named⟩
    | .error e _ => .error e

end Analog.Markup
