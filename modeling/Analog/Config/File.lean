import Analog.Config
import Analog.Markup.Element
import Analog.Text.Base64

/-!
Configuration files. Their document is a mapping of settings; keys without a meaning are passed
over, and what is not set keeps the value it had. A mapping may take in the entries of others, which
do not replace its own.
-/
namespace Analog.ConfigFile

open Markup

inductive Refusal where
  | kind (found : String) (text : List Char) (wanted : String)
  | binary
  | loop (name : List Char)
  | merge
  deriving DecidableEq, Repr

def Refusal.message : Refusal → String
  | kind found text wanted => "cannot decode " ++ found ++ " `" ++ String.ofList text ++
    "` as a " ++ wanted
  | binary => "!!binary value contains invalid base64 data"
  | loop name => "anchor '" ++ String.ofList name ++ "' value contains itself"
  | merge => "map merge requires map or sequence of maps as the value"

inductive Error where
  | flaw (f : Flaw)
  | refusal (r : Refusal)
  | values (messages : List String)
  deriving DecidableEq, Repr

def Error.message : Error → String
  | flaw f => "yaml: " ++ f.message
  | refusal r => "yaml: " ++ r.message
  | values messages => "yaml: unmarshal errors:\n  " ++ "\n  ".intercalate messages

/-! Values -/

def shown (text : List Char) : String :=
  let bytes := Text.encode text
  if 10 < bytes.length then String.ofList (Text.decode (bytes.take 7)) ++ "..."
    else String.ofList text

def misfit (n : Element) (type : String) : String :=
  let value := if n.tag == "!!seq" || n.tag == "!!map" then String.ofList n.keyText
    else " `" ++ shown n.keyText ++ "`"
  "line " ++ toString n.line ++ ": cannot unmarshal " ++ n.tag ++ value ++ " into " ++ type

def duplicates : List Element → List String
  | [] => []
  | k :: ks =>
    (ks.filter fun other => other.sameKind k && other.keyText == k.keyText).map (fun other =>
      "line " ++ toString other.line ++ ": mapping key " ++
        Text.quote (Text.encode other.keyText) ++
        " already defined at line " ++ toString k.line) ++ duplicates ks

abbrev DecodeM := EStateM Refusal (List String)

def report (messages : List String) : DecodeM Unit := modify (· ++ messages)

structure Scope where
  named : List (Nat × Element)
  followed : List Nat

def Scope.follow (s : Scope) : Element → DecodeM (Scope × Element)
  | .reference line name target number =>
    if s.followed.contains number then throw (.loop name)
    else return ({ s with followed := number :: s.followed },
      (s.named.lookup target).getD (.scalar line "!!null" []))
  | n => return (s, n)

def readScalar (tag : String) (text : List Char) : DecodeM (Meaning × List Char) :=
  if tag == "!!binary" then
    match Text.fromBase64? text with
    | some bytes => return (.text, Text.decode bytes)
    | none => throw .binary
  else match Meaning.under? tag text with
    | some m => return (m, text)
    | none => throw (.kind (Meaning.ofPlain (tag == "!!timestamp") text).tag text tag)

def readValue {α : Type} (type : String) (value? : Meaning → List Char → Option α) (s : Scope)
    (n : Element) : DecodeM (Option α) := do
  let (_, n) ← s.follow n
  match n with
  | .scalar _ tag text =>
    let (m, text) ← readScalar tag text
    if m == .null then return none
    let v := value? m text
    if v.isNone then report [misfit n type]
    return v
  | .mapping _ _ entries =>
    let twice := duplicates (entries.map (·.1))
    report (if twice.isEmpty then [misfit n type] else twice)
    return none
  | _ =>
    report [misfit n type]
    return none

def readText (s : Scope) (n : Element) : DecodeM (Option String) :=
  readValue "string" (fun _ text => some (String.ofList text)) s n

def trueWords : List String := ["y", "Y", "yes", "Yes", "YES", "on", "On", "ON"]

def falseWords : List String := ["n", "N", "no", "No", "NO", "off", "Off", "OFF"]

def bool? : Meaning → List Char → Option Bool
  | .bool b, _ => some b
  | .text, text =>
    if trueWords.contains (String.ofList text) then some true
    else if falseWords.contains (String.ofList text) then some false
    else none
  | _, _ => none

def ofReal? (x : Float) : Option Nat :=
  if x ≤ 18446744073709551616.0 then
    some (if 0 ≤ x then x.toUInt64.toNat else (Arithmetic.truncate x).toUInt64.toNat)
  else none

def nat? : Meaning → List Char → Option Nat
  | .int n, _ => if 0 ≤ n then some n.toNat else none
  | .real x, _ => ofReal? x
  | _, _ => none

/-! Mappings -/

structure Target (α : Type) where
  type : String
  fields : List String
  cleared : α → α
  enter : Scope → α → String → Element → DecodeM α

def isMerge : Element → Bool
  | .scalar _ tag text => tag == "!!merge" && text == ['<', '<']
  | _ => false

def keyNames (s : Scope) (keys : List Element) : DecodeM (List String) := do
  let names ← keys.mapM fun k => do
    let (_, k) ← s.follow k
    match k with
    | .scalar _ tag text =>
      let (m, text) ← readScalar tag text
      return if m == .text then some (String.ofList text) else none
    | _ => return none
  return names.filterMap id

structure Progress (α : Type) where
  value : α
  taken : Option (List String)
  set : List String

def enterNamed {α : Type} (t : Target α) (s : Scope) (p : Progress α) (name : String)
    (key value : Element) : DecodeM (Progress α) := do
  if (p.taken.map (·.contains name)).getD false then return p
  let p := { p with taken := p.taken.map (· ++ [name]) }
  if p.set.contains name then
    report ["line " ++ toString key.line ++ ": field " ++ name ++ " already set in type " ++ t.type]
    return p
  let v ← t.enter s p.value name value
  return { p with value := v, set := if t.fields.contains name then name :: p.set else p.set }

def enterEntry {α : Type} (t : Target α) (s : Scope) (p : Progress α) (entry : Element × Element) :
    DecodeM (Progress α) := do
  if isMerge entry.1 then return p
  match ← readText s entry.1 with
  | none => return p
  | some name => enterNamed t s p name entry.1 entry.2

def mergeSources : Element → DecodeM (List Element)
  | .sequence _ _ items => return items
  | .scalar _ _ _ => throw .merge
  | n => return [n]

def Scope.isMapping (s : Scope) : Element → Bool
  | .mapping _ _ _ => true
  | .reference _ _ target _ => match s.named.lookup target with
    | some (.mapping _ _ _) => true
    | _ => false
  | _ => false

def readMapping {α : Type} (t : Target α) :
    Nat → Scope → Option (List String) → α → Element → DecodeM (α × Option (List String))
  | 0, _, taken, a, _ => return (a, taken)
  | fuel + 1, s, taken, a, n => do
    let (s, n) ← s.follow n
    match n with
    | .scalar _ tag text =>
      let (m, _) ← readScalar tag text
      if m == .null then return (t.cleared a, taken)
      report [misfit n t.type]
      return (a, taken)
    | .mapping _ _ entries =>
      let twice := duplicates (entries.map (·.1))
      if !twice.isEmpty then
        report twice
        return (a, taken)
      let p ← entries.foldlM (enterEntry t s) ⟨a, taken, []⟩
      match (entries.filter fun e => isMerge e.1).getLast? with
      | none => return (p.value, p.taken)
      | some (_, source) =>
        let names ← match p.taken with
          | some names => pure names
          | none => keyNames s (entries.map (·.1))
        let sources ← mergeSources source
        let (a, names) ← sources.foldlM (fun (a, names) source =>
          if s.isMapping source then readMapping t fuel s names a source else throw .merge)
            (p.value, some names)
        return (a, p.taken.bind fun _ => names)
    | _ =>
      report [misfit n t.type]
      return (a, taken)

def Scope.isNull (s : Scope) : Element → Bool
  | .reference _ _ target _ => (s.named.lookup target).any (·.tag == "!!null")
  | n => n.tag == "!!null"

def tableTarget : Target (List (String × String)) where
  type := "map[string]string"
  fields := []
  cleared := fun _ => []
  enter := fun s table key value => do
    match ← readText s value with
    | some text => return Config.put table key text
    | none =>
      return if s.isNull value && (table.lookup key).isNone then Config.put table key "" else table

def configTarget (fuel : Nat) : Target Config where
  type := "compiler.Config"
  fields := ["simplify", "max-iterations", "parameters", "access"]
  cleared := id
  enter := fun s c key value => do
    match key with
    | "simplify" => return { c with simplify := (← readValue "bool" bool? s value).getD c.simplify }
    | "max-iterations" =>
      return { c with maxIterations := (← readValue "uint" nat? s value).getD c.maxIterations }
    | "parameters" =>
      return { c with parameters := (← readMapping tableTarget fuel s none c.parameters value).1 }
    | "access" =>
      return { c with access := (← readMapping tableTarget fuel s none c.access value).1 }
    | _ => return c

/-- The configuration that a file describes. Mappings take each other in along aliases, none of
which is followed twice at a time, and along nesting. -/
def read (text : String) : Except Error Config :=
  let fuel := (text.length + 1) * (text.length + 1)
  match Document.read text.toList with
  | .error f => .error (.flaw f)
  | .ok ⟨none, _⟩ => .ok Config.default
  | .ok ⟨some root, named⟩ =>
    match (readMapping (configTarget fuel) fuel ⟨named, []⟩ none Config.default root).run [] with
    | .error r _ => .error (.refusal r)
    | .ok (c, _) messages => if messages.isEmpty then .ok c else .error (.values messages)

end Analog.ConfigFile
