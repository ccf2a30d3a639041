import Analog.Markup.Scalar
import Analog.Markup.Tag

/-!
The tokens of a settings text. Indentation is told by tokens of its own: where a block starts, and
where it ends.
-/
namespace Analog.Markup

inductive TokenKind where
  | streamEnd
  | directive (d : Directive)
  | documentStart
  | documentEnd
  | blockSequenceStart
  | blockMappingStart
  | blockEnd
  | flowSequenceStart
  | flowSequenceEnd
  | flowMappingStart
  | flowMappingEnd
  | blockEntry
  | flowEntry
  | key
  | value
  | reference (name : List Char)
  | anchor (name : List Char)
  | tag (t : Tag)
  | scalar (text : List Char) (plain : Bool)
  deriving DecidableEq, Repr

structure Token where
  kind : TokenKind
  line : Nat
  deriving DecidableEq, Repr

/-- A place where the key of a mapping may have started; a colon behind it will tell. -/
structure SimpleKey where
  possible : Bool
  required : Bool
  number : Nat
  mark : Mark
  deriving DecidableEq, Repr

structure Stream where
  cursor : Cursor
  queue : List Token
  taken : Nat
  indent : Int
  outerIndents : List Int
  key : SimpleKey
  outerKeys : List SimpleKey
  held : List (Nat × Nat)
  keyAllowed : Bool
  deriving DecidableEq, Repr

namespace Stream

def ofText (cs : List Char) : Stream :=
  ⟨.ofText cs, [], 0, -1, [], ⟨false, false, 0, ⟨0, 0, 0⟩⟩, [], [], true⟩

def inFlow (s : Stream) : Bool := !s.outerKeys.isEmpty

def add (s : Stream) (kind : TokenKind) (line : Nat) : Stream :=
  { s with queue := s.queue ++ [⟨kind, line⟩] }

def insert (s : Stream) (number : Nat) (kind : TokenKind) (line : Nat) : Stream :=
  let n := if number < s.taken then s.queue.length else number - s.taken
  { s with queue := s.queue.take n ++ ⟨kind, line⟩ :: s.queue.drop n }

/-! Keys -/

def release (s : Stream) (number : Nat) : Stream :=
  { s with held := s.held.filter (·.1 != number) }

def dropKey (s : Stream) : Except Flaw Stream :=
  if s.key.possible then
    if s.key.required then s.cursor.fail .keyWithoutValue s.key.mark.line
    else .ok { s.release s.key.number with key.possible := false }
  else .ok s

def noteKey (s : Stream) : Except Flaw Stream :=
  if s.keyAllowed then do
    let required := !s.inFlow && s.indent == (s.cursor.column : Int)
    let number := s.taken + s.queue.length
    let s := (← s.dropKey).release number
    return { s with
      key := ⟨true, required, number, s.cursor.mark⟩
      held := (number, s.outerKeys.length) :: s.held }
  else .ok s

def mayEnd (s : Stream) (k : SimpleKey) : Except Flaw Bool :=
  if k.possible && (k.mark.line < s.cursor.line || k.mark.index + 1024 < s.cursor.mark.index) then
    if k.required then s.cursor.fail .keyWithoutValue k.mark.line else .ok false
  else .ok k.possible

/-! Blocks -/

def openBlock (s : Stream) (column number : Nat) (kind : TokenKind) (line : Nat) : Stream :=
  if s.inFlow || (column : Int) ≤ s.indent then s
  else
    { s.insert number kind line with
      outerIndents := s.indent :: s.outerIndents, indent := (column : Int) }

def closeBlocksFuel (column : Int) (line : Nat) : List Int → Stream → Stream
  | [], s => s
  | outer :: rest, s =>
    if s.indent ≤ column then s
    else closeBlocksFuel column line rest
      { s.add .blockEnd line with indent := outer, outerIndents := rest }

def closeBlocks (s : Stream) (column : Int) (line : Nat) : Stream :=
  if s.inFlow then s else closeBlocksFuel column line s.outerIndents s

/-! Blanks and comments -/

def skipCommentsFuel : Nat → Cursor → Cursor
  | 0, c => c
  | fuel + 1, c =>
    let e := c.toLineEnd
    match Gap.readFuel 0 0 e.rest.length .empty e with
    | .ok (_, next) => if next.head? == some '#' then skipCommentsFuel fuel next else e
    | .error _ => e

def skipComments (c : Cursor) : Cursor := skipCommentsFuel c.rest.length c

def skipComment (start : Cursor) (s : Stream) : Stream :=
  let token := start.rest.take (s.cursor.mark.index - start.mark.index)
  let c := s.cursor.skipWhile isGap
  if (token.reverse.dropWhile isGap).head?.any isBreak then s
  else if c.head? == some '#' then { s with cursor := c.toLineEnd }
  else s

def toTokenFuel : Nat → Stream → Stream
  | 0, s => s
  | fuel + 1, s =>
    let c := s.cursor.skipWhile fun ch => ch == ' ' || (ch == '\t' && (s.inFlow || !s.keyAllowed))
    let c := if c.head? == some '#' then skipComments c else c
    if c.head?.any isBreak then
      toTokenFuel fuel { s with cursor := c.skipBreak, keyAllowed := s.keyAllowed || !s.inFlow }
    else { s with cursor := c }

def toToken (s : Stream) : Stream := toTokenFuel (s.cursor.rest.length + 1) s

/-! Tokens -/

def take (s : Stream) (kind : TokenKind) (n : Nat) : Stream :=
  { s.add kind s.cursor.line with cursor := s.cursor.skip n }

def closeAll (s : Stream) : Except Flaw Stream := do
  let s ← (s.closeBlocks (-1) s.cursor.line).dropKey
  return { s with keyAllowed := false }

def fetchEnd (s : Stream) : Except Flaw Stream := do
  let m := s.cursor.mark
  let m := if m.column == 0 then m else ⟨m.index, m.line + 1, 0⟩
  let s ← { s with cursor := ⟨[], m⟩ }.closeAll
  return s.add .streamEnd s.cursor.line

def fetchDirective (s : Stream) : Except Flaw Stream := do
  let s ← s.closeAll
  let (d, c) ← readDirective s.cursor
  let c ← skipRestOfLine .directiveEnd s.cursor.line c
  return { s.add (.directive d) s.cursor.line with cursor := c }

def fetchDocumentMark (s : Stream) (kind : TokenKind) : Except Flaw Stream := do
  let s ← s.closeAll
  return s.take kind 3

def fetchOpening (s : Stream) (kind : TokenKind) : Except Flaw Stream := do
  let s ← s.noteKey
  let inner := ⟨false, false, s.taken + s.queue.length, s.cursor.mark⟩
  return { s with outerKeys := s.key :: s.outerKeys, key := inner, keyAllowed := true }.take kind 1

def fetchClosing (s : Stream) (kind : TokenKind) : Except Flaw Stream := do
  let s ← s.dropKey
  let s := match s.outerKeys with
    | k :: ks => { s.release s.key.number with key := k, outerKeys := ks }
    | [] => s
  return { s with keyAllowed := false }.take kind 1

def fetchFlowEntry (s : Stream) : Except Flaw Stream := do
  let s ← s.dropKey
  return { s with keyAllowed := true }.take .flowEntry 1

def fetchBlockEntry (s : Stream) : Except Flaw Stream := do
  if !s.inFlow && !s.keyAllowed then s.cursor.fail .entryOutOfPlace s.cursor.line
  let s ← (s.openBlock s.cursor.column (s.taken + s.queue.length) .blockSequenceStart
    s.cursor.line).dropKey
  return { s with keyAllowed := true }.take .blockEntry 1

def fetchKey (s : Stream) : Except Flaw Stream := do
  if !s.inFlow && !s.keyAllowed then s.cursor.fail .keyOutOfPlace s.cursor.line
  let s ← (s.openBlock s.cursor.column (s.taken + s.queue.length) .blockMappingStart
    s.cursor.line).dropKey
  return { s with keyAllowed := !s.inFlow }.take .key 1

def fetchValue (s : Stream) : Except Flaw Stream := do
  let k := s.key
  if ← s.mayEnd k then
    let s := (s.insert k.number .key k.mark.line).openBlock k.mark.column k.number
      .blockMappingStart k.mark.line
    return { s.release k.number with key.possible := false, keyAllowed := false }.take .value 1
  else
    if !s.inFlow && !s.keyAllowed then s.cursor.fail .valueOutOfPlace s.cursor.line
    let s := s.openBlock s.cursor.column (s.taken + s.queue.length) .blockMappingStart s.cursor.line
    return { s with key.possible := false, keyAllowed := !s.inFlow }.take .value 1

def fetchNoted (s : Stream) (read : Cursor → Except Flaw (TokenKind × Cursor)) :
    Except Flaw Stream := do
  let s ← s.noteKey
  let (kind, c) ← read s.cursor
  return { s.add kind s.cursor.line with cursor := c, keyAllowed := false }

def fetchBlock (s : Stream) (literal : Bool) : Except Flaw Stream := do
  let s ← s.dropKey
  let (text, c) ← readBlock literal s.indent s.cursor
  return { s.add (.scalar text false) s.cursor.line with cursor := c, keyAllowed := true }

def fetchPlain (s : Stream) : Except Flaw Stream := do
  let s ← s.noteKey
  let p ← readPlain s.inFlow (s.indent + 1) s.cursor
  return { s.add (.scalar p.text true) s.cursor.line with
    cursor := p.cursor, keyAllowed := p.afterBreak }

def isIndicator (c : Char) : Bool := "-?:,[]\x7b\x7d#&*!|>'\"%@`".toList.contains c

def fetchAt (s : Stream) (c : Char) (cs : List Char) : Except Flaw Stream :=
  match c with
  | '[' => s.fetchOpening .flowSequenceStart
  | '\x7b' => s.fetchOpening .flowMappingStart
  | ']' => s.fetchClosing .flowSequenceEnd
  | '\x7d' => s.fetchClosing .flowMappingEnd
  | ',' => s.fetchFlowEntry
  | '*' => s.fetchNoted fun c => (readAnchor c).map fun (name, e) => (.reference name, e)
  | '&' => s.fetchNoted fun c => (readAnchor c).map fun (name, e) => (.anchor name, e)
  | '!' => s.fetchNoted fun c => (readTag c).map fun (t, e) => (.tag t, e)
  | '\'' => s.fetchNoted fun c => (readQuoted '\'' c).map fun (text, e) => (.scalar text false, e)
  | '"' => s.fetchNoted fun c => (readQuoted '"' c).map fun (text, e) => (.scalar text false, e)
  | c =>
    if c == '-' && endsWord cs then s.fetchBlockEntry
    else if c == '?' && (s.inFlow || endsWord cs) then s.fetchKey
    else if c == ':' && (s.inFlow || endsWord cs) then s.fetchValue
    else if c == '|' && !s.inFlow then s.fetchBlock true
    else if c == '>' && !s.inFlow then s.fetchBlock false
    else if c == '-' || c == '?' || c == ':' || !(isSpace c || isIndicator c) then s.fetchPlain
    else s.cursor.fail .startOfToken s.cursor.line

def fetch (s : Stream) : Except Flaw Stream :=
  let before := s.cursor.line
  let s := s.toToken
  let s := s.closeBlocks s.cursor.column before
  match s.cursor.rest with
  | [] => s.fetchEnd
  | c :: cs =>
    if s.cursor.column == 0 && c == '%' then s.fetchDirective
    else if s.cursor.atDocumentMark then
      s.fetchDocumentMark (if c == '-' then .documentStart else .documentEnd)
    else if c == '-' && endsWord cs then s.fetchAt c cs
    else (s.fetchAt c cs).map (skipComment s.cursor)

def disallow (s : Stream) (level : Nat) : Stream :=
  if level == s.outerKeys.length then { s with key.possible := false }
  else
    let n := s.outerKeys.length - 1 - level
    { s with outerKeys := s.outerKeys.modify n fun k => { k with possible := false } }

def isHeld (s : Stream) : Except Flaw (Bool × Stream) := do
  match s.held.lookup s.taken with
  | none => return (false, s)
  | some level =>
    match (s.key :: s.outerKeys)[s.outerKeys.length - level]? with
    | none => return (false, s)
    | some k => if ← s.mayEnd k then return (true, s) else return (false, s.disallow level)

def fillFuel : Nat → Stream → Except Flaw Stream
  | 0, s => .ok s
  | fuel + 1, s => do
    if s.queue.length < 3 then fillFuel fuel (← s.fetch)
    else
      let (held, s) ← s.isHeld
      if held then fillFuel fuel (← s.fetch) else return s

def fill (s : Stream) : Except Flaw Stream := fillFuel (s.cursor.rest.length + 4) s

end Stream
end Analog.Markup
