import Analog.Decimal.Reader
import Analog.Markup.Cursor
import Analog.Text.Bytes

/-!
Names that are given to elements, and types that are named: anchors, tags, and the directives that a
document starts with. A tag has a handle, which directives give a meaning, and a suffix.
-/
namespace Analog.Markup

def readName (c : Cursor) : List Char × Cursor :=
  (c.rest.takeWhile isWordChar, c.skipWhile isWordChar)

def readAnchor (c : Cursor) : Except Flaw (List Char × Cursor) :=
  let (name, e) := readName (c.skip 1)
  let ends := endsWord e.rest || e.head?.any fun ch => "?:,]\x7d%@`".toList.contains ch
  if name.isEmpty || !ends then e.fail .anchorName c.line else .ok (name, e)

/-! Tags -/

def octetWidth? (b : Nat) : Option Nat :=
  if b < 0x80 then some 1
  else if b < 0xC0 then none
  else if b < 0xE0 then some 2
  else if b < 0xF0 then some 3
  else if b < 0xF8 then some 4
  else none

def readOctet (start : Nat) (c : Cursor) : Except Flaw (Nat × Cursor) :=
  match c.rest with
  | '%' :: a :: b :: _ =>
    if Decimal.isDigit 16 a && Decimal.isDigit 16 b then
      .ok (Decimal.digitsValue 16 [a, b], c.skip 3)
    else c.fail .tagEscape start
  | _ => c.fail .tagEscape start

def readOctets (start : Nat) : Nat → List UInt8 → Cursor → Except Flaw (List UInt8 × Cursor)
  | 0, bytes, c => .ok (bytes, c)
  | n + 1, bytes, c => do
    let (b, e) ← readOctet start c
    if b < 0x80 || 0xC0 ≤ b then c.fail .trailingOctet start
    else readOctets start n (bytes ++ [b.toUInt8]) e

def readEscapedChar (start : Nat) (c : Cursor) : Except Flaw (List Char × Cursor) := do
  let (b, e) ← readOctet start c
  match octetWidth? b with
  | none => c.fail .leadingOctet start
  | some n =>
    let (bytes, e) ← readOctets start (n - 1) [b.toUInt8] e
    return (Text.decode bytes, e)

def isTagChar (c : Char) : Bool := isWordChar c || ";/?:@&=+$,.!~*'()[]%".toList.contains c

def readTagTextFuel (start : Nat) : Nat → List Char → Cursor → Except Flaw (List Char × Cursor)
  | 0, text, c => .ok (text, c)
  | fuel + 1, text, c =>
    match c.rest with
    | [] => .ok (text, c)
    | ch :: _ =>
      if ch == '%' then do
        let (cs, c) ← readEscapedChar start c
        readTagTextFuel start fuel (text ++ cs) c
      else if isTagChar ch then readTagTextFuel start fuel (text ++ [ch]) (c.skip 1)
      else .ok (text, c)

def readTagText (start : Nat) (head : List Char) (c : Cursor) :
    Except Flaw (List Char × Cursor) := do
  let (text, e) ← readTagTextFuel start c.rest.length [] c
  if head.isEmpty && e.mark.index == c.mark.index then e.fail .tagName start
  else return (head.drop 1 ++ text, e)

def readHandle (start : Nat) (c : Cursor) : Except Flaw (List Char × Cursor) :=
  if c.head? != some '!' then c.fail .tagMark start
  else
    let (name, e) := readName (c.skip 1)
    if e.head? == some '!' then .ok ('!' :: name ++ ['!'], e.skip 1) else .ok ('!' :: name, e)

def isHandle (handle : List Char) : Bool := 1 < handle.length && handle.getLast? == some '!'

structure Tag where
  handle : List Char
  suffix : List Char
  deriving DecidableEq, Repr

def readTag (c : Cursor) : Except Flaw (Tag × Cursor) := do
  let start := c.line
  let (tag, e) ← (do
    if c.rest.drop 1 |>.head? |> (· == some '<') then
      let (text, e) ← readTagText start [] (c.skip 2)
      if e.head? == some '>' then return (⟨[], text⟩, e.skip 1) else e.fail .tagBracket start
    else
      let (handle, e) ← readHandle start c
      if isHandle handle then
        let (text, e) ← readTagText start [] e
        return (⟨handle, text⟩, e)
      else
        let (text, e) ← readTagText start handle e
        return (if text.isEmpty then ⟨[], handle⟩ else ⟨['!'], text⟩, e) :
          Except Flaw (Tag × Cursor))
  if endsWord e.rest then return (tag, e) else e.fail .tagEnd start

/-! Directives -/

inductive Directive where
  | version (major minor : Nat)
  | tag (handle stem : List Char)
  deriving DecidableEq, Repr

def readVersionNumber (start : Nat) (c : Cursor) : Except Flaw (Nat × Cursor) :=
  let digits := c.rest.takeWhile (Decimal.isDigit 10)
  if digits.isEmpty then c.fail .versionNumber start
  else if 2 < digits.length then c.fail .longVersion start
  else .ok (Decimal.digitsValue 10 digits, c.skip digits.length)

def readVersion (start : Nat) (c : Cursor) : Except Flaw (Directive × Cursor) := do
  let (major, c) ← readVersionNumber start (c.skipWhile isGap)
  if c.head? != some '.' then c.fail .versionSeparator start
  let (minor, c) ← readVersionNumber start (c.skip 1)
  return (.version major minor, c)

def readTagDirective (start : Nat) (c : Cursor) : Except Flaw (Directive × Cursor) := do
  let (handle, c) ← readHandle start (c.skipWhile isGap)
  if handle != ['!'] && !isHandle handle then c.fail .tagMark start
  if !c.head?.any isGap then c.fail .tagSpace start
  let (stem, c) ← readTagText start [] (c.skipWhile isGap)
  if endsWord c.rest then return (.tag handle stem, c) else c.fail .tagEnd start

def readDirective (c : Cursor) : Except Flaw (Directive × Cursor) := do
  let start := c.line
  let (name, c) := readName (c.skip 1)
  if name.isEmpty then c.fail .directiveName start
  if !endsWord c.rest then c.fail .directiveLetter start
  match String.ofList name with
  | "YAML" => readVersion start c
  | "TAG" => readTagDirective start c
  | _ => c.fail .unknownDirective start

end Analog.Markup
