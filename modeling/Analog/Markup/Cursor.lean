import Analog.Markup.Flaw

/-!
A place in a text: what is still to be read, and how many characters, lines and columns lie before
it.
-/
namespace Analog.Markup

structure Mark where
  index : Nat
  line : Nat
  column : Nat
  deriving DecidableEq, Repr

structure Cursor where
  rest : List Char
  mark : Mark
  deriving DecidableEq, Repr

def isGap (c : Char) : Bool := c == ' ' || c == '\t'

def isBreak (c : Char) : Bool :=
  c == '\n' || c == '\r' || c == '\x85' || c == '\u2028' || c == '\u2029'

def isSpace (c : Char) : Bool := isGap c || isBreak c

def isWordChar (c : Char) : Bool := c.isAlphanum || c == '_' || c == '-'

def endsWord (cs : List Char) : Bool := cs.head?.all isSpace

def endsLine (cs : List Char) : Bool := cs.head?.all isBreak

namespace Cursor

def ofText (cs : List Char) : Cursor := ⟨cs, ⟨0, 0, 0⟩⟩

def line (c : Cursor) : Nat := c.mark.line

def column (c : Cursor) : Nat := c.mark.column

def head? (c : Cursor) : Option Char := c.rest.head?

def skip (c : Cursor) (n : Nat) : Cursor :=
  ⟨c.rest.drop n, ⟨c.mark.index + n, c.mark.line, c.mark.column + n⟩⟩

def skipWhile (c : Cursor) (p : Char → Bool) : Cursor := c.skip (c.rest.takeWhile p).length

def toLineEnd (c : Cursor) : Cursor := c.skipWhile fun ch => !isBreak ch

def skipBreak (c : Cursor) : Cursor :=
  match c.rest with
  | '\r' :: '\n' :: cs => ⟨cs, ⟨c.mark.index + 2, c.mark.line + 1, 0⟩⟩
  | ch :: cs => if isBreak ch then ⟨cs, ⟨c.mark.index + 1, c.mark.line + 1, 0⟩⟩ else c
  | [] => c

def breakText (c : Cursor) : List Char :=
  match c.rest with
  | ch :: _ =>
    if ch == '\u2028' || ch == '\u2029' then [ch]
    else if isBreak ch then ['\n']
    else []
  | [] => []

def atDocumentMark (c : Cursor) : Bool :=
  c.column == 0 && match c.rest with
    | '-' :: '-' :: '-' :: cs => endsWord cs
    | '.' :: '.' :: '.' :: cs => endsWord cs
    | _ => false

def flaw (c : Cursor) (cause : Misspelling) (start : Nat) : Flaw := .letters cause start c.line

def fail {α : Type} (c : Cursor) (cause : Misspelling) (start : Nat) : Except Flaw α :=
  .error (c.flaw cause start)

end Cursor

/-! Blanks and line breaks between the words of a text -/

structure Gap where
  blanks : List Char
  first : Option (List Char)
  more : List Char
  deriving DecidableEq, Repr

namespace Gap

def empty : Gap := ⟨[], none, []⟩

def text (g : Gap) : List Char :=
  match g.first with
  | none => g.blanks
  | some ['\n'] => if g.more.isEmpty then [' '] else g.more
  | some b => b ++ g.more

def hasBreak (g : Gap) : Bool := g.first.isSome

def readFuel (indent : Int) (start : Nat) : Nat → Gap → Cursor → Except Flaw (Gap × Cursor)
  | 0, g, c => .ok (g, c)
  | fuel + 1, g, c =>
    match c.head? with
    | none => .ok (g, c)
    | some ch =>
      if isGap ch then
        if g.hasBreak && (c.column : Int) < indent && ch == '\t' then c.fail .tabInPlain start
        else
          let g := if g.hasBreak then g else { g with blanks := g.blanks ++ [ch] }
          readFuel indent start fuel g (c.skip 1)
      else if isBreak ch then
        let g := if g.hasBreak then { g with more := g.more ++ c.breakText }
          else ⟨[], some c.breakText, []⟩
        readFuel indent start fuel g c.skipBreak
      else .ok (g, c)

def read (indent : Int) (start : Nat) (g : Gap) (c : Cursor) : Except Flaw (Gap × Cursor) :=
  readFuel indent start c.rest.length g c

end Gap
end Analog.Markup
