import Analog.Decimal.Reader
import Analog.Markup.Cursor

/-!
Texts within a settings text: plain ones, which end where the grammar goes on, quoted ones, and
blocks of indented lines. Each reader gives the text and the place behind it.
-/
namespace Analog.Markup

/-! Plain texts -/

def isFlowMark (c : Char) : Bool :=
  c == ',' || c == '?' || c == '[' || c == ']' || c == '\x7b' || c == '\x7d'

def plainWord (inFlow : Bool) : List Char → List Char
  | [] => []
  | c :: cs =>
    if isSpace c || (c == ':' && endsWord cs) || (inFlow && isFlowMark c) then []
    else c :: plainWord inFlow cs

structure Plain where
  text : List Char
  afterBreak : Bool
  cursor : Cursor

def readPlainFuel (inFlow : Bool) (indent : Int) (start : Nat) :
    Nat → List Char → Gap → Cursor → Except Flaw Plain
  | 0, text, gap, c => .ok ⟨text, gap.hasBreak, c⟩
  | fuel + 1, text, gap, c =>
    if c.atDocumentMark || c.head? == some '#' then .ok ⟨text, gap.hasBreak, c⟩
    else
      let word := plainWord inFlow c.rest
      let text := if word.isEmpty then text else text ++ gap.text ++ word
      let gap := if word.isEmpty then gap else .empty
      let c := c.skip word.length
      if !c.head?.any isSpace then .ok ⟨text, gap.hasBreak, c⟩
      else do
        let (gap, c) ← gap.read indent start c
        if !inFlow && (c.column : Int) < indent then return ⟨text, gap.hasBreak, c⟩
        readPlainFuel inFlow indent start fuel text gap c

def readPlain (inFlow : Bool) (indent : Int) (c : Cursor) : Except Flaw Plain :=
  readPlainFuel inFlow indent c.line (c.rest.length + 1) [] .empty c

/-! Quoted texts -/

def escapes : List (Char × Char) :=
  [('0', '\x00'), ('a', '\x07'), ('b', '\x08'), ('t', '\t'), ('\t', '\t'), ('n', '\n'),
    ('v', '\x0b'),
    ('f', '\x0c'), ('r', '\r'), ('e', '\x1b'), (' ', ' '), ('"', '"'), ('\'', '\''), ('\\', '\\'),
    ('N', '\x85'), ('_', '\xa0'), ('L', '\u2028'), ('P', '\u2029')]

def codeLength? (c : Char) : Option Nat :=
  if c == 'x' then some 2
  else if c == 'u' then some 4
  else if c == 'U' then some 8
  else none

def readCode (n start : Nat) (c : Cursor) : Except Flaw (Char × Cursor) :=
  let digits := c.rest.take n
  if digits.length < n || !digits.all (Decimal.isDigit 16) then c.fail .hexDigit start
  else
    let code := Decimal.digitsValue 16 digits
    if code.isValidChar then .ok (Char.ofNat code, c.skip n) else c.fail .characterCode start

def readEscape (start : Nat) (c : Cursor) : Except Flaw (Char × Cursor) :=
  match c.rest.drop 1 with
  | [] => c.fail .unknownEscape start
  | letter :: _ =>
    match escapes.lookup letter, codeLength? letter with
    | some ch, _ => .ok (ch, c.skip 2)
    | none, some n => readCode n start (c.skip 2)
    | none, none => c.fail .unknownEscape start

def readWordFuel (quote : Char) (start : Nat) :
    Nat → List Char → Cursor → Except Flaw (List Char × Gap × Cursor)
  | 0, word, c => .ok (word, .empty, c)
  | fuel + 1, word, c =>
    match c.rest with
    | [] => .ok (word, .empty, c)
    | ch :: cs =>
      if isSpace ch then .ok (word, .empty, c)
      else if ch == quote then
        if quote == '\'' && cs.head? == some '\'' then
          readWordFuel quote start fuel (word ++ ['\'']) (c.skip 2)
        else .ok (word, .empty, c)
      else if quote == '"' && ch == '\\' then
        if cs.head?.any isBreak then .ok (word, ⟨[], some [], []⟩, (c.skip 1).skipBreak)
        else do
          let (e, c) ← readEscape start c
          readWordFuel quote start fuel (word ++ [e]) c
      else readWordFuel quote start fuel (word ++ [ch]) (c.skip 1)

def readQuotedFuel (quote : Char) (start : Nat) :
    Nat → List Char → Cursor → Except Flaw (List Char × Cursor)
  | 0, _, c => c.fail .endInQuotes start
  | fuel + 1, text, c =>
    if c.atDocumentMark then c.fail .documentInQuotes start
    else if c.rest.isEmpty then c.fail .endInQuotes start
    else do
      let (word, gap, c) ← readWordFuel quote start c.rest.length [] c
      if c.head? == some quote then return (text ++ word, c.skip 1)
      let (gap, c) ← gap.read 0 start c
      readQuotedFuel quote start fuel (text ++ word ++ gap.text) c

def readQuoted (quote : Char) (c : Cursor) : Except Flaw (List Char × Cursor) :=
  readQuotedFuel quote c.line (c.rest.length + 1) [] (c.skip 1)

/-! Blocks -/

inductive Chomping where
  | strip
  | clip
  | keep
  deriving DecidableEq, Repr

def chomping? (c : Char) : Option Chomping :=
  if c == '+' then some .keep
  else if c == '-' then some .strip
  else none

structure BlockHeader where
  chomping : Chomping
  increment : Nat
  deriving DecidableEq, Repr

def readIncrement (start : Nat) (c : Cursor) : Except Flaw (Nat × Cursor) :=
  match c.head? with
  | none => .ok (0, c)
  | some d =>
    if d == '0' then c.fail .zeroIndentation start
    else match Decimal.digitValue? 10 d with
      | some n => .ok (n, c.skip 1)
      | none => .ok (0, c)

def readChomping (c : Cursor) : Option Chomping × Cursor :=
  match c.head?.bind chomping? with
  | some m => (some m, c.skip 1)
  | none => (none, c)

def readHeader (start : Nat) (c : Cursor) : Except Flaw (BlockHeader × Cursor) := do
  match readChomping c with
  | (some m, c) =>
    let (n, c) ← readIncrement start c
    return (⟨m, n⟩, c)
  | (none, c) =>
    let (n, c) ← readIncrement start c
    let (m, c) := if n == 0 then (none, c) else readChomping c
    return (⟨m.getD .clip, n⟩, c)

def skipRestOfLine (cause : Misspelling) (start : Nat) (c : Cursor) : Except Flaw Cursor :=
  let c := c.skipWhile isGap
  let c := if c.head? == some '#' then c.toLineEnd else c
  if endsLine c.rest then .ok c.skipBreak else c.fail cause start

def readEmptyLinesFuel (indent start : Nat) :
    Nat → List Char → Nat → Cursor → Except Flaw (List Char × Nat × Cursor)
  | 0, breaks, widest, c => .ok (breaks, widest, c)
  | fuel + 1, breaks, widest, c =>
    let blanks := (c.rest.takeWhile (· == ' ')).length
    let c := c.skip (if indent == 0 || blanks < indent - c.column then blanks
      else indent - c.column)
    let widest := if widest < c.column then c.column else widest
    if (indent == 0 || c.column < indent) && c.head? == some '\t' then c.fail .tabInBlock start
    else if c.head?.any isBreak then
      readEmptyLinesFuel indent start fuel (breaks ++ c.breakText) widest c.skipBreak
    else .ok (breaks, widest, c)

def readEmptyLines (indent start : Nat) (c : Cursor) : Except Flaw (List Char × Nat × Cursor) :=
  readEmptyLinesFuel indent start (c.rest.length + 1) [] 0 c

structure BlockText where
  text : List Char
  last : List Char
  trailing : List Char
  spaced : Bool

def BlockText.addLine (b : BlockText) (literal spaced : Bool) (line last trailing : List Char) :
    BlockText :=
  let joint :=
    if !literal && !b.spaced && !spaced && b.last == ['\n'] then
      if b.trailing.isEmpty then [' '] else []
    else b.last
  ⟨b.text ++ joint ++ b.trailing ++ line, last, trailing, spaced⟩

def readLinesFuel (literal : Bool) (indent start : Nat) :
    Nat → BlockText → Cursor → Except Flaw (BlockText × Cursor)
  | 0, b, c => .ok (b, c)
  | fuel + 1, b, c =>
    if c.column != indent || c.rest.isEmpty then .ok (b, c)
    else do
      let spaced := c.head?.any isGap
      let line := c.rest.takeWhile fun ch => !isBreak ch
      let e := c.toLineEnd
      let (trailing, _, next) ← readEmptyLines indent start e.skipBreak
      readLinesFuel literal indent start fuel
        (b.addLine literal spaced line e.breakText trailing) next

def readBlock (literal : Bool) (outer : Int) (c : Cursor) : Except Flaw (List Char × Cursor) := do
  let start := c.line
  let (header, c) ← readHeader start (c.skip 1)
  let c ← skipRestOfLine .blockHeader start c
  let base := outer.toNat
  let given := if header.increment == 0 then 0 else base + header.increment
  let (breaks, widest, c) ← readEmptyLines given start c
  let least := (outer + 1).toNat
  let indent :=
    if given != 0 then given
    else if least < widest then widest
    else if least == 0 then 1
    else least
  let (b, c) ← readLinesFuel literal indent start (c.rest.length + 1) ⟨[], [], breaks, false⟩ c
  return match header.chomping with
    | .strip => (b.text, c)
    | .clip => (b.text ++ b.last, c)
    | .keep => (b.text ++ b.last ++ b.trailing, c)

end Analog.Markup
