import Analog.Proofs.Parser.Reading
import Analog.Raw.Printer

/-!
Expressions as trees of their parts, as they stand before any name is looked up. A phrase has its
tokens in postfix order and its source text, with each literal spelled in one of its ways; the
printer finds the text from the tokens, and whatever the reader gives are the tokens of a phrase.
-/
namespace Analog

inductive Phrase where
  | literal (v : Value) (text : String)
  | name (x : String)
  | call (f : String) (args : List Phrase)
  | unary (op : UnaryOp) (x : Phrase)
  | binary (op : BinaryOp) (l r : Phrase)
  | ternary (cond thn els : Phrase)

namespace Phrase

mutual

/-- The tokens of a phrase. -/
def raw : Phrase → Raw
  | .literal v _ => [.literal v]
  | .name x => [.identifier x]
  | .call f args => .marker :: rawAll args ++ [.arguments, .identifier f]
  | .unary op x => x.raw ++ [.unary op]
  | .binary op l r => l.raw ++ r.raw ++ [.binary op]
  | .ternary c t e => c.raw ++ [.ternary t.raw e.raw]

def rawAll : List Phrase → Raw
  | [] => []
  | p :: ps => p.raw ++ rawAll ps

end

def strength : Phrase → Nat
  | .unary _ _ => unaryStrength
  | .binary op _ _ => op.strength
  | .ternary _ _ _ => ternaryStrength
  | _ => atomStrength

def within (p : Phrase) (bound : Nat) (text : String) : String :=
  if p.strength < bound then "(" ++ text ++ ")" else text

mutual

/-- The source text of a phrase. -/
def source : Phrase → String
  | .literal _ text => text
  | .name x => x
  | .call f args => f ++ "(" ++ ", ".intercalate (sources args) ++ ")"
  | .unary op x => op.symbol ++ x.within (unaryStrength + 1) x.source
  | .binary op l r =>
    l.within op.leftBound l.source ++ " " ++ op.symbol ++ " " ++ r.within op.rightBound r.source
  | .ternary c t e =>
    c.within (ternaryStrength + 1) c.source ++ " ? " ++ t.source ++ " : " ++ e.source

def sources : List Phrase → List String
  | [] => []
  | p :: ps => p.source :: sources ps

end

mutual

def Over (literal : Value → String → Prop) (name : String → Prop) : Phrase → Prop
  | .literal v text => literal v text
  | .name x => name x
  | .call f args => name f ∧ OverAll literal name args
  | .unary _ x => x.Over literal name
  | .binary _ l r => l.Over literal name ∧ r.Over literal name
  | .ternary c t e => c.Over literal name ∧ t.Over literal name ∧ e.Over literal name

def OverAll (literal : Value → String → Prop) (name : String → Prop) : List Phrase → Prop
  | [] => True
  | p :: ps => p.Over literal name ∧ OverAll literal name ps

end

/-- Literals are spelled as the printer writes them. -/
def Plain (p : Phrase) : Prop := p.Over (fun v text => text = v.text) fun _ => True

def PlainAll (ps : List Phrase) : Prop := OverAll (fun v text => text = v.text) (fun _ => True) ps

def operand (p : Phrase) : Operand := ⟨p.source, p.strength, false⟩

end Phrase

theorem printTokens?_append (ts us : List Token) (out : Printout) :
    printTokens? (ts ++ us) out = (printTokens? ts out).bind (printTokens? us) := by
  induction ts generalizing out with
  | nil => rw [List.nil_append, printTokens?]; rfl
  | cons t ts ih =>
    rw [List.cons_append, printTokens?, printTokens?, Option.bind_assoc]
    exact Option.bind_congr fun out' _ => ih out'

namespace Printout

def Settled (out : Printout) : Prop := ∀ o ∈ out.operands.head?, o.isList = false

theorem settled_empty : Settled .empty := by
  rintro o ⟨⟩

theorem name_of_settled {out : Printout} (settled : out.Settled) (x : String) :
    out.name x = out.push (.atom x) := by
  obtain ⟨operands, marks⟩ := out
  cases operands with
  | nil => rfl
  | cons o rest =>
    have plain : o.isList = false := settled o rfl
    simp [name, plain]

theorem closeList?_pushed (items : List Operand) (operands : List Operand) (marks : List Nat) :
    closeList? ⟨items.reverse ++ operands, operands.length :: marks⟩ =
      some ⟨⟨", ".intercalate (items.map (·.text)), atomStrength, true⟩ :: operands, marks⟩ := by
  have size : (items.reverse ++ operands).length - operands.length = items.reverse.length := by simp
  have room : ¬(items.reverse ++ operands).length < operands.length := by simp
  simp only [closeList?, if_neg room, size, List.take_left, List.drop_left, List.reverse_reverse]

end Printout

namespace Phrase

open Printout

theorem settled_push (out : Printout) (p : Phrase) : (out.push p.operand).Settled := by
  rintro o ⟨⟩
  rfl

theorem texts_operand (ps : List Phrase) : (ps.map operand).map (·.text) = sources ps := by
  induction ps with
  | nil => rfl
  | cons p ps ih => rw [sources, List.map_cons, List.map_cons, ih]; rfl

mutual

theorem printTokens?_raw (p : Phrase) (plain : p.Plain) {out : Printout} (settled : out.Settled) :
    printTokens? p.raw out = some (out.push p.operand) := by
  cases p with
  | literal v text =>
    rw [show text = v.text from plain]
    rfl
  | name x =>
    rw [raw, printTokens?, Token.print?, name_of_settled settled]
    rfl
  | call f args =>
    have opened : Printout.Settled { out with marks := out.operands.length :: out.marks } := settled
    rw [raw, List.cons_append, printTokens?, Token.print?, Option.bind_some, printTokens?_append,
      printTokens?_rawAll args plain.2 opened, Option.bind_some, printTokens?, Token.print?]
    rw [closeList?_pushed, texts_operand]
    rfl
  | unary op x =>
    rw [raw, printTokens?_append, printTokens?_raw x plain settled]
    rfl
  | binary op l r =>
    rw [raw, List.append_assoc, printTokens?_append, printTokens?_raw l plain.1 settled,
      Option.bind_some, printTokens?_append, printTokens?_raw r plain.2 (settled_push out l)]
    rfl
  | ternary c t e =>
    rw [raw, printTokens?_append, printTokens?_raw c plain.1 settled,
      Option.bind_some, printTokens?, Token.print?, printTokens?_raw t plain.2.1 settled_empty,
      printTokens?_raw e plain.2.2 settled_empty]
    rfl

theorem printTokens?_rawAll (ps : List Phrase) (plain : PlainAll ps) {out : Printout}
    (settled : out.Settled) :
    printTokens? (rawAll ps) out =
      some { out with operands := (ps.map operand).reverse ++ out.operands } := by
  cases ps with
  | nil => rfl
  | cons p ps =>
    rw [rawAll, printTokens?_append, printTokens?_raw p plain.1 settled, Option.bind_some,
      printTokens?_rawAll ps plain.2 (settled_push out p)]
    simp [Printout.push]

end

theorem text?_raw {p : Phrase} (plain : p.Plain) :
    (printTokens? p.raw .empty).bind (·.text?) = some p.source := by
  rw [p.printTokens?_raw plain settled_empty]
  rfl

theorem source_raw {p : Phrase} (plain : p.Plain) : p.raw.source = p.source := by
  rw [Raw.source, text?_raw plain, Option.getD_some]

end Phrase

mutual

/-- The expressions inside of a token, at any depth. -/
def Token.branches : Token → List Raw
  | .ternary thn els => thn :: els :: (Raw.branches thn ++ Raw.branches els)
  | _ => []

/-- The expressions inside of a run of tokens, at any depth. -/
def Raw.branches : List Token → List Raw
  | [] => []
  | t :: ts => t.branches ++ Raw.branches ts

end

theorem Raw.branches_append (r s : Raw) :
    Raw.branches (r ++ s) = Raw.branches r ++ Raw.branches s := by
  induction r with
  | nil => rfl
  | cons t r ih => rw [List.cons_append, branches, branches, ih, List.append_assoc]

namespace Phrase

mutual

theorem phrase_of_branch (p : Phrase) (plain : p.Plain) :
    ∀ b ∈ Raw.branches p.raw, ∃ q : Phrase, b = q.raw ∧ q.Plain := by
  cases p with
  | literal | name => exact nofun
  | call f args =>
    rw [raw, List.cons_append, Raw.branches, Raw.branches_append]
    simpa [Token.branches, Raw.branches] using phrase_of_branchAll args plain.2
  | unary op x =>
    rw [raw, Raw.branches_append]
    simpa [Token.branches, Raw.branches] using phrase_of_branch x plain
  | binary op l r =>
    rw [raw, Raw.branches_append, Raw.branches_append]
    intro b mem
    rcases (by simpa [Token.branches, Raw.branches] using mem) with left | right
    · exact phrase_of_branch l plain.1 b left
    · exact phrase_of_branch r plain.2 b right
  | ternary c t e =>
    rw [raw, Raw.branches_append]
    intro b mem
    rcases (by simpa [Token.branches, Raw.branches] using mem) with
      inner | rfl | rfl | inner | inner
    · exact phrase_of_branch c plain.1 b inner
    · exact ⟨t, rfl, plain.2.1⟩
    · exact ⟨e, rfl, plain.2.2⟩
    · exact phrase_of_branch t plain.2.1 b inner
    · exact phrase_of_branch e plain.2.2 b inner

theorem phrase_of_branchAll (ps : List Phrase) (plain : PlainAll ps) :
    ∀ b ∈ Raw.branches (rawAll ps), ∃ q : Phrase, b = q.raw ∧ q.Plain := by
  cases ps with
  | nil => exact nofun
  | cons p ps =>
    rw [rawAll, Raw.branches_append]
    intro b mem
    rcases List.mem_append.mp mem with first | later
    · exact phrase_of_branch p plain.1 b first
    · exact phrase_of_branchAll ps plain.2 b later

end

end Phrase

namespace Raw

def Part.Phrased (literal : Value → String → Prop) (name : String → Prop) : Part → Raw → Prop
  | .operators _ left, r => ∀ p : Phrase, left = p.raw → p.Over literal name →
    ∃ q : Phrase, r = q.raw ∧ q.Over literal name
  | .list, r => ∃ ps, r = Phrase.rawAll ps ∧ Phrase.OverAll literal name ps
  | .arguments, r => ∃ ps, r = Phrase.rawAll ps ∧ Phrase.OverAll literal name ps
  | _, r => ∃ p : Phrase, r = p.raw ∧ p.Over literal name

/-- What is read are phrases over the literals and names among the words, spelled as they are
printed. -/
theorem Reads.phrased {word : Lexeme → Prop} {part : Part} {ws rest : Words} {r : Raw}
    (h : Reads part ws r rest) (known : ∀ w ∈ ws, word w) : (∀ w ∈ rest, word w) ∧ part.Phrased
      (fun v text => text = v.text ∧ ∃ w, word w ∧ (w.kind = .number ∨ w.kind = .string) ∧
      Value.read w.text = .ok v)
      (fun x => ∃ w, word w ∧ w.kind = .identifier ∧ w.text = x) r := by
  induction h with
  | choice first question second colon third ihf ihs iht =>
    obtain ⟨known, c, rfl, madeC⟩ := ihf known
    obtain ⟨known, t, rfl, madeT⟩ := ihs fun w mem => known w (.tail _ mem)
    obtain ⟨known, e, rfl, madeE⟩ := iht fun w mem => known w (.tail _ mem)
    exact ⟨known, .ternary c t e, rfl, madeC, madeT, madeE⟩
  | value only closed ih => exact ih known
  | binary first more ihf ihm =>
    obtain ⟨known, p, rfl, made⟩ := ihf known
    obtain ⟨known, rest⟩ := ihm known
    exact ⟨known, rest p rfl made⟩
  | stop weak => exact ⟨known, fun p same made => ⟨p, same, made⟩⟩
  | @operator _ _ _ _ _ _ _ _ op known' strong operand more iho ihm =>
    obtain ⟨known, q, rfl, madeQ⟩ := iho fun w mem => known w (.tail _ mem)
    obtain ⟨known, rest⟩ := ihm known
    refine ⟨known, fun p same made => ?_⟩
    exact rest (.binary op p q) (by rw [same, Phrase.raw]) ⟨made, madeQ⟩
  | plus kind operand ih => exact ih fun w mem => known w (.tail _ mem)
  | @sign op _ _ _ _ kind operand ih =>
    obtain ⟨known, p, rfl, made⟩ := ih fun w mem => known w (.tail _ mem)
    exact ⟨known, .unary op p, rfl, made⟩
  | unsigned plain operand ih => exact ih known
  | brackets opened inner closed ih =>
    obtain ⟨known, p⟩ := ih fun w mem => known w (.tail _ mem)
    exact ⟨fun w mem => known w (.tail _ mem), p⟩
  | @literal w _ v kind value =>
    exact ⟨fun w mem => known w (.tail _ mem), .literal v v.text, rfl, rfl, w,
      known w (.head _), kind, value⟩
  | @name w _ kind apart =>
    exact ⟨fun w mem => known w (.tail _ mem), .name w.text, rfl, w, known w (.head _), kind, rfl⟩
  | @call w _ _ _ _ _ kind opened inner closed ih =>
    obtain ⟨known', ps, rfl, made⟩ := ih fun w mem => known w (.tail _ (.tail _ mem))
    exact ⟨fun w mem => known' w (.tail _ mem), .call w.text ps, rfl,
      ⟨w, known w (.head _), kind, rfl⟩, made⟩
  | none closed => exact ⟨known, [], rfl, trivial⟩
  | some filled items ih => exact ih known
  | last only closed ih =>
    obtain ⟨known, p, rfl, made⟩ := ih known
    exact ⟨known, [p], (List.append_nil _).symm, made, trivial⟩
  | more first comma others ihf iho =>
    obtain ⟨known, p, rfl, made⟩ := ihf known
    obtain ⟨known, ps, rfl, madeAll⟩ := iho fun w mem => known w (.tail _ mem)
    exact ⟨known, p :: ps, rfl, made, madeAll⟩

end Raw
end Analog
