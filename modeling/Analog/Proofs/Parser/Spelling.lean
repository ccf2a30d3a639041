import Analog.Proofs.Lexer.Scanning

/-!
The lexer finds the words of a phrase in its source text, provided that its literals and names are
words themselves.
-/
namespace Analog

namespace Lexeme

variable {cs : List Char} {ws : List (Kind × String)} {kind : Kind} {c : Char}

open Lexer

theorem lexes_cut {rest : List Char} (filled : cs ≠ [])
    (found : ∃ scan, firstMatch? rules (cs ++ rest) = some (⟨scan, some kind⟩, cs.length))
    (more : Lexes rest ws) : Lexes (cs ++ rest) ((kind, String.ofList cs) :: ws) := by
  obtain ⟨scan, found⟩ := found
  have rest : Lexes ((cs ++ rest).drop cs.length) ws := by rwa [List.drop_left]
  have cut := Lexes.cut (by simp [filled]) found rest
  rwa [List.take_left] at cut

theorem lexes_word {rest : List Char} (word : IsWord kind cs) (apart : Apart rest)
    (more : Lexes rest ws) : Lexes (cs ++ rest) ((kind, String.ofList cs) :: ws) := by
  have filled : cs ≠ [] := by
    rintro rfl
    obtain ⟨c, ⟨⟩, _⟩ := word.starts
  exact lexes_cut filled (word.cut rest apart) more

theorem lexes_sign (lone : (c, kind) ∈ loneSigns) (more : Lexes cs ws) :
    Lexes (c :: cs) ((kind, String.ofList [c]) :: ws) :=
  lexes_cut (List.cons_ne_nil c []) (cut_sign lone cs) more

def Opening (cs : List Char) : Prop := ∃ c ∈ cs.head?, isGap c = false ∧ c ≠ '='

theorem opening_cons (cs : List Char) (gap : isGap c = false) (other : c ≠ '=') :
    Opening (c :: cs) := ⟨c, rfl, gap, other⟩

theorem Opening.append (h : Opening cs) (rest : List Char) : Opening (cs ++ rest) := by
  obtain ⟨c, head, plain⟩ := h
  cases cs with
  | nil => cases head
  | cons d cs => exact ⟨c, head, plain⟩

theorem IsWord.opening (word : IsWord kind cs) : Opening cs := by
  obtain ⟨c, head, plain⟩ := word.starts
  refine ⟨c, head, ?_, ?_⟩
  · by_contra gap
    simp_all [signChars, isGap]
  · rintro rfl
    exact plain (by decide)

theorem Opening.gap (h : Opening cs) : ∀ c ∈ cs.head?, isGap c = false := by
  obtain ⟨c, head, plain, -⟩ := h
  intro d same
  cases head.symm.trans same
  exact plain

theorem lexes_blank (apart : ∀ c ∈ cs.head?, isGap c = false) (more : Lexes cs ws) :
    Lexes (' ' :: cs) ws := by
  obtain ⟨scan, found⟩ := cut_blank apart
  exact Lexes.cut (List.cons_ne_nil _ _) found more

theorem lexes_spaced (lone : (c, kind) ∈ loneSigns) (opening : Opening cs) (more : Lexes cs ws) :
    Lexes (' ' :: c :: ' ' :: cs) ((kind, String.ofList [c]) :: ws) := by
  refine lexes_blank ?_ (lexes_sign lone (lexes_blank opening.gap more))
  rintro d ⟨⟩
  fin_cases lone <;> rfl

theorem lexes_binary (op : BinaryOp) (opening : Opening cs) (more : Lexes cs ws) :
    Lexes (' ' :: (op.chars ++ ' ' :: cs)) ((op.kind, op.symbol) :: ws) := by
  have filled : op.chars ≠ [] := by cases op <;> simp [BinaryOp.chars]
  have apart : ∀ c ∈ (op.chars ++ ' ' :: cs).head?, isGap c = false := by
    cases op <;> rintro c ⟨⟩ <;> rfl
  rw [← String.ofList_toList (s := op.symbol), op.toList_symbol]
  exact lexes_blank apart (lexes_cut filled (cut_binary op cs) (lexes_blank opening.gap more))

theorem lexes_unary (op : UnaryOp) (opening : Opening cs) (more : Lexes cs ws) :
    Lexes (op.symbol.toList ++ cs) ((op.kind, op.symbol) :: ws) := by
  cases op with
  | neg => exact lexes_sign (by decide) more
  | not =>
    obtain ⟨c, head, -, other⟩ := opening
    refine lexes_cut (List.cons_ne_nil '!' []) (cut_bang ?_) more
    intro equals
    cases head.symm.trans equals
    exact other rfl

end Lexeme

structure Value.Spelled (v : Value) (text : String) : Prop where
  word : Lexeme.IsWord v.kind text.toList
  read : Value.read text = .ok v

namespace Phrase

open Lexeme

mutual

theorem Over.imp {literal literal' : Value → String → Prop} {name name' : String → Prop}
    (literals : ∀ v text, literal v text → literal' v text)
    (names : ∀ x, name x → name' x) (p : Phrase)
    (h : p.Over literal name) : p.Over literal' name' := by
  cases p with
  | literal v text => exact literals v text h
  | name x => exact names x h
  | call f args => exact ⟨names f h.1, OverAll.imp literals names args h.2⟩
  | unary op x => exact Over.imp literals names x h
  | binary op l r => exact ⟨Over.imp literals names l h.1, Over.imp literals names r h.2⟩
  | ternary c t e =>
    exact ⟨Over.imp literals names c h.1, Over.imp literals names t h.2.1,
      Over.imp literals names e h.2.2⟩

theorem OverAll.imp {literal literal' : Value → String → Prop} {name name' : String → Prop}
    (literals : ∀ v text, literal v text → literal' v text) (names : ∀ x, name x → name' x)
    (ps : List Phrase) (h : OverAll literal name ps) : OverAll literal' name' ps := by
  cases ps with
  | nil => trivial
  | cons p ps => exact ⟨Over.imp literals names p h.1, OverAll.imp literals names ps h.2⟩

end

/-- The literals and names of a phrase are words, and its literals are read as what they are. -/
def Spelled (p : Phrase) : Prop := p.Over Value.Spelled fun x => IsWord .identifier x.toList

def SpelledAll (ps : List Phrase) : Prop :=
  OverAll Value.Spelled (fun x => IsWord .identifier x.toList) ps

theorem opening_within {p : Phrase} (bound : Nat) (opening : Opening p.source.toList) :
    Opening (p.within bound p.source).toList := by
  rw [within]
  split
  · rw [String.toList_append, String.toList_append]
    exact opening_cons _ rfl (by decide)
  · exact opening

theorem opening_source (p : Phrase) (spelled : p.Spelled) : Opening p.source.toList := by
  cases p with
  | literal v text => exact spelled.word.opening
  | name x => exact spelled.opening
  | call f args =>
    rw [source, String.toList_append, String.toList_append, String.toList_append]
    exact ((spelled.1.opening.append _).append _).append _
  | unary op x =>
    rw [source, String.toList_append]
    cases op <;> exact opening_cons _ rfl (by decide)
  | binary op l r =>
    simp only [source, String.toList_append, List.append_assoc]
    exact (opening_within _ (opening_source l spelled.1)).append _
  | ternary c t e =>
    simp only [source, String.toList_append, List.append_assoc]
    exact (opening_within _ (opening_source c spelled.1)).append _

theorem opening_sources (p : Phrase) (ps : List Phrase) (spelled : p.Spelled) (rest : List Char) :
    Opening ((", ".intercalate (sources (p :: ps))).toList ++ rest) := by
  have opening := opening_source p spelled
  cases ps with
  | nil => simpa [sources] using opening.append rest
  | cons q ps =>
    simp only [sources, String.intercalate_cons_cons, String.toList_append, List.append_assoc]
    exact opening.append _

def Found (p : Phrase) : Prop :=
  ∀ {rest ws}, Apart rest → Lexes rest ws → Lexes (p.source.toList ++ rest) (p.words ++ ws)

theorem lexes_within {p : Phrase} (found : p.Found) (bound : Nat) {rest : List Char}
    {ws : List (Kind × String)} (apart : Apart rest) (more : Lexes rest ws) :
    Lexes ((p.within bound p.source).toList ++ rest) (p.bracketed bound p.words ++ ws) := by
  rw [within, bracketed]
  split
  · have closed : Lexes (')' :: rest) ((.rightParen, ")") :: ws) := lexes_sign (by decide) more
    have inner := found (apart_cons (by decide) rest) closed
    have opened : Lexes ('(' :: _) ((.leftParen, "(") :: _) := lexes_sign (by decide) inner
    simpa [String.toList_append] using opened
  · exact found apart more

mutual

theorem found (p : Phrase) (spelled : p.Spelled) : p.Found := by
  intro rest ws apart more
  cases p with
  | literal v text =>
    have word := lexes_word spelled.word apart more
    rwa [String.ofList_toList] at word
  | name x =>
    have word := lexes_word spelled apart more
    rwa [String.ofList_toList] at word
  | call f args =>
    have closed : Lexes (')' :: rest) ((.rightParen, ")") :: ws) := lexes_sign (by decide) more
    have inner := foundAll args spelled.2 (apart_cons (by decide) rest) closed
    have opened : Lexes ('(' :: _) ((.leftParen, "(") :: _) := lexes_sign (by decide) inner
    have word := lexes_word spelled.1 (apart_cons (by decide) _) opened
    rw [String.ofList_toList] at word
    simpa [source, words, String.toList_append] using word
  | unary op x =>
    have opening := opening_within (unaryStrength + 1) (opening_source x spelled)
    have operand := lexes_within (found x spelled) (unaryStrength + 1) apart more
    have sign := lexes_unary op (opening.append rest) operand
    simpa [source, words, String.toList_append] using sign
  | binary op l r =>
    have opening := opening_within op.rightBound (opening_source r spelled.2)
    have right := lexes_within (found r spelled.2) op.rightBound apart more
    have sign := lexes_binary op (opening.append rest) right
    have left := lexes_within (found l spelled.1) op.leftBound (apart_cons (by decide) _) sign
    simpa [source, words, String.toList_append, op.toList_symbol] using left
  | ternary c t e =>
    have third := found e spelled.2.2 apart more
    have colon : Lexes (' ' :: ':' :: ' ' :: _) ((.colon, ":") :: _) :=
      lexes_spaced (by decide) ((opening_source e spelled.2.2).append rest) third
    have second := found t spelled.2.1 (apart_cons (by decide) _) colon
    have question : Lexes (' ' :: '?' :: ' ' :: _) ((.question, "?") :: _) :=
      lexes_spaced (by decide) ((opening_source t spelled.2.1).append _) second
    have first := lexes_within (found c spelled.1) (ternaryStrength + 1) (apart_cons (by decide) _)
      question
    simpa [source, words, String.toList_append] using first

theorem foundAll (ps : List Phrase) (spelled : SpelledAll ps) {rest : List Char}
    {ws : List (Kind × String)} (apart : Apart rest) (more : Lexes rest ws) :
    Lexes ((", ".intercalate (sources ps)).toList ++ rest) (wordsAll ps ++ ws) := by
  cases ps with
  | nil => exact more
  | cons p ps =>
    cases ps with
    | nil =>
      rw [sources, sources, String.intercalate_singleton, wordsAll]
      exact found p spelled.1 apart more
    | cons q ps =>
      have others := foundAll (q :: ps) spelled.2 apart more
      have comma : Lexes (',' :: ' ' :: _) ((.comma, ",") :: _) :=
        lexes_sign (by decide) (lexes_blank (opening_sources q ps spelled.2.1 rest).gap others)
      have first := found p spelled.1 (apart_cons (by decide) _) comma
      simpa [sources, wordsAll, String.intercalate_cons_cons, String.toList_append] using first

end

theorem ofText_source (p : Phrase) (spelled : p.Spelled) (file : String) :
    Raw.ofText (.ofString file p.source) = .ok p.raw := by
  have words : Lexes (SourceText.ofString file p.source).contents (p.words ++ [(.finish, "")]) := by
    have all := p.found spelled apart_nil .finish
    rwa [List.append_nil] at all
  obtain ⟨ws, lexed, same⟩ := ofText_of_lexes words
  have read := Over.imp (fun v text (h : v.Spelled text) => h.read) (fun x h => h) p spelled
  exact Raw.bind_eq_ok.mpr ⟨ws, lexed, ofWords_words read same⟩

end Phrase
end Analog
