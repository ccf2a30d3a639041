import Analog.Proofs.Parser.Phrase

/-!
The words of a phrase, with brackets where a part binds less tightly than its place asks for. Read
again, they give the tokens of the phrase, whatever follows them that is not part of an expression.
-/
namespace Analog

def Lexeme.word (w : Lexeme) : Kind × String := (w.kind, w.text)

def Value.kind : Value → Kind
  | .str _ => .string
  | _ => .number

def BinaryOp.kind : BinaryOp → Kind
  | .add => .plus
  | .sub => .minus
  | .mul => .times
  | .div => .divide
  | .mod => .modulo
  | .pow => .power
  | .eq => .equal
  | .ne => .notEqual
  | .lt => .less
  | .le => .lessEqual
  | .gt => .greater
  | .ge => .greaterEqual
  | .and => .both
  | .or => .either

namespace BinaryOp

theorem binary?_kind (op : BinaryOp) : op.kind.binary? = some op := by cases op <;> rfl

theorem strength_pos (op : BinaryOp) : 1 ≤ op.strength := by cases op <;> decide

theorem strength_lt (op : BinaryOp) : op.strength < unaryStrength := by cases op <;> decide

theorem strength_le_rightBound (op : BinaryOp) : op.strength ≤ op.rightBound :=
    by cases op <;> decide

theorem rightBound_le (op : BinaryOp) : op.rightBound ≤ atomStrength := by cases op <;> decide

theorem strength_le_leftBound (op : BinaryOp) : op.strength ≤ op.leftBound := by cases op <;> decide

theorem strength_lt_rightBound {op inner : BinaryOp} (free : op.leftBound ≤ inner.strength) :
    op.strength < inner.rightBound := by
  revert free
  cases op <;> cases inner <;> decide

end BinaryOp

namespace Phrase

def bracketed (p : Phrase) (bound : Nat) (words : List (Kind × String)) : List (Kind × String) :=
  if p.strength < bound then (.leftParen, "(") :: words ++ [(.rightParen, ")")] else words

mutual

def words : Phrase → List (Kind × String)
  | .literal v text => [(v.kind, text)]
  | .name x => [(.identifier, x)]
  | .call f args => (.identifier, f) :: (.leftParen, "(") :: wordsAll args ++ [(.rightParen, ")")]
  | .unary op x => (op.kind, op.symbol) :: x.bracketed (unaryStrength + 1) x.words
  | .binary op l r =>
    l.bracketed op.leftBound l.words ++ (op.kind, op.symbol) :: r.bracketed op.rightBound r.words
  | .ternary c t e =>
    c.bracketed (ternaryStrength + 1) c.words ++ (.question, "?") :: t.words ++
      (.colon, ":") :: e.words

def wordsAll : List Phrase → List (Kind × String)
  | [] => []
  | [p] => p.words
  | p :: q :: ps => p.words ++ (.comma, ",") :: wordsAll (q :: ps)

end

/-- The least strength of an operator that would take the end of the phrase as its own operand. -/
def closing : Phrase → Nat
  | .binary op _ _ => op.rightBound
  | _ => atomStrength

end Phrase

namespace Raw

variable {ws rest : Words} {p : Phrase} {ps : List Phrase}

/-- No operator of strength `bound` or more follows, and no bracket. -/
structure Stops (bound : Nat) (ws : Words) : Prop where
  apart : Words.follows ws .leftParen = false
  weak : ∀ op, (Words.next ws).kind.binary? = some op → op.strength < bound

theorem Stops.mono {bound bound' : Nat} (h : Stops bound ws) (le : bound ≤ bound') :
    Stops bound' ws :=
  ⟨h.apart, fun op known => (h.weak op known).trans_le le⟩

structure Ends (ws : Words) : Prop where
  stops : Stops 0 ws
  closed : Words.follows ws .question = false

/-- The words of a phrase give its tokens in every place where they may stand. -/
structure Legible (p : Phrase) : Prop where
  unary : ∀ {ws rest : Words}, ws.map Lexeme.word = p.words → unaryStrength ≤ p.strength →
    Words.follows rest .leftParen = false → Reads .unary (ws ++ rest) p.raw rest
  binary : ∀ {ws rest rest' : Words} {bound : Nat} {out : Raw}, ws.map Lexeme.word = p.words →
    1 ≤ bound → bound ≤ p.strength → Stops p.closing rest →
    Reads (.operators bound p.raw) rest out rest' → Reads (.binary bound) (ws ++ rest) out rest'
  expression : ∀ {ws rest : Words}, ws.map Lexeme.word = p.words → Ends rest →
    Reads .expression (ws ++ rest) p.raw rest

theorem map_word_cons {kind : Kind} {text : String} {more : List (Kind × String)}
    (h : ws.map Lexeme.word = (kind, text) :: more) :
    ∃ w ws', ws = w :: ws' ∧ w.kind = kind ∧ w.text = text ∧ ws'.map Lexeme.word = more := by
  obtain ⟨w, ws', rfl, head, tail⟩ := List.map_eq_cons_iff.mp h
  exact ⟨w, ws', rfl, congrArg Prod.fst head, congrArg Prod.snd head, tail⟩

theorem ends_of_kind {w : Lexeme} (kind : w.kind ∈ [Kind.rightParen, .comma, .colon, .finish]) :
    Ends (w :: ws) := by
  simp only [List.mem_cons, List.not_mem_nil, or_false] at kind
  refine ⟨⟨?_, ?_⟩, ?_⟩
  · rcases kind with h | h | h | h <;> simp [Words.follows, Words.next, h]
  · rcases kind with h | h | h | h <;> simp [Words.next, h, Kind.binary?]
  · rcases kind with h | h | h | h <;> simp [Words.follows, Words.next, h]

theorem reads_brackets (legible : Legible p)
    (spelled : ws.map Lexeme.word = (.leftParen, "(") :: p.words ++ [(.rightParen, ")")]) :
    Reads .unary (ws ++ rest) p.raw rest := by
  obtain ⟨w, ws, rfl, opened, _, spelled⟩ := map_word_cons spelled
  obtain ⟨ws, last, rfl, inner, tail⟩ := List.map_eq_append_iff.mp spelled
  obtain ⟨w', last, rfl, closed, _, nothing⟩ := map_word_cons tail
  obtain rfl := List.map_eq_nil_iff.mp nothing
  have read : Reads .expression (ws ++ w' :: rest) p.raw (w' :: rest) :=
    legible.expression inner (ends_of_kind (by simp [closed]))
  rw [List.cons_append, List.append_assoc]
  refine .unsigned ?_ (.brackets opened read closed)
  simp [Words.follows, Words.next, opened]

theorem reads_operand (legible : Legible p) {rest' : Words} {bound least : Nat} {out : Raw}
    (spelled : ws.map Lexeme.word = p.bracketed least p.words) (positive : 1 ≤ bound)
    (le : bound ≤ least) (stops : least ≤ p.strength → Stops p.closing rest)
    (more : Reads (.operators bound p.raw) rest out rest') :
    Reads (.binary bound) (ws ++ rest) out rest' := by
  unfold Phrase.bracketed at spelled
  split at spelled
  · exact .binary (reads_brackets legible spelled) more
  · rename_i free
    exact legible.binary spelled positive (le.trans (not_lt.mp free)) (stops (not_lt.mp free)) more

theorem expression_of_binary (ends : Ends rest)
    (read : Reads (.operators 1 p.raw) rest p.raw rest →
      Reads (.binary 1) (ws ++ rest) p.raw rest) :
    Reads .expression (ws ++ rest) p.raw rest :=
  .value (read (.stop (ends.stops.mono (Nat.zero_le 1)).weak)) ends.closed

theorem legible_of_unary (unary : ∀ {ws rest : Words},
      ws.map Lexeme.word = p.words → Words.follows rest .leftParen = false →
      Reads .unary (ws ++ rest) p.raw rest) : Legible p where
  unary spelled _ apart := unary spelled apart
  binary spelled _ _ stops more := .binary (unary spelled stops.apart) more
  expression spelled ends :=
    expression_of_binary ends fun more => .binary (unary spelled ends.stops.apart) more

theorem legible_literal {v : Value} {text : String} (read : Value.read text = .ok v) :
    Legible (.literal v text) := by
  refine legible_of_unary fun {ws rest} spelled _ => ?_
  obtain ⟨w, ws, rfl, kind, same, nothing⟩ := map_word_cons spelled
  obtain rfl := List.map_eq_nil_iff.mp nothing
  have known : w.kind = .number ∨ w.kind = .string := by
    rw [kind]
    cases v <;> simp [Value.kind]
  refine .unsigned ?_ (.literal known (same ▸ read))
  rcases known with h | h <;> simp [Words.follows, Words.next, h]

theorem legible_name (x : String) : Legible (.name x) := by
  refine legible_of_unary fun {ws rest} spelled apart => ?_
  obtain ⟨w, ws, rfl, kind, rfl, nothing⟩ := map_word_cons spelled
  obtain rfl := List.map_eq_nil_iff.mp nothing
  refine .unsigned ?_ (.name kind apart)
  simp [Words.follows, Words.next, kind]

def LegibleAll (ps : List Phrase) : Prop :=
  ∀ {ws rest : Words}, ws.map Lexeme.word = Phrase.wordsAll ps →
    Words.follows rest .rightParen = true →
    Reads .list (ws ++ rest) (Phrase.rawAll ps) rest

theorem legible_call (f : String) {args : List Phrase} (legible : LegibleAll args) :
    Legible (.call f args) := by
  refine legible_of_unary fun {ws rest} spelled _ => ?_
  obtain ⟨w, ws₁, rfl, kind, rfl, spelled₁⟩ := map_word_cons spelled
  obtain ⟨w₁, ws₂, rfl, opened, _, spelled₂⟩ := map_word_cons spelled₁
  obtain ⟨ws, last, rfl, inner, tail⟩ := List.map_eq_append_iff.mp spelled₂
  obtain ⟨w₂, last, rfl, closed, _, nothing⟩ := map_word_cons tail
  obtain rfl := List.map_eq_nil_iff.mp nothing
  have read : Reads .list (ws ++ w₂ :: rest) (Phrase.rawAll args) (w₂ :: rest) :=
    legible inner (by simp [Words.follows, Words.next, closed])
  rw [List.cons_append, List.cons_append, List.append_assoc]
  refine .unsigned ?_ (.call kind opened read closed)
  simp [Words.follows, Words.next, kind]

theorem legible_unary (op : UnaryOp) {x : Phrase} (legible : Legible x) :
    Legible (.unary op x) := by
  refine legible_of_unary fun {ws rest} spelled apart => ?_
  obtain ⟨w, ws, rfl, kind, _, spelled⟩ := map_word_cons spelled
  refine .sign kind ?_
  unfold Phrase.bracketed at spelled
  split at spelled
  · exact reads_brackets legible spelled
  · rename_i free
    exact legible.unary spelled (by omega) apart

theorem stops_operator {w : Lexeme} {op : BinaryOp} (kind : w.kind = op.kind)
    (free : op.leftBound ≤ p.strength) : Stops p.closing (w :: ws) := by
  have bracketless : op.kind ≠ .leftParen := by cases op <;> decide
  refine ⟨by simpa [Words.follows, Words.next, kind] using bracketless, fun op' known => ?_⟩
  obtain rfl : op = op' := by simpa [Words.next, kind, op.binary?_kind] using known
  cases p with
  | binary inner l r => exact BinaryOp.strength_lt_rightBound free
  | _ => exact op.strength_lt.trans (show unaryStrength < atomStrength by decide)

theorem legible_binary (op : BinaryOp) {l r : Phrase} (left : Legible l) (right : Legible r) :
    Legible (.binary op l r) := by
  have read : ∀ {ws rest rest' : Words} {bound : Nat} {out : Raw},
      ws.map Lexeme.word = (Phrase.binary op l r).words → 1 ≤ bound → bound ≤ op.strength →
      Stops op.rightBound rest → Reads (.operators bound (Phrase.binary op l r).raw)
        rest out rest' →
      Reads (.binary bound) (ws ++ rest) out rest' := by
    intro ws rest rest' bound out spelled positive tight stops more
    obtain ⟨ws, ws₁, rfl, first, second⟩ := List.map_eq_append_iff.mp spelled
    obtain ⟨w, ws₁, rfl, kind, _, second⟩ := map_word_cons second
    rw [List.append_assoc]
    refine reads_operand left first positive (tight.trans op.strength_le_leftBound)
      (stops_operator kind) ?_
    -- the right operand takes all that binds more tightly than the operator
    have operand : Reads (.binary op.rightBound) (ws₁ ++ rest) r.raw rest := by
      refine reads_operand right second (op.strength_pos.trans op.strength_le_rightBound) le_rfl
        (fun free => ?_) (.stop stops.weak)
      cases r with
      | binary inner _ _ => exact stops.mono (free.trans inner.strength_le_rightBound)
      | _ => exact stops.mono op.rightBound_le
    exact .operator (by rw [kind, op.binary?_kind]) tight operand more
  refine ⟨fun _ tight => absurd tight (not_le.mpr op.strength_lt), read, fun spelled ends => ?_⟩
  exact expression_of_binary ends
    (read spelled le_rfl op.strength_pos (ends.stops.mono (Nat.zero_le _)))

theorem legible_ternary {c t e : Phrase} (cond : Legible c) (thn : Legible t) (els : Legible e) :
    Legible (.ternary c t e) := by
  have loose : (Phrase.ternary c t e).strength = 0 := rfl
  refine ⟨fun _ tight => ?_, fun _ positive tight => ?_, fun {ws rest} spelled ends => ?_⟩
  · exact absurd (loose ▸ tight) (by decide)
  · exact absurd (loose ▸ positive.trans tight) (by decide)
  · obtain ⟨ws, ws₂, rfl, spelled, third⟩ := List.map_eq_append_iff.mp spelled
    obtain ⟨ws, ws₁, rfl, first, second⟩ := List.map_eq_append_iff.mp spelled
    obtain ⟨w₁, ws₁, rfl, question, _, second⟩ := map_word_cons second
    obtain ⟨w₂, ws₂, rfl, colon, _, third⟩ := map_word_cons third
    have stops : Stops 0 (w₁ :: ws₁ ++ (w₂ :: ws₂ ++ rest)) := by
      constructor
      · simp [Words.follows, Words.next, question]
      · simp [Words.next, question, Kind.binary?]
    rw [List.append_assoc, List.append_assoc]
    refine .choice (reads_operand cond first le_rfl le_rfl (fun _ => stops.mono (Nat.zero_le _))
      (.stop (stops.mono (Nat.zero_le _)).weak)) question (thn.expression second ?_) colon
      (els.expression third ends)
    exact ends_of_kind (by simp [colon])

theorem legibleAll_nil : LegibleAll [] := by
  intro ws rest spelled closed
  obtain rfl := List.map_eq_nil_iff.mp spelled
  exact .none closed

theorem reads_arguments_words (some : ps ≠ []) (legible : ∀ p ∈ ps, Legible p)
    (spelled : ws.map Lexeme.word = Phrase.wordsAll ps)
    (closed : Words.follows rest .rightParen = true) :
    Reads .arguments (ws ++ rest) (Phrase.rawAll ps) rest := by
  induction ps generalizing ws with
  | nil => exact absurd rfl some
  | cons p ps ih =>
    cases ps with
    | nil =>
      have ends : Ends rest ∧ Words.follows rest .comma = false := by
        cases rest with
        | nil => cases closed
        | cons w rest =>
          have kind : w.kind = .rightParen := by simpa [Words.follows, Words.next] using closed
          exact ⟨ends_of_kind (by simp [kind]), by simp [Words.follows, Words.next, kind]⟩
      rw [Phrase.rawAll, Phrase.rawAll, List.append_nil]
      exact .last ((legible p (.head _)).expression spelled ends.1) ends.2
    | cons q qs =>
      obtain ⟨ws₁, ws₂, rfl, first, others⟩ := List.map_eq_append_iff.mp spelled
      obtain ⟨w, ws₂, rfl, comma, _, others⟩ := map_word_cons others
      rw [List.append_assoc, Phrase.rawAll]
      refine .more ((legible p (.head _)).expression first (ends_of_kind (by simp [comma])))
        comma ?_
      exact ih (List.cons_ne_nil q qs) (fun p mem => legible p (.tail _ mem)) others

theorem legibleAll_of_forall (legible : ∀ p ∈ ps, Legible p)
    (nonempty : ∀ p ∈ ps, ∃ kind text more, p.words = (kind, text) :: more ∧ kind ≠ .rightParen) :
    LegibleAll ps := by
  cases ps with
  | nil => exact legibleAll_nil
  | cons p ps =>
    intro ws rest spelled closed
    refine .some ?_ (reads_arguments_words (List.cons_ne_nil p ps) legible spelled closed)
    obtain ⟨kind, text, more, first, other⟩ := nonempty p (.head _)
    have head : ∃ more, Phrase.wordsAll (p :: ps) = (kind, text) :: more := by
      cases ps with
      | nil => exact ⟨more, first⟩
      | cons q qs => exact ⟨_, by rw [Phrase.wordsAll, first]; rfl⟩
    obtain ⟨more, head⟩ := head
    obtain ⟨w, ws, rfl, same, _, _⟩ := map_word_cons (spelled.trans head)
    simpa [Words.follows, Words.next, same] using other

end Raw

namespace Phrase

def Opens (kind : Kind) : Prop :=
  kind ∈ [Kind.number, .string, .identifier, .leftParen, .minus, .bang]

theorem head_bracketed {p : Phrase} (bound : Nat)
    (first : ∃ kind text more, p.words = (kind, text) :: more ∧ Opens kind) :
    ∃ kind text more, p.bracketed bound p.words = (kind, text) :: more ∧ Opens kind := by
  unfold bracketed
  split
  · exact ⟨.leftParen, "(", _, rfl, by simp [Opens]⟩
  · exact first

theorem head_words (p : Phrase) : ∃ kind text more, p.words = (kind, text) :: more ∧
    Opens kind := by
  cases p with
  | literal v text => exact ⟨_, _, _, rfl, by cases v <;> simp [Opens, Value.kind]⟩
  | name x | call f args => exact ⟨_, _, _, rfl, by simp [Opens]⟩
  | unary op x => exact ⟨_, _, _, rfl, by cases op <;> simp [Opens, UnaryOp.kind]⟩
  | binary op l r =>
    obtain ⟨kind, text, more, first, opens⟩ := head_bracketed op.leftBound (head_words l)
    exact ⟨kind, text, _, by rw [words, first]; rfl, opens⟩
  | ternary c t e =>
    obtain ⟨kind, text, more, first, opens⟩ := head_bracketed (ternaryStrength + 1) (head_words c)
    exact ⟨kind, text, _, by rw [words, first]; rfl, opens⟩

mutual

theorem legible {name : String → Prop} (p : Phrase)
    (read : p.Over (fun v text => Value.read text = .ok v) name) : Raw.Legible p := by
  cases p with
  | literal v text => exact Raw.legible_literal read
  | name x => exact Raw.legible_name x
  | call f args =>
    refine Raw.legible_call f (Raw.legibleAll_of_forall (legibleAll args read.2) fun p _ => ?_)
    obtain ⟨kind, text, more, first, opens⟩ := p.head_words
    exact ⟨kind, text, more, first, by rintro rfl; simp [Opens] at opens⟩
  | unary op x => exact Raw.legible_unary op (legible x read)
  | binary op l r => exact Raw.legible_binary op (legible l read.1) (legible r read.2)
  | ternary c t e =>
    exact Raw.legible_ternary (legible c read.1) (legible t read.2.1) (legible e read.2.2)

theorem legibleAll {name : String → Prop} (ps : List Phrase)
    (read : OverAll (fun v text => Value.read text = .ok v) name ps) : ∀ p ∈ ps, Raw.Legible p := by
  cases ps with
  | nil => exact nofun
  | cons p ps => exact List.forall_mem_cons.mpr ⟨legible p read.1, legibleAll ps read.2⟩

end

theorem ofWords_words {name : String → Prop} {p : Phrase} {ws : Words}
    (read : p.Over (fun v text => Value.read text = .ok v) name)
    (spelled : ws.map Lexeme.word = p.words ++ [(.finish, "")]) : Raw.ofWords ws = .ok p.raw := by
  obtain ⟨ws, last, rfl, inner, tail⟩ := List.map_eq_append_iff.mp spelled
  obtain ⟨w, last, rfl, finish, _, nothing⟩ := Raw.map_word_cons tail
  obtain rfl := List.map_eq_nil_iff.mp nothing
  have whole : Raw.read (ws ++ [w]) = .ok (p.raw, [w]) :=
    Raw.read_eq_ok.mpr ((p.legible read).expression inner (Raw.ends_of_kind (by simp [finish])))
  have all : Words.follows [w] .finish = true := by simp [Words.follows, Words.next, finish]
  exact Raw.bind_eq_ok.mpr ⟨_, whole, if_pos all⟩

end Phrase
end Analog
