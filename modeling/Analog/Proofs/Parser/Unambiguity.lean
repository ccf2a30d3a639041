import Analog.Proofs.Parser.Grammar

/-!
Words have one derivation at most. The operands and the operators of a level stand in a row that the
words determine, and the strengths of its operators determine how the row is grouped.
-/
namespace Analog

@[ext]
structure Row where
  first : Derivation .unary
  others : List (Sign × Derivation .unary)

namespace Row

def tailWords (others : List (Sign × Derivation .unary)) : Words :=
  others.flatMap fun item => item.1.word :: item.2.words

def words (row : Row) : Words := row.first.words ++ tailWords row.others

def join (left : Row) (sign : Sign) (right : Row) : Row :=
  ⟨left.first, left.others ++ (sign, right.first) :: right.others⟩

theorem words_join (left : Row) (sign : Sign) (right : Row) :
    (left.join sign right).words = left.words ++ sign.word :: right.words := by
  simp [words, join, tailWords]

end Row

theorem Sign.eq_of_word {s t : Sign} (same : s.word = t.word) : s = t := by
  obtain ⟨w, op, known⟩ := s
  obtain ⟨w', op', known'⟩ := t
  cases same
  cases known.symm.trans known'
  rfl

namespace Derivation

/-- The operands of a level and the operators between them, without their grouping. -/
def row {k : Nat} : Derivation (.level k) → Row
  | .chain left sign right _ _ => left.row.join sign right.row
  | .tighter b _ => b.row
  | .power base sign exponent _ => Row.join ⟨base, []⟩ sign exponent.row
  | .operand u => ⟨u, []⟩

theorem level_induction {P : (k : Nat) → Derivation (.level k) → Prop}
    (chain : ∀ k left sign right strength low, P k left → P (k + 1) right →
      P k (.chain left sign right strength low))
    (tighter : ∀ k b low, P (k + 1) b → P k (.tighter b low))
    (power : ∀ base sign exponent pow, P 7 exponent → P 7 (.power base sign exponent pow))
    (operand : ∀ u, P 7 (.operand u)) {k : Nat} (d : Derivation (.level k)) : P k d := by
  let Q : (c : Category) → Derivation c → Prop
    | .level k, d => P k d
    | _, _ => True
  have all (c : Category) (d : Derivation c) : Q c d := by
    induction d with
    | chain left sign right strength low first second =>
      exact chain _ left sign right strength low first second
    | tighter b low inner => exact tighter _ b low inner
    | power base sign exponent pow _ second => exact power base sign exponent pow second
    | operand u _ => exact operand u
    | _ => trivial
  exact all (.level k) d

theorem words_row {k : Nat} (d : Derivation (.level k)) : d.row.words = d.words := by
  induction d using level_induction with
  | chain k left sign right strength low first second =>
    rw [row, Row.words_join, first, second, words]
  | tighter k b low inner => rw [row, inner, words]
  | power base sign exponent pow second =>
    rw [row, Row.words_join, second, words, Row.words, Row.tailWords, List.flatMap_nil,
      List.append_nil]
  | operand u => rw [row, Row.words, Row.tailWords, List.flatMap_nil, List.append_nil, words]

theorem le_strength {k : Nat} (d : Derivation (.level k)) :
    ∀ item ∈ d.row.others, k ≤ item.1.op.strength := by
  induction d using level_induction with
  | chain k left sign right strength low first second =>
    intro item mem
    rw [row, Row.join, List.mem_append, List.mem_cons] at mem
    rcases mem with inLeft | rfl | inRight
    · exact first item inLeft
    · exact strength.ge
    · exact Nat.le_of_succ_le (second item inRight)
  | tighter k b low inner =>
    intro item mem
    rw [row] at mem
    exact Nat.le_of_succ_le (inner item mem)
  | power base sign exponent pow second =>
    intro item mem
    rw [row, Row.join, List.nil_append, List.mem_cons] at mem
    rcases mem with rfl | inRight
    · rw [pow]
      decide
    · exact second item inRight
  | operand u =>
    intro item mem
    rw [row] at mem
    cases mem

theorem split_unique {k : Nat} {a a' b b' : List (Sign × Derivation .unary)}
    {x x' : Sign × Derivation .unary} (same : a ++ x :: b = a' ++ x' :: b')
    (here : x.1.op.strength = k) (here' : x'.1.op.strength = k)
    (after : ∀ item ∈ b, k + 1 ≤ item.1.op.strength)
    (after' : ∀ item ∈ b', k + 1 ≤ item.1.op.strength) :
    a = a' ∧ x = x' ∧ b = b' := by
  rcases List.append_eq_append_iff.mp same with ⟨c, rfl, rest⟩ | ⟨c, rfl, rest⟩
  · cases c with
    | nil =>
      cases rest
      exact ⟨(List.append_nil a).symm, rfl, rfl⟩
    | cons y c =>
      cases rest
      have := after x' (by simp)
      omega
  · cases c with
    | nil =>
      cases rest
      exact ⟨List.append_nil a', rfl, rfl⟩
    | cons y c =>
      cases rest
      have := after' x (by simp)
      omega

theorem eq_of_row {k : Nat} {d d' : Derivation (.level k)} (same : d.row = d'.row) : d = d' := by
  induction d using level_induction with
  | chain k left sign right strength low first second =>
    cases d' with
    | chain left' sign' right' strength' low' =>
      rw [row, row, Row.join, Row.join] at same
      obtain ⟨heads, tails⟩ := Row.mk.inj same
      obtain ⟨lefts, middle, rights⟩ :=
        split_unique tails strength strength' right.le_strength right'.le_strength
      obtain ⟨rfl, operands⟩ := Prod.mk.inj middle
      cases first (Row.ext heads lefts)
      cases second (Row.ext operands rights)
      rfl
    | tighter b low' =>
      rw [row, row] at same
      have strong := b.le_strength (sign, right.row.first) (by rw [← same]; simp [Row.join])
      dsimp only at strong
      omega
    | power _ _ _ _ => omega
    | operand _ => omega
  | tighter k b low inner =>
    cases d' with
    | chain left sign right strength low' =>
      rw [row, row] at same
      have strong := b.le_strength (sign, right.row.first) (by rw [same]; simp [Row.join])
      dsimp only at strong
      omega
    | tighter b' low' =>
      rw [row, row] at same
      rw [inner same]
    | power _ _ _ _ => omega
    | operand _ => omega
  | power base sign exponent pow second =>
    cases d' with
    | chain _ _ _ _ low => omega
    | tighter _ low => omega
    | power base' sign' exponent' pow' =>
      rw [row, row, Row.join, Row.join] at same
      obtain ⟨rfl, tails⟩ := Row.mk.inj same
      obtain ⟨middle, rights⟩ := List.cons.inj tails
      obtain ⟨rfl, operands⟩ := Prod.mk.inj middle
      cases second (Row.ext operands rights)
      rfl
    | operand u =>
      rw [row, row, Row.join] at same
      cases (Row.mk.inj same).2
  | operand u =>
    cases d' with
    | chain _ _ _ _ low => omega
    | tighter _ low => omega
    | power base sign exponent pow =>
      rw [row, row, Row.join] at same
      cases (Row.mk.inj same).2
    | operand u' =>
      rw [row, row] at same
      rw [(Row.mk.inj same).1]

end Derivation

theorem Word.ne {a b : Kind} (w : Word a) (w' : Word b) (other : a ≠ b) : w.1 ≠ w'.1 := by
  intro same
  apply other
  rw [← w.2, ← w'.2, same]

theorem Words.follows_word {kind : Kind} (w : Word kind) (ws : Words) :
    Words.follows (w.1 :: ws) kind = true := by
  simp [Words.follows, Words.next, w.2]

theorem Sign.not_stops {s : Sign} {ws : Words} (stops : Raw.Stops 0 (s.word :: ws)) : False :=
  Nat.not_lt_zero _ (stops.weak s.op s.known)

theorem Row.apart_tail {others : List (Sign × Derivation .unary)} {rest : Words}
    (apart : Words.follows rest .leftParen = false) :
    Words.follows (Row.tailWords others ++ rest) .leftParen = false := by
  cases others with
  | nil => exact apart
  | cons item others => exact (item.1.stops (Nat.lt_succ_self _) _).apart

namespace Derivation
open Raw (Stops Ends)

/-- That the words determine a derivation and where it ends, for each category with what may follow
it. At a level they determine the row, of which a derivation takes a part. -/
def Determined : {c : Category} → Derivation c → Prop
  | .expression, d => ∀ (d' : Derivation .expression) rest rest', Ends rest → Ends rest' →
    d.words ++ rest = d'.words ++ rest' → d = d' ∧ rest = rest'
  | .level _, d => ∀ (row : Row) rest rest', Words.follows rest .leftParen = false → Stops 0 rest' →
    d.words ++ rest = row.words ++ rest' →
    ∃ more, row = ⟨d.row.first, d.row.others ++ more⟩ ∧ rest = Row.tailWords more ++ rest'
  | .unary, d => ∀ (d' : Derivation .unary) rest rest', Words.follows rest .leftParen = false →
    Words.follows rest' .leftParen = false → d.words ++ rest = d'.words ++ rest' →
      d = d' ∧ rest = rest'
  | .primary, d => ∀ (d' : Derivation .primary) rest rest', Words.follows rest .leftParen = false →
    Words.follows rest' .leftParen = false → d.words ++ rest = d'.words ++ rest' →
      d = d' ∧ rest = rest'
  | .arguments, d =>
    ∀ (d' : Derivation .arguments) rest rest', Words.follows rest .rightParen = true →
    Words.follows rest' .rightParen = true → d.words ++ rest = d'.words ++ rest' →
      d = d' ∧ rest = rest'

theorem Determined.level {k : Nat} {d d' : Derivation (.level k)} (determined : d.Determined)
    {rest rest' : Words} (stops : Stops 0 rest) (stops' : Stops 0 rest')
    (same : d.words ++ rest = d'.words ++ rest') : d = d' ∧ rest = rest' := by
  rw [← d'.words_row] at same
  obtain ⟨more, rows, rests⟩ := determined d'.row rest rest' stops.apart stops' same
  cases more with
  | nil =>
    rw [List.append_nil] at rows
    exact ⟨eq_of_row rows.symm, rests⟩
  | cons item more =>
    rw [rests] at stops
    exact (Sign.not_stops stops).elim

theorem Determined.join {row : Row} {sign : Sign} {left right : Row} {ws rest rest' : Words}
    (taken : ∃ more, row = ⟨left.first, left.others ++ more⟩ ∧
      sign.word :: (ws ++ rest) = Row.tailWords more ++ rest')
    (second : ∀ next : Row, ws ++ rest = next.words ++ rest' →
      ∃ more, next = ⟨right.first, right.others ++ more⟩ ∧ rest = Row.tailWords more ++ rest')
      (stops : Stops 0 rest') :
    ∃ more, row = ⟨(left.join sign right).first, (left.join sign right).others ++ more⟩ ∧
      rest = Row.tailWords more ++ rest' := by
  obtain ⟨more, rfl, rests⟩ := taken
  cases more with
  | nil =>
    rw [Row.tailWords, List.flatMap_nil, List.nil_append] at rests
    rw [← rests] at stops
    exact (Sign.not_stops stops).elim
  | cons item more =>
    obtain ⟨sign', u⟩ := item
    simp only [Row.tailWords, List.flatMap_cons, List.cons_append, List.append_assoc,
      List.cons.injEq] at rests
    cases Sign.eq_of_word rests.1
    obtain ⟨more', rows, ended⟩ :=
      second ⟨u, more⟩ (by rw [Row.words, List.append_assoc]; exact rests.2)
    obtain ⟨rfl, rfl⟩ := Row.mk.inj rows
    exact ⟨more', by simp [Row.join], ended⟩

theorem stops_question (question : Word .question) (ws : Words) : Stops 0 (question.1 :: ws) := by
  constructor
  · simp [Words.follows, Words.next, question.2]
  · simp [Words.next, question.2, Kind.binary?]

theorem determined_choice {cond : Derivation (.level 1)} {question : Word .question}
    {thn els : Derivation .expression} {colon : Word .colon} (first : cond.Determined)
    (second : thn.Determined) (third : els.Determined) :
    (Derivation.choice cond question thn colon els).Determined := by
  intro d' rest rest' ends ends' same
  cases d' with
  | value b =>
    simp only [words, List.append_assoc] at same
    obtain ⟨_, rests⟩ := first.level (stops_question question _) ends'.stops same
    have closed := ends'.closed
    rw [← rests] at closed
    cases (Words.follows_word question _).symm.trans closed
  | choice cond' question' thn' colon' els' =>
    simp only [words, List.append_assoc, List.cons_append] at same
    obtain ⟨rfl, afterCond⟩ := first.level (stops_question question _)
      (stops_question question' _) same
    obtain ⟨questions, arms⟩ := List.cons.inj afterCond
    obtain ⟨rfl, afterThn⟩ := second thn' _ _ (Raw.ends_of_kind (by simp [colon.2]))
      (Raw.ends_of_kind (by simp [colon'.2])) arms
    obtain ⟨colons, arm⟩ := List.cons.inj afterThn
    obtain ⟨rfl, rests⟩ := third els' rest rest' ends ends' arm
    cases Subtype.ext questions
    cases Subtype.ext colons
    exact ⟨rfl, rests⟩

theorem determined_value {b : Derivation (.level 1)} (only : b.Determined) :
    (Derivation.value b).Determined := by
  intro d' rest rest' ends ends' same
  cases d' with
  | value b' =>
    obtain ⟨rfl, rests⟩ := only.level ends.stops ends'.stops same
    exact ⟨rfl, rests⟩
  | choice cond question thn colon els =>
    simp only [words, List.append_assoc, List.cons_append] at same
    obtain ⟨_, rests⟩ := only.level ends.stops (stops_question question _) same
    have closed := ends.closed
    rw [rests] at closed
    cases (Words.follows_word question _).symm.trans closed

theorem determined_sign {kind : Kind} {u : Derivation .unary} (inner : u.Determined)
    {w w' : Word kind} {u' : Derivation .unary} {rest rest' : Words}
    (apart : Words.follows rest .leftParen = false)
    (apart' : Words.follows rest' .leftParen = false)
    (same : w.1 :: u.words ++ rest = w'.1 :: u'.words ++ rest') :
    (w = w' ∧ u = u') ∧ rest = rest' := by
  obtain ⟨heads, tails⟩ := List.cons.inj same
  obtain ⟨operands, rests⟩ := inner u' rest rest' apart apart' tails
  exact ⟨⟨Subtype.ext heads, operands⟩, rests⟩

theorem sign_ne {kind : Kind} (w : Word kind) (p : Derivation .primary)
    (other : kind ∉ Category.primary.heads) {ws rest : Words} (same : w.1 :: ws = p.words ++ rest) :
    False := by
  have missing := p.not_follows other rest
  rw [← same, Words.follows_word w ws] at missing
  cases missing

theorem word_ne {a b : Kind} (w : Word a) (w' : Word b) (other : a ≠ b) {ws ws' : Words}
    (same : w.1 :: ws = w'.1 :: ws') : False :=
  Word.ne w w' other (List.cons.inj same).1

theorem determined_plus {w : Word .plus} {u : Derivation .unary} (inner : u.Determined) :
    (Derivation.plus w u).Determined := by
  intro d' rest rest' apart apart' same
  cases d' with
  | plus w' u' =>
    obtain ⟨⟨rfl, rfl⟩, rests⟩ := determined_sign inner apart apart' same
    exact ⟨rfl, rests⟩
  | minus w' _ | bang w' _ => exact (word_ne w w' (by decide) same).elim
  | unsigned p => exact (sign_ne w p (by decide) same).elim

theorem determined_minus {w : Word .minus} {u : Derivation .unary} (inner : u.Determined) :
    (Derivation.minus w u).Determined := by
  intro d' rest rest' apart apart' same
  cases d' with
  | plus w' _ | bang w' _ => exact (word_ne w w' (by decide) same).elim
  | minus w' u' =>
    obtain ⟨⟨rfl, rfl⟩, rests⟩ := determined_sign inner apart apart' same
    exact ⟨rfl, rests⟩
  | unsigned p => exact (sign_ne w p (by decide) same).elim

theorem determined_bang {w : Word .bang} {u : Derivation .unary} (inner : u.Determined) :
    (Derivation.bang w u).Determined := by
  intro d' rest rest' apart apart' same
  cases d' with
  | plus w' _ | minus w' _ => exact (word_ne w w' (by decide) same).elim
  | bang w' u' =>
    obtain ⟨⟨rfl, rfl⟩, rests⟩ := determined_sign inner apart apart' same
    exact ⟨rfl, rests⟩
  | unsigned p => exact (sign_ne w p (by decide) same).elim

theorem determined_unsigned {p : Derivation .primary} (inner : p.Determined) :
    (Derivation.unsigned p).Determined := by
  intro d' rest rest' apart apart' same
  cases d' with
  | plus w' _ | minus w' _ | bang w' _ => exact (sign_ne w' p (by decide) same.symm).elim
  | unsigned p' =>
    obtain ⟨rfl, rests⟩ := inner p' rest rest' apart apart' same
    exact ⟨rfl, rests⟩

theorem determined_number {w : Word .number} : (Derivation.number w).Determined := by
  intro d' rest rest' _ _ same
  cases d' with
  | number w' =>
    obtain ⟨heads, rests⟩ := List.cons.inj same
    cases Subtype.ext heads
    exact ⟨rfl, rests⟩
  | string w' | name w' | callEmpty w' _ _ | call w' _ _ _ | brackets w' _ _ =>
    exact (word_ne w w' (by decide) same).elim

theorem determined_string {w : Word .string} : (Derivation.string w).Determined := by
  intro d' rest rest' _ _ same
  cases d' with
  | string w' =>
    obtain ⟨heads, rests⟩ := List.cons.inj same
    cases Subtype.ext heads
    exact ⟨rfl, rests⟩
  | number w' | name w' | callEmpty w' _ _ | call w' _ _ _ | brackets w' _ _ =>
    exact (word_ne w w' (by decide) same).elim

theorem not_called {name : Lexeme} {callee : Lexeme} {opened : Word .leftParen} {rest ws : Words}
    (apart : Words.follows rest .leftParen = false)
    (same : name :: rest = callee :: opened.1 :: ws) : False := by
  obtain ⟨_, rests⟩ := List.cons.inj same
  rw [rests, Words.follows_word] at apart
  cases apart

theorem determined_name {w : Word .identifier} : (Derivation.name w).Determined := by
  intro d' rest rest' apart _ same
  cases d' with
  | name w' =>
    obtain ⟨heads, rests⟩ := List.cons.inj same
    cases Subtype.ext heads
    exact ⟨rfl, rests⟩
  | callEmpty w' _ _ | call w' _ _ _ => exact (not_called apart same).elim
  | number w' | string w' | brackets w' _ _ => exact (word_ne w w' (by decide) same).elim

theorem not_empty {closed : Word .rightParen} {args : Derivation .arguments} {ws rest : Words}
    (same : closed.1 :: ws = args.words ++ rest) : False := by
  have missing := args.not_follows (show Kind.rightParen ∉ Category.arguments.heads by decide) rest
  rw [← same, Words.follows_word] at missing
  cases missing

theorem determined_callEmpty {w : Word .identifier} {opened : Word .leftParen}
    {closed : Word .rightParen} : (Derivation.callEmpty w opened closed).Determined := by
  intro d' rest rest' _ apart' same
  cases d' with
  | name w' => exact (not_called apart' same.symm).elim
  | callEmpty w' opened' closed' =>
    simp only [words, List.cons_append, List.nil_append, List.cons.injEq] at same
    obtain ⟨names, openings, closings, rests⟩ := same
    cases Subtype.ext names
    cases Subtype.ext openings
    cases Subtype.ext closings
    exact ⟨rfl, rests⟩
  | call w' opened' args closed' =>
    simp only [words, List.cons_append, List.nil_append, List.append_assoc, List.cons.injEq] at same
    exact (not_empty same.2.2).elim
  | number w' | string w' | brackets w' _ _ => exact (word_ne w w' (by decide) same).elim

theorem determined_call {w : Word .identifier} {opened : Word .leftParen}
    {args : Derivation .arguments} {closed : Word .rightParen} (inner : args.Determined) :
    (Derivation.call w opened args closed).Determined := by
  intro d' rest rest' _ apart' same
  cases d' with
  | name w' => exact (not_called apart' same.symm).elim
  | callEmpty w' opened' closed' =>
    simp only [words, List.cons_append, List.nil_append, List.append_assoc, List.cons.injEq] at same
    exact (not_empty same.2.2.symm).elim
  | call w' opened' args' closed' =>
    simp only [words, List.cons_append, List.nil_append, List.append_assoc, List.cons.injEq] at same
    obtain ⟨names, openings, lists⟩ := same
    obtain ⟨rfl, afterArgs⟩ := inner args' _ _ (Words.follows_word closed rest)
      (Words.follows_word closed' rest') lists
    obtain ⟨closings, rests⟩ := List.cons.inj afterArgs
    cases Subtype.ext names
    cases Subtype.ext openings
    cases Subtype.ext closings
    exact ⟨rfl, rests⟩
  | number w' | string w' | brackets w' _ _ => exact (word_ne w w' (by decide) same).elim

theorem determined_brackets {opened : Word .leftParen} {e : Derivation .expression}
    {closed : Word .rightParen} (inner : e.Determined) :
    (Derivation.brackets opened e closed).Determined := by
  intro d' rest rest' _ _ same
  cases d' with
  | brackets opened' e' closed' =>
    simp only [words, List.cons_append, List.nil_append, List.append_assoc, List.cons.injEq] at same
    obtain ⟨openings, insides⟩ := same
    obtain ⟨rfl, afterInside⟩ := inner e' _ _ (Raw.ends_of_kind (by simp [closed.2]))
      (Raw.ends_of_kind (by simp [closed'.2])) insides
    obtain ⟨closings, rests⟩ := List.cons.inj afterInside
    cases Subtype.ext openings
    cases Subtype.ext closings
    exact ⟨rfl, rests⟩
  | number w' | string w' | name w' | callEmpty w' _ _ | call w' _ _ _ =>
    exact (word_ne opened w' (by decide) same).elim

theorem ends_of_closing {rest : Words} (closed : Words.follows rest .rightParen = true) :
    Ends rest := by
  cases rest with
  | nil => cases closed
  | cons w rest =>
    have kind : w.kind = .rightParen := by simpa [Words.follows, Words.next] using closed
    exact Raw.ends_of_kind (by simp [kind])

theorem not_continued {comma : Word .comma} {rest ws : Words}
    (closed : Words.follows rest .rightParen = true) (same : rest = comma.1 :: ws) : False := by
  rw [same] at closed
  simp [Words.follows, Words.next, comma.2] at closed

theorem determined_last {e : Derivation .expression} (inner : e.Determined) :
    (Derivation.last e).Determined := by
  intro d' rest rest' closed closed' same
  cases d' with
  | last e' =>
    obtain ⟨rfl, rests⟩ := inner e' rest rest' (ends_of_closing closed)
      (ends_of_closing closed') same
    exact ⟨rfl, rests⟩
  | more e' comma others =>
    simp only [words, List.append_assoc] at same
    obtain ⟨_, rests⟩ := inner e' rest _ (ends_of_closing closed)
      (Raw.ends_of_kind (by simp [comma.2])) same
    exact (not_continued closed rests).elim

theorem determined_more {e : Derivation .expression} {comma : Word .comma}
    {others : Derivation .arguments} (first : e.Determined) (second : others.Determined) :
    (Derivation.more e comma others).Determined := by
  intro d' rest rest' closed closed' same
  cases d' with
  | last e' =>
    simp only [words, List.append_assoc] at same
    obtain ⟨_, rests⟩ := first e' _ rest' (Raw.ends_of_kind (by simp [comma.2]))
      (ends_of_closing closed') same
    exact (not_continued closed' rests.symm).elim
  | more e' comma' others' =>
    simp only [words, List.append_assoc] at same
    obtain ⟨rfl, afterFirst⟩ := first e' _ _ (Raw.ends_of_kind (by simp [comma.2]))
      (Raw.ends_of_kind (by simp [comma'.2])) same
    obtain ⟨commas, lists⟩ := List.cons.inj afterFirst
    obtain ⟨rfl, rests⟩ := second others' rest rest' closed closed' lists
    cases Subtype.ext commas
    exact ⟨rfl, rests⟩

theorem Determined.first {u : Derivation .unary} (inner : u.Determined) {row : Row}
    {rest rest' : Words} (apart : Words.follows rest .leftParen = false) (stops : Stops 0 rest')
    (same : u.words ++ rest = row.words ++ rest') :
    ∃ more, row = ⟨u, [] ++ more⟩ ∧ rest = Row.tailWords more ++ rest' := by
  rw [Row.words, List.append_assoc] at same
  obtain ⟨rfl, rests⟩ := inner row.first _ _ apart (Row.apart_tail stops.apart) same
  exact ⟨row.others, rfl, rests⟩

theorem determined {c : Category} (d : Derivation c) : d.Determined := by
  induction d with
  | value b only => exact determined_value only
  | choice cond question thn colon els first second third =>
    exact determined_choice first second third
  | chain left sign right strength low first second =>
    intro row' rest rest' apart stops same
    simp only [words, List.append_assoc, List.cons_append] at same
    have taken := first row' _ rest' (sign.stops (Nat.lt_succ_self _) _).apart stops same
    rw [row]
    exact Determined.join taken (fun next => second next rest rest' apart stops) stops
  | tighter b low inner =>
    intro row' rest rest' apart stops same
    rw [row]
    exact inner row' rest rest' apart stops same
  | power base sign exponent pow first second =>
    intro row' rest rest' apart stops same
    simp only [words, List.append_assoc, List.cons_append] at same
    have taken := Determined.first first (sign.stops (Nat.lt_succ_self _) _).apart stops same
    rw [row]
    exact Determined.join taken (fun next => second next rest rest' apart stops) stops
  | operand u inner =>
    intro row' rest rest' apart stops same
    rw [row]
    exact Determined.first inner apart stops same
  | plus w u inner => exact determined_plus inner
  | minus w u inner => exact determined_minus inner
  | bang w u inner => exact determined_bang inner
  | unsigned p inner => exact determined_unsigned inner
  | number w => exact determined_number
  | string w => exact determined_string
  | name w => exact determined_name
  | callEmpty w opened closed => exact determined_callEmpty
  | call w opened args closed inner => exact determined_call inner
  | brackets opened e closed inner => exact determined_brackets inner
  | last e inner => exact determined_last inner
  | more e comma others first second => exact determined_more first second

theorem eq_of_words {d d' : Derivation .expression} (same : d.words = d'.words) : d = d' := by
  have ends : Ends [] := ⟨⟨rfl, fun op known => by cases known⟩, rfl⟩
  exact (d.determined d' [] [] ends ends (by rw [same])).1

theorem kind_ne_finish {c : Category} (d : Derivation c) : ∀ w ∈ d.words, w.kind ≠ .finish := by
  have inner {kind : Kind} (w : Word kind) (other : kind ≠ .finish) : w.1.kind ≠ .finish := by
    rw [w.2]
    exact other
  have operator (s : Sign) : s.word.kind ≠ .finish := by
    intro kind
    have known := s.known
    rw [kind] at known
    cases known
  induction d with
  | value _ ih | tighter _ _ ih | operand _ ih | unsigned _ ih | last _ ih => exact ih
  | choice cond question thn colon els ihc iht ihe =>
    simp only [words, List.forall_mem_append, List.forall_mem_cons]
    exact ⟨ihc, inner question (by decide), iht, inner colon (by decide), ihe⟩
  | chain _ sign _ _ _ ihl ihr | power _ sign _ _ ihl ihr =>
    simp only [words, List.forall_mem_append, List.forall_mem_cons]
    exact ⟨ihl, operator sign, ihr⟩
  | plus w _ ih | minus w _ ih | bang w _ ih =>
    simp only [words, List.forall_mem_cons]
    exact ⟨inner w (by decide), ih⟩
  | number w | string w | name w =>
    simp only [words, List.mem_singleton, forall_eq]
    exact inner w (by decide)
  | callEmpty w opened closed =>
    simp only [words, List.forall_mem_cons, List.mem_singleton, forall_eq]
    exact ⟨inner w (by decide), inner opened (by decide), inner closed (by decide)⟩
  | call w opened args closed ih =>
    simp only [words, List.forall_mem_append, List.forall_mem_cons, List.mem_singleton, forall_eq]
    exact ⟨inner w (by decide), inner opened (by decide), ih, inner closed (by decide)⟩
  | brackets opened e closed ih =>
    simp only [words, List.forall_mem_append, List.forall_mem_cons, List.mem_singleton, forall_eq]
    exact ⟨inner opened (by decide), ih, inner closed (by decide)⟩
  | more e comma others ihe iho =>
    simp only [words, List.forall_mem_append, List.forall_mem_cons]
    exact ⟨ihe, inner comma (by decide), iho⟩

end Derivation

namespace Raw

theorem read_all {ws rest : Words} {last : Lexeme} {d : Derivation .expression}
    (inner : ∀ w ∈ ws, w.kind ≠ .finish) (ended : last.kind = .finish)
    (reached : Words.follows rest .finish = true) (same : d.words ++ rest = ws ++ [last]) :
    d.words = ws := by
  cases rest with
  | nil =>
    rw [List.append_nil] at same
    have mem : last ∈ d.words := by simp [same]
    exact (d.kind_ne_finish last mem ended).elim
  | cons w rest =>
    have kind : w.kind = .finish := by simpa [Words.follows, Words.next] using reached
    rcases List.append_eq_append_iff.mp same with ⟨c, whole, tail⟩ | ⟨c, whole, tail⟩
    · cases c with
      | nil => rw [whole, List.append_nil]
      | cons x c =>
        cases tail
        exact (inner w (by simp [whole]) kind).elim
    · cases c with
      | nil => rw [whole, List.append_nil]
      | cons x c => simp at tail

theorem ofWords_words_of_derivation {ws : Words} {last : Lexeme} (d : Derivation .expression)
    (derived : d.words = ws) (ended : last.kind = .finish) (valued : Words.Valued ws) :
    ofWords (ws ++ [last]) = .ok d.raw := by
  subst derived
  have whole : read (d.words ++ [last]) = .ok (d.raw, [last]) :=
    read_eq_ok.mpr (follows d valued [last] (ends_of_kind (by simp [ended])))
  have all : Words.follows [last] .finish = true := by simp [Words.follows, Words.next, ended]
  exact bind_eq_ok.mpr ⟨_, whole, if_pos all⟩

/-- Words are read if the grammar derives them, and not otherwise. There is then one derivation, and
what is read are its tokens. -/
theorem ofWords_exactly_derivable {ws : Words} {last : Lexeme} (inner : ∀ w ∈ ws, w.kind ≠ .finish)
    (ended : last.kind = .finish) (valued : Words.Valued ws) :
    ((∃ r, ofWords (ws ++ [last]) = .ok r) ↔ ∃ d : Derivation .expression, d.words = ws) ∧
    (∀ d d' : Derivation .expression, d.words = ws → d'.words = ws → d = d') ∧
    ∀ d : Derivation .expression, d.words = ws → ofWords (ws ++ [last]) = .ok d.raw := by
  refine ⟨⟨?_, ?_⟩, ?_, ?_⟩
  · rintro ⟨r, run⟩
    obtain ⟨⟨r', rest⟩, whole, run⟩ := bind_eq_ok.mp run
    obtain ⟨d, spans, _⟩ := derived (read_eq_ok.mp whole)
    refine ⟨d, read_all inner ended ?_ spans⟩
    by_contra missing
    simp only [missing, if_false] at run
    cases run
  · rintro ⟨d, derived⟩
    exact ⟨d.raw, ofWords_words_of_derivation d derived ended valued⟩
  · intro d d' derived derived'
    exact Derivation.eq_of_words (derived.trans derived'.symm)
  · intro d derived
    exact ofWords_words_of_derivation d derived ended valued

def differences : Words :=
  [⟨.identifier, "a", ⟨0, 1⟩⟩, ⟨.minus, "-", ⟨1, 2⟩⟩, ⟨.identifier, "b", ⟨2, 3⟩⟩,
    ⟨.minus, "-", ⟨3, 4⟩⟩, ⟨.number, "2", ⟨4, 5⟩⟩]

theorem valued_differences : Words.Valued differences := by
  have two : Value.read "2" = .ok (.int 2) := by decide
  simp [Words.Valued, differences, two]

theorem ofWords_exactly_derivable_differences :
    ∃ d : Derivation .expression, d.words = differences ∧
      d.raw = [.identifier "a", .identifier "b", .binary .sub, .literal (.int 2),
      .binary .sub] := by
  have exactly := @ofWords_exactly_derivable differences ⟨.finish, "", ⟨5, 5⟩⟩ (by decide)
    rfl valued_differences
  have run : ofWords (differences ++ [⟨.finish, "", ⟨5, 5⟩⟩]) = .ok [.identifier "a",
    .identifier "b", .binary .sub, .literal (.int 2), .binary .sub] := by rfl
  obtain ⟨d, derived⟩ := exactly.1.mp ⟨_, run⟩
  have same := (exactly.2.2 d derived).symm.trans run
  exact ⟨d, derived, Except.ok.inj same⟩

end Raw
end Analog
