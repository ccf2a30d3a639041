import Analog.Proofs.Parser.Wording

/-!
The grammar of expressions, in layers: a level for each strength of operators, with left recursion
up to the sixth and right recursion for powers. A derivation gives the words it derives and the
tokens they stand for. The reader, which knows no levels, follows the derivations, and finds one for
all that it reads.
-/
namespace Analog

inductive Category where
  | expression
  /-- Operators of strength `k` or more. -/
  | level (k : Nat)
  | unary
  | primary
  /-- One or more expressions with commas between them. -/
  | arguments

abbrev Word (kind : Kind) : Type := { w : Lexeme // w.kind = kind }

structure Sign where
  word : Lexeme
  op : BinaryOp
  known : word.kind.binary? = some op

/-- Derivations, with a constructor for each rule. -/
inductive Derivation : Category → Type
  | value (b : Derivation (.level 1)) : Derivation .expression
  | choice (cond : Derivation (.level 1)) (question : Word .question) (thn : Derivation .expression)
    (colon : Word .colon) (els : Derivation .expression) : Derivation .expression
  | chain {k : Nat} (left : Derivation (.level k)) (sign : Sign)
    (right : Derivation (.level (k + 1)))
    (strength : sign.op.strength = k) (low : k ≤ 6) : Derivation (.level k)
  | tighter {k : Nat} (b : Derivation (.level (k + 1))) (low : k ≤ 6) : Derivation (.level k)
  | power (base : Derivation .unary) (sign : Sign) (exponent : Derivation (.level 7))
    (pow : sign.op = .pow) : Derivation (.level 7)
  | operand (u : Derivation .unary) : Derivation (.level 7)
  | plus (sign : Word .plus) (u : Derivation .unary) : Derivation .unary
  | minus (sign : Word .minus) (u : Derivation .unary) : Derivation .unary
  | bang (sign : Word .bang) (u : Derivation .unary) : Derivation .unary
  | unsigned (p : Derivation .primary) : Derivation .unary
  | number (w : Word .number) : Derivation .primary
  | string (w : Word .string) : Derivation .primary
  | name (w : Word .identifier) : Derivation .primary
  | callEmpty (callee : Word .identifier) (opened : Word .leftParen) (closed : Word .rightParen) :
    Derivation .primary
  | call (callee : Word .identifier) (opened : Word .leftParen) (args : Derivation .arguments)
    (closed : Word .rightParen) : Derivation .primary
  | brackets (opened : Word .leftParen) (e : Derivation .expression) (closed : Word .rightParen) :
    Derivation .primary
  | last (e : Derivation .expression) : Derivation .arguments
  | more (e : Derivation .expression) (comma : Word .comma) (others : Derivation .arguments) :
    Derivation .arguments

/-- The token of a literal; one that has no value gives none. -/
def Lexeme.literal (w : Lexeme) : Raw :=
  match Value.read w.text with
  | .ok v => [.literal v]
  | .error _ => []

/-- Numbers and strings have values. -/
def Words.Valued (ws : Words) : Prop :=
  ∀ w ∈ ws, w.kind = .number ∨ w.kind = .string → ∃ v, Value.read w.text = .ok v

theorem Words.valued_append {ws us : Words} : Words.Valued (ws ++ us) ↔ Words.Valued ws ∧
    Words.Valued us :=
  List.forall_mem_append

theorem Words.valued_cons {w : Lexeme} {ws : Words} (h : Words.Valued (w :: ws)) :
    Words.Valued ws :=
  fun u mem => h u (List.mem_cons_of_mem w mem)

namespace Derivation

/-- The words that are derived. -/
def words : {c : Category} → Derivation c → Words
  | _, .value b => b.words
  | _, .choice cond question thn colon els =>
    cond.words ++ question.1 :: (thn.words ++ colon.1 :: els.words)
  | _, .chain left sign right _ _ => left.words ++ sign.word :: right.words
  | _, .tighter b _ => b.words
  | _, .power base sign exponent _ => base.words ++ sign.word :: exponent.words
  | _, .operand u => u.words
  | _, .plus sign u => sign.1 :: u.words
  | _, .minus sign u => sign.1 :: u.words
  | _, .bang sign u => sign.1 :: u.words
  | _, .unsigned p => p.words
  | _, .number w => [w.1]
  | _, .string w => [w.1]
  | _, .name w => [w.1]
  | _, .callEmpty callee opened closed => [callee.1, opened.1, closed.1]
  | _, .call callee opened args closed => callee.1 :: opened.1 :: (args.words ++ [closed.1])
  | _, .brackets opened e closed => opened.1 :: (e.words ++ [closed.1])
  | _, .last e => e.words
  | _, .more e comma others => e.words ++ comma.1 :: others.words

/-- The tokens in postfix order. -/
def raw : {c : Category} → Derivation c → Raw
  | _, .value b => b.raw
  | _, .choice cond _ thn _ els => cond.raw ++ [.ternary thn.raw els.raw]
  | _, .chain left sign right _ _ => left.raw ++ right.raw ++ [.binary sign.op]
  | _, .tighter b _ => b.raw
  | _, .power base sign exponent _ => base.raw ++ exponent.raw ++ [.binary sign.op]
  | _, .operand u => u.raw
  | _, .plus _ u => u.raw
  | _, .minus _ u => u.raw ++ [.unary .neg]
  | _, .bang _ u => u.raw ++ [.unary .not]
  | _, .unsigned p => p.raw
  | _, .number w => w.1.literal
  | _, .string w => w.1.literal
  | _, .name w => [.identifier w.1.text]
  | _, .callEmpty callee _ _ => [.marker, .arguments, .identifier callee.1.text]
  | _, .call callee _ args _ => .marker :: args.raw ++ [.arguments, .identifier callee.1.text]
  | _, .brackets _ e _ => e.raw
  | _, .last e => e.raw
  | _, .more e _ others => e.raw ++ others.raw

end Derivation

def Category.heads : Category → List Kind
  | .primary => [.number, .string, .identifier, .leftParen]
  | _ => [.number, .string, .identifier, .leftParen, .plus, .minus, .bang]

theorem Category.heads_primary {c : Category} {kind : Kind} (h : kind ∈ Category.primary.heads) :
    kind ∈ c.heads := by
  cases c <;> simp only [Category.heads, List.mem_cons] at h ⊢ <;> tauto

theorem Derivation.head_words {c : Category} (d : Derivation c) :
    ∃ w ws, d.words = w :: ws ∧ w.kind ∈ c.heads := by
  induction d with
  | value b ih => exact ih
  | choice cond question thn colon els ih _ _ | chain left sign right strength low ih _ =>
    obtain ⟨w, ws, same, head⟩ := ih
    exact ⟨w, _, congrArg (· ++ _) same, head⟩
  | tighter b low ih => exact ih
  | power base sign exponent pow ih _ =>
    obtain ⟨w, ws, same, head⟩ := ih
    exact ⟨w, _, congrArg (· ++ _) same, head⟩
  | operand u ih => exact ih
  | plus sign u | minus sign u | bang sign u => exact ⟨sign.1, _, rfl, by rw [sign.2]; decide⟩
  | unsigned p ih =>
    obtain ⟨w, ws, same, head⟩ := ih
    exact ⟨w, ws, same, Category.heads_primary head⟩
  | number w | string w | name w => exact ⟨w.1, _, rfl, by rw [w.2]; decide⟩
  | callEmpty callee opened closed | call callee opened args closed =>
    exact ⟨callee.1, _, rfl, by rw [callee.2]; decide⟩
  | brackets opened e closed => exact ⟨opened.1, _, rfl, by rw [opened.2]; decide⟩
  | last e ih => exact ih
  | more e comma others ih _ =>
    obtain ⟨w, ws, same, head⟩ := ih
    exact ⟨w, _, congrArg (· ++ _) same, head⟩

theorem Derivation.not_follows {c : Category} (d : Derivation c) {kind : Kind}
    (other : kind ∉ c.heads) (rest : Words) : Words.follows (d.words ++ rest) kind = false := by
  obtain ⟨w, ws, same, head⟩ := d.head_words
  have apart : w.kind ≠ kind := fun equal => other (equal ▸ head)
  simpa [same, Words.follows, Words.next] using apart

theorem Sign.stops (sign : Sign) {bound : Nat} (weak : sign.op.strength < bound) (rest : Words) :
    Raw.Stops bound (sign.word :: rest) := by
  refine ⟨?_, fun op known => ?_⟩
  · have bracketless : sign.word.kind ≠ .leftParen := by
      intro kind
      have known := sign.known
      rw [kind] at known
      cases known
    simpa [Words.follows, Words.next] using bracketless
  · have same : some sign.op = some op := sign.known.symm.trans known
    cases same
    exact weak

theorem BinaryOp.rightBound_of_low {op : BinaryOp} (low : op.strength ≤ 6) :
    op.rightBound = op.strength + 1 := by
  revert low
  cases op <;> decide

namespace Raw

/-- What the reader makes of the words of a derivation, for each category. At a level, what follows
may go on with operators of no more than its strength. -/
def Follows : {c : Category} → Derivation c → Prop
  | .expression, d => ∀ rest, Ends rest → Reads .expression (d.words ++ rest) d.raw rest
  | .level k, d => ∀ bound out rest rest', bound ≤ k → Stops (min (k + 1) 7) rest →
    Reads (.operators bound d.raw) rest out rest' →
      Reads (.binary bound) (d.words ++ rest) out rest'
  | .unary, d =>
    ∀ rest, Words.follows rest .leftParen = false → Reads .unary (d.words ++ rest) d.raw rest
  | .primary, d => ∀ rest, Words.follows rest .leftParen = false →
    Reads .primary (d.words ++ rest) d.raw rest
  | .arguments, d => ∀ rest, Words.follows rest .rightParen = true →
    Reads .arguments (d.words ++ rest) d.raw rest

theorem reads_complete {k bound : Nat} {d : Derivation (.level k)} (follows : Follows d)
    (le : bound ≤ k) (high : bound ≤ 7) {rest : Words} (stops : Stops bound rest) :
    Reads (.binary bound) (d.words ++ rest) d.raw rest :=
  follows bound d.raw rest rest le (stops.mono (le_min (le.trans (Nat.le_succ k)) high))
    (.stop stops.weak)

theorem follows_chain {k : Nat} {left : Derivation (.level k)} {sign : Sign}
    {right : Derivation (.level (k + 1))} (strength : sign.op.strength = k) (low : k ≤ 6)
    (first : Follows left) (second : Follows right) :
    Follows (.chain left sign right strength low) := by
  intro bound out rest rest' le stops more
  rw [min_eq_left (by omega)] at stops
  change Reads _ (_ ++ _ ++ rest) _ _
  rw [List.append_assoc]
  refine first bound out _ rest' le ?_ ?_
  · rw [min_eq_left (by omega)]
    exact sign.stops (by omega) _
  · have tight : sign.op.rightBound = k + 1 := by
      rw [BinaryOp.rightBound_of_low (strength ▸ low), strength]
    refine .operator sign.known (strength.symm ▸ le) ?_ more
    rw [tight]
    exact reads_complete second le_rfl (by omega) stops

theorem follows_power {base : Derivation .unary} {sign : Sign} {exponent : Derivation (.level 7)}
    (pow : sign.op = .pow) (first : Follows base) (second : Follows exponent) :
    Follows (.power base sign exponent pow) := by
  intro bound out rest rest' le stops more
  have strength : sign.op.strength = 7 := by rw [pow]; rfl
  have tight : sign.op.rightBound = 7 := by rw [pow]; rfl
  change Reads _ (_ ++ _ ++ rest) _ _
  rw [List.append_assoc]
  refine .binary (first _ (sign.stops (Nat.lt_succ_self _) _).apart) ?_
  refine .operator sign.known (strength.symm ▸ le) ?_ more
  rw [tight]
  exact reads_complete second le_rfl le_rfl stops

theorem follows_choice {cond : Derivation (.level 1)} {question : Word .question}
    {thn els : Derivation .expression} {colon : Word .colon} (first : Follows cond)
    (second : Follows thn) (third : Follows els) :
    Follows (.choice cond question thn colon els) := by
  intro rest ends
  have stops : Stops 1 (question.1 :: (thn.words ++ colon.1 :: (els.words ++ rest))) := by
    constructor
    · simp [Words.follows, Words.next, question.2]
    · simp [Words.next, question.2, Kind.binary?]
  change Reads _ (_ ++ _ :: (_ ++ _ :: _) ++ rest) _ _
  simp only [List.append_assoc, List.cons_append]
  exact .choice (reads_complete first le_rfl (by decide) stops) question.2
    (second _ (ends_of_kind (by simp [colon.2]))) colon.2 (third rest ends)

theorem follows_literal {w : Lexeme} (kind : w.kind = .number ∨ w.kind = .string)
    (valued : Words.Valued [w]) (rest : Words) : Reads .primary (w :: rest) w.literal rest := by
  obtain ⟨v, value⟩ := valued w (List.mem_singleton_self w) kind
  have token : w.literal = [.literal v] := by rw [Lexeme.literal, value]
  rw [token]
  exact .literal kind value

theorem follows {c : Category} (d : Derivation c) (valued : Words.Valued d.words) : Follows d := by
  induction d with
  | value b ih =>
    intro rest ends
    exact .value (reads_complete (ih valued) le_rfl (by decide) (ends.stops.mono (Nat.zero_le 1)))
      ends.closed
  | choice cond question thn colon els ihc iht ihe =>
    obtain ⟨first, others⟩ := Words.valued_append.mp valued
    obtain ⟨second, third⟩ := Words.valued_append.mp (Words.valued_cons others)
    exact follows_choice (ihc first) (iht second) (ihe (Words.valued_cons third))
  | chain left sign right strength low ihl ihr =>
    obtain ⟨first, second⟩ := Words.valued_append.mp valued
    exact follows_chain strength low (ihl first) (ihr (Words.valued_cons second))
  | @tighter k b low ih =>
    intro bound out rest rest' le stops more
    exact ih valued bound out rest rest' (by omega) (stops.mono (by omega)) more
  | power base sign exponent pow ihb ihe =>
    obtain ⟨first, second⟩ := Words.valued_append.mp valued
    exact follows_power pow (ihb first) (ihe (Words.valued_cons second))
  | operand u ih =>
    intro bound out rest rest' le stops more
    exact .binary (ih valued rest stops.apart) more
  | plus sign u ih =>
    exact fun rest apart => .plus sign.2 (ih (Words.valued_cons valued) rest apart)
  | minus sign u ih =>
    exact fun rest apart => @Reads.sign .neg _ _ _ _ sign.2
      (ih (Words.valued_cons valued) rest apart)
  | bang sign u ih =>
    exact fun rest apart => @Reads.sign .not _ _ _ _ sign.2
      (ih (Words.valued_cons valued) rest apart)
  | unsigned p ih =>
    intro rest apart
    refine .unsigned ?_ (ih valued rest apart)
    simp only [List.mem_cons, List.not_mem_nil, or_false, forall_eq_or_imp, forall_eq]
    exact ⟨p.not_follows (by decide) rest, p.not_follows (by decide) rest,
      p.not_follows (by decide) rest⟩
  | number w => exact fun rest _ => follows_literal (.inl w.2) valued rest
  | string w => exact fun rest _ => follows_literal (.inr w.2) valued rest
  | name w => exact fun rest apart => .name w.2 apart
  | callEmpty callee opened closed =>
    intro rest _
    refine .call callee.2 opened.2 (.none ?_) closed.2
    simp [Words.follows, Words.next, closed.2]
  | call callee opened args closed ih =>
    intro rest _
    have inner := (Words.valued_append.mp (Words.valued_cons (Words.valued_cons valued))).1
    have ended : Words.follows (closed.1 :: rest) .rightParen = true := by
      simp [Words.follows, Words.next, closed.2]
    simp only [Derivation.words, List.cons_append, List.append_assoc, List.nil_append]
    exact .call callee.2 opened.2
      (.some (args.not_follows (by decide) _) (ih inner (closed.1 :: rest) ended)) closed.2
  | brackets opened e closed ih =>
    intro rest _
    have inner := (Words.valued_append.mp (Words.valued_cons valued)).1
    simp only [Derivation.words, List.cons_append, List.append_assoc, List.nil_append]
    exact .brackets opened.2 (ih inner _ (ends_of_kind (by simp [closed.2]))) closed.2
  | last e ih =>
    intro rest closed
    cases rest with
    | nil => cases closed
    | cons w rest =>
      have kind : w.kind = .rightParen := by simpa [Words.follows, Words.next] using closed
      exact .last (ih valued _ (ends_of_kind (by simp [kind])))
        (by simp [Words.follows, Words.next, kind])
  | more e comma others ihe iho =>
    intro rest closed
    obtain ⟨first, second⟩ := Words.valued_append.mp valued
    rw [Derivation.words, List.append_assoc]
    exact .more (ihe first _ (ends_of_kind (by simp [comma.2]))) comma.2
      (iho (Words.valued_cons second) rest closed)

theorem weak_after {ws rest : Words} {r : Raw} {part : Part} (reads : Reads part ws r rest)
    {bound : Nat} (binary : part = .binary bound ∨ ∃ left, part = .operators bound left) :
    ∀ op, (Words.next rest).kind.binary? = some op → op.strength < bound := by
  induction reads with
  | binary first more _ ih =>
    obtain same | ⟨_, same⟩ := binary
    · cases same
      exact ih (.inr ⟨_, rfl⟩)
    · cases same
  | stop weak =>
    obtain same | ⟨_, same⟩ := binary
    · cases same
    · cases same
      exact weak
  | operator known strong operand more _ ih =>
    obtain same | ⟨_, same⟩ := binary
    · cases same
    · cases same
      exact ih (.inr ⟨_, rfl⟩)
  | _ =>
    obtain same | ⟨_, same⟩ := binary
    · cases same
    · cases same

end Raw

namespace Derivation

def Spans {c : Category} (d : Derivation c) (ws : Words) (r : Raw) (rest : Words) : Prop :=
  d.words ++ rest = ws ∧ d.raw = r

theorem lift {j k : Nat} (le : k ≤ j) (high : j ≤ 7) (d : Derivation (.level j)) :
    ∃ d' : Derivation (.level k), d'.words = d.words ∧ d'.raw = d.raw := by
  induction j, le using Nat.le_induction with
  | base => exact ⟨d, rfl, rfl⟩
  | succ j le ih => exact ih (by omega) (.tighter d (by omega))

end Derivation

namespace Raw

/-- What the reader makes of words comes from a derivation. An operand that may be followed by
stronger operators than those of its level is unary, and the level it is of is then open. -/
def Part.Derived : Part → Words → Raw → Words → Prop
  | .expression, ws, r, rest => ∃ d : Derivation .expression, d.Spans ws r rest
  | .binary bound, ws, r, rest => bound ≤ 7 → ∃ d : Derivation (.level bound), d.Spans ws r rest
  | .operators bound left, ws, r, rest => bound ≤ 7 → ∀ before,
    (∀ u : Derivation .unary, u.Spans before left ws →
      ∃ d : Derivation (.level bound), d.Spans before r rest) ∧
    ∀ j (l : Derivation (.level j)), bound ≤ j → j ≤ 7 → l.Spans before left ws →
      (∀ op, (Words.next ws).kind.binary? = some op → op.strength < min (j + 1) 7) →
      ∃ d : Derivation (.level bound), d.Spans before r rest
  | .unary, ws, r, rest => ∃ d : Derivation .unary, d.Spans ws r rest
  | .primary, ws, r, rest => ∃ d : Derivation .primary, d.Spans ws r rest
  | .list, ws, r, rest => (ws = rest ∧ r = []) ∨ ∃ d : Derivation .arguments, d.Spans ws r rest
  | .arguments, ws, r, rest => ∃ d : Derivation .arguments, d.Spans ws r rest

theorem derived_stop {bound : Nat} {left : Raw} {ws : Words} :
    (Part.operators bound left).Derived ws left ws := by
  intro high before
  have closed (j : Nat) (l : Derivation (.level j)) (le : bound ≤ j) (top : j ≤ 7)
      (spans : l.Spans before left ws) : ∃ d : Derivation (.level bound),
        d.Spans before left ws := by
    obtain ⟨d, words, raw⟩ := l.lift le top
    exact ⟨d, words.symm ▸ spans.1, raw.trans spans.2⟩
  exact ⟨fun u spans => closed 7 (.operand u) high le_rfl spans,
    fun j l le top spans _ => closed j l le top spans⟩

theorem derived_operator {bound : Nat} {left right r : Raw} {w : Lexeme} {ws ws₁ rest : Words}
    {op : BinaryOp} (known : w.kind.binary? = some op) (strong : bound ≤ op.strength)
    (operand : Reads (.binary op.rightBound) ws right ws₁)
    (second : (Part.binary op.rightBound).Derived ws right ws₁)
    (more : (Part.operators bound (left ++ right ++ [.binary op])).Derived ws₁ r rest) :
    (Part.operators bound left).Derived (w :: ws) r rest := by
  intro high before
  have weak := weak_after operand (.inl rfl)
  -- A left operand that has a level of its own takes an operator no stronger than that level.
  have chained (j : Nat) (l : Derivation (.level j)) (top : j ≤ 7)
      (spans : l.Spans before left (w :: ws))
      (le : op.strength < min (j + 1) 7) : ∃ d : Derivation (.level bound),
        d.Spans before r rest := by
    have low : op.strength ≤ 6 := by omega
    rw [BinaryOp.rightBound_of_low low] at second weak
    obtain ⟨l', words, raw⟩ := l.lift (k := op.strength) (by omega) top
    obtain ⟨d, ended, same⟩ := second (by omega)
    refine (more high before).2 op.strength (.chain l' ⟨w, op, known⟩ d rfl low) strong
      (by omega) ⟨?_, ?_⟩ ?_
    · simp only [Derivation.words, List.append_assoc, List.cons_append, ended, words]
      exact spans.1
    · simp only [Derivation.raw, raw, spans.2, same]
    · rw [min_eq_left (by omega)]
      exact weak
  refine ⟨fun u spans => ?_, fun j l le top spans before => chained j l top spans (before op known)⟩
  by_cases low : op.strength < 7
  · exact chained 7 (.operand u) le_rfl spans low
  · have pow : op = .pow := by
      revert low
      cases op <;> decide
    have tight : op.rightBound = 7 := by rw [pow]; rfl
    rw [tight] at second weak
    obtain ⟨d, ended, same⟩ := second le_rfl
    refine (more high before).2 7 (.power u ⟨w, op, known⟩ d pow) high le_rfl ⟨?_, ?_⟩ weak
    · simp only [Derivation.words, List.append_assoc, List.cons_append, ended]
      exact spans.1
    · simp only [Derivation.raw, spans.2, same]

theorem derived {part : Part} {ws rest : Words} {r : Raw} (reads : Reads part ws r rest) :
    part.Derived ws r rest := by
  induction reads with
  | @choice ws ws₁ ws₂ ws₃ cond thn els w w' first question second colon third ihc iht ihe =>
    obtain ⟨c, rfl, rfl⟩ := ihc (by decide)
    obtain ⟨t, rfl, rfl⟩ := iht
    obtain ⟨e, rfl, rfl⟩ := ihe
    exact ⟨.choice c ⟨w, question⟩ t ⟨w', colon⟩ e, by simp [Derivation.words], rfl⟩
  | value only closed ih =>
    obtain ⟨b, rfl, rfl⟩ := ih (by decide)
    exact ⟨.value b, rfl, rfl⟩
  | binary first more ihf ihm =>
    intro high
    obtain ⟨u, spans⟩ := ihf
    exact (ihm high _).1 u spans
  | stop weak => exact derived_stop
  | operator known strong operand more iho ihm =>
    exact derived_operator known strong operand iho ihm
  | @plus w ws rest r kind operand ih =>
    obtain ⟨u, rfl, rfl⟩ := ih
    exact ⟨.plus ⟨w, kind⟩ u, rfl, rfl⟩
  | @sign op w ws rest r kind operand ih =>
    obtain ⟨u, rfl, rfl⟩ := ih
    cases op with
    | neg => exact ⟨.minus ⟨w, kind⟩ u, rfl, rfl⟩
    | not => exact ⟨.bang ⟨w, kind⟩ u, rfl, rfl⟩
  | unsigned plain operand ih =>
    obtain ⟨p, rfl, rfl⟩ := ih
    exact ⟨.unsigned p, rfl, rfl⟩
  | @brackets w w' ws rest r opened inner closed ih =>
    obtain ⟨e, rfl, rfl⟩ := ih
    exact ⟨.brackets ⟨w, opened⟩ e ⟨w', closed⟩, by simp [Derivation.words], rfl⟩
  | @literal w rest v kind value =>
    have token : w.literal = [.literal v] := by rw [Lexeme.literal, value]
    obtain number | string := kind
    · exact ⟨.number ⟨w, number⟩, rfl, token⟩
    · exact ⟨.string ⟨w, string⟩, rfl, token⟩
  | @name w rest kind apart => exact ⟨.name ⟨w, kind⟩, rfl, rfl⟩
  | @call w w₁ w₂ ws rest args kind opened inner closed ih =>
    obtain ⟨rfl, rfl⟩ | ⟨d, rfl, rfl⟩ := ih
    · exact ⟨.callEmpty ⟨w, kind⟩ ⟨w₁, opened⟩ ⟨w₂, closed⟩, rfl, rfl⟩
    · exact ⟨.call ⟨w, kind⟩ ⟨w₁, opened⟩ d ⟨w₂, closed⟩, by simp [Derivation.words], rfl⟩
  | none closed => exact .inl ⟨rfl, rfl⟩
  | some filled items ih => exact .inr ih
  | last only closed ih =>
    obtain ⟨e, rfl, rfl⟩ := ih
    exact ⟨.last e, rfl, rfl⟩
  | @more w ws ws₁ rest r more first comma others ihe iho =>
    obtain ⟨e, rfl, rfl⟩ := ihe
    obtain ⟨d, rfl, rfl⟩ := iho
    exact ⟨.more e ⟨w, comma⟩ d, by simp [Derivation.words], rfl⟩

end Raw
end Analog
