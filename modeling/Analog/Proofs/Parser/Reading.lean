import Mathlib
import Analog.Raw.Parser

/-!
What reading an expression does, said without a bound on the nesting of readings. The bound that the
reader starts with is never met: it reads what the relation reads, and nothing else.
-/
namespace Analog

def UnaryOp.kind : UnaryOp → Kind
  | .neg => .minus
  | .not => .bang

namespace Raw

/-- The parts of an expression that are read in ways of their own. -/
inductive Part where
  | expression
  /-- Operators of strength `bound` or more. -/
  | binary (bound : Nat)
  /-- What follows the operand `left` among operators of strength `bound` or more. -/
  | operators (bound : Nat) (left : Raw)
  | unary
  | primary
  /-- What stands between the brackets of a call. -/
  | list
  /-- One or more arguments. -/
  | arguments

/-- The tokens that a part of an expression gives, and the words after it. -/
inductive Reads : Part → Words → Raw → Words → Prop
  | choice {ws ws₁ ws₂ ws₃ : Words} {cond thn els : Raw} {w w' : Lexeme}
    (first : Reads (.binary 1) ws cond (w :: ws₁)) (question : w.kind = .question)
    (second : Reads .expression ws₁ thn (w' :: ws₂)) (colon : w'.kind = .colon)
    (third : Reads .expression ws₂ els ws₃) : Reads .expression ws (cond ++ [.ternary thn els]) ws₃
  | value {ws rest : Words} {r : Raw} (only : Reads (.binary 1) ws r rest)
    (closed : Words.follows rest .question = false) : Reads .expression ws r rest
  | binary {bound : Nat} {ws ws₁ rest : Words} {left r : Raw} (first : Reads .unary ws left ws₁)
    (more : Reads (.operators bound left) ws₁ r rest) : Reads (.binary bound) ws r rest
  | stop {bound : Nat} {left : Raw} {ws : Words}
    (weak : ∀ op, (Words.next ws).kind.binary? = some op → op.strength < bound) :
    Reads (.operators bound left) ws left ws
  | operator {bound : Nat} {left right r : Raw} {w : Lexeme} {ws ws₁ rest : Words} {op : BinaryOp}
    (known : w.kind.binary? = some op) (strong : bound ≤ op.strength)
    (operand : Reads (.binary op.rightBound) ws right ws₁)
    (more : Reads (.operators bound (left ++ right ++ [.binary op])) ws₁ r rest) :
    Reads (.operators bound left) (w :: ws) r rest
  | plus {w : Lexeme} {ws rest : Words} {r : Raw} (kind : w.kind = .plus)
    (operand : Reads .unary ws r rest) : Reads .unary (w :: ws) r rest
  | sign {op : UnaryOp} {w : Lexeme} {ws rest : Words} {r : Raw} (kind : w.kind = op.kind)
    (operand : Reads .unary ws r rest) : Reads .unary (w :: ws) (r ++ [.unary op]) rest
  | unsigned {ws rest : Words} {r : Raw}
    (plain : ∀ kind ∈ [Kind.plus, .minus, .bang], Words.follows ws kind = false)
    (operand : Reads .primary ws r rest) : Reads .unary ws r rest
  | brackets {w w' : Lexeme} {ws rest : Words} {r : Raw} (opened : w.kind = .leftParen)
    (inner : Reads .expression ws r (w' :: rest)) (closed : w'.kind = .rightParen) :
    Reads .primary (w :: ws) r rest
  | literal {w : Lexeme} {rest : Words} {v : Value} (kind : w.kind = .number ∨ w.kind = .string)
    (value : Value.read w.text = .ok v) : Reads .primary (w :: rest) [.literal v] rest
  | name {w : Lexeme} {rest : Words} (kind : w.kind = .identifier)
    (apart : Words.follows rest .leftParen = false) :
    Reads .primary (w :: rest) [.identifier w.text] rest
  | call {w w₁ w₂ : Lexeme} {ws rest : Words} {args : Raw} (kind : w.kind = .identifier)
    (opened : w₁.kind = .leftParen) (inner : Reads .list ws args (w₂ :: rest))
    (closed : w₂.kind = .rightParen) :
    Reads .primary (w :: w₁ :: ws) (.marker :: args ++ [.arguments, .identifier w.text]) rest
  | none {ws : Words} (closed : Words.follows ws .rightParen = true) : Reads .list ws [] ws
  | some {ws rest : Words} {r : Raw} (filled : Words.follows ws .rightParen = false)
    (items : Reads .arguments ws r rest) : Reads .list ws r rest
  | last {ws rest : Words} {r : Raw} (only : Reads .expression ws r rest)
    (closed : Words.follows rest .comma = false) : Reads .arguments ws r rest
  | more {w : Lexeme} {ws ws₁ rest : Words} {r more : Raw}
    (first : Reads .expression ws r (w :: ws₁))
    (comma : w.kind = .comma) (others : Reads .arguments ws₁ more rest) :
    Reads .arguments ws (r ++ more) rest

namespace Part

/-- The reader of a part, with a bound on the nesting of readings. -/
def read (fuel : Nat) : Part → Words → Reading
  | .expression, ws => readFuel fuel ws
  | .binary bound, ws => readBinary fuel bound ws
  | .operators bound left, ws => readOperators fuel bound left ws
  | .unary, ws => readUnary fuel ws
  | .primary, ws => readPrimary fuel ws
  | .list, ws => if Words.follows ws .rightParen then .ok ([], ws) else readArguments fuel ws
  | .arguments, ws => readArguments fuel ws

end Part

theorem bind_eq_ok {ε α β : Type} {act : Except ε α} {next : α → Except ε β} {b : β} :
    (act >>= next) = .ok b ↔ ∃ a, act = .ok a ∧ next a = .ok b := by
  cases act with
  | ok a | error e => simp [Bind.bind, Except.bind]

theorem bind_ite {ε α β : Type} (b : Bool) (x y : Except ε α) (next : α → Except ε β) :
    ((if b then x else y) >>= next) = if b then x >>= next else y >>= next := by
  cases b <;> rfl

theorem require_eq_ok {ws rest : Words} {w : Lexeme} {kind : Kind} {message : String} :
    Words.require ws kind message = .ok (w, rest) ↔ ws = w :: rest ∧ w.kind = kind := by
  unfold Words.require
  split
  · split
    · rename_i same
      simp only [Except.ok.injEq, Prod.mk.injEq, List.cons.injEq]
      constructor
      · rintro ⟨rfl, rfl⟩
        exact ⟨⟨rfl, rfl⟩, beq_iff_eq.mp same⟩
      · exact fun h => h.1
    · rename_i other
      simp only [Words.fail, reduceCtorEq, List.cons.injEq, false_iff, not_and, and_imp]
      rintro rfl rfl
      simpa using other
  · simp [Words.fail]

theorem follows_eq_false {ws : Words} {kind : Kind} (inner : kind ≠ .finish)
    (other : ∀ text span rest, ws = ⟨kind, text, span⟩ :: rest → False) :
    Words.follows ws kind = false := by
  cases ws with
  | nil => simpa [Words.follows, Words.next] using inner.symm
  | cons w rest =>
    obtain ⟨k, text, span⟩ := w
    have apart : k ≠ kind := by
      rintro rfl
      exact other text span rest rfl
    simpa [Words.follows, Words.next] using apart

theorem reads_literal {w : Lexeme} {ws rest : Words} {r : Raw}
    (kind : w.kind = .number ∨ w.kind = .string) (run : readLiteral w ws = .ok (r, rest)) :
    Reads .primary (w :: ws) r rest := by
  unfold readLiteral at run
  split at run
  · rename_i v value
    cases run
    exact .literal kind value
  · cases run

section Bounded

variable {fuel : Nat} {ws rest : Words} {r : Raw}
  (ih : ∀ part ws r rest, Part.read fuel part ws = .ok (r, rest) → Reads part ws r rest)

include ih

theorem reads_expression (run : readFuel (fuel + 1) ws = .ok (r, rest)) :
    Reads .expression ws r rest := by
  rw [readFuel] at run
  obtain ⟨⟨cond, ws₁⟩, first, run⟩ := bind_eq_ok.mp run
  have condition := ih (.binary 1) ws cond ws₁ first
  dsimp only at run
  split at run
  · rename_i text span ws₂
    obtain ⟨⟨thn, ws₃⟩, second, run⟩ := bind_eq_ok.mp run
    obtain ⟨⟨w, ws₄⟩, colon, run⟩ := bind_eq_ok.mp run
    obtain ⟨⟨els, ws₅⟩, third, run⟩ := bind_eq_ok.mp run
    obtain ⟨rfl, kind⟩ := require_eq_ok.mp colon
    cases run
    exact .choice condition rfl (ih .expression _ _ _ second) kind (ih .expression _ _ _ third)
  · rename_i other
    cases run
    exact .value condition (follows_eq_false (by decide) other)

theorem reads_binary {bound : Nat} (run : readBinary (fuel + 1) bound ws = .ok (r, rest)) :
    Reads (.binary bound) ws r rest := by
  rw [readBinary] at run
  obtain ⟨⟨left, ws₁⟩, first, more⟩ := bind_eq_ok.mp run
  exact .binary (ih .unary _ _ _ first) (ih (.operators bound left) _ _ _ more)

theorem reads_operators {bound : Nat} {left : Raw}
    (run : readOperators (fuel + 1) bound left ws = .ok (r, rest)) :
    Reads (.operators bound left) ws r rest := by
  rw [readOperators] at run
  split at run
  · rename_i none
    cases run
    exact .stop fun op known => by simp [none] at known
  · rename_i op known
    split at run
    · rename_i weak
      cases run
      exact .stop fun op' known' => by simp_all
    · rename_i strong
      obtain ⟨⟨right, ws₁⟩, operand, more⟩ := bind_eq_ok.mp run
      cases ws with
      | nil => cases known
      | cons w ws =>
        exact .operator known (not_lt.mp strong) (ih (.binary _) _ _ _ operand)
          (ih (.operators bound _) _ _ _ more)

theorem reads_unary (run : readUnary (fuel + 1) ws = .ok (r, rest)) : Reads .unary ws r rest := by
  unfold readUnary at run
  split at run
  case h_1 => exact .plus rfl (ih .unary _ _ _ run)
  case h_2 | h_3 =>
    obtain ⟨⟨x, ws₁⟩, operand, run⟩ := bind_eq_ok.mp run
    cases run
    exact .sign rfl (ih .unary _ _ _ operand)
  case h_4 noPlus noMinus noBang =>
    refine .unsigned ?_ (ih .primary _ _ _ run)
    simp only [List.mem_cons, List.not_mem_nil, or_false, forall_eq_or_imp, forall_eq]
    exact ⟨follows_eq_false (by decide) noPlus, follows_eq_false (by decide) noMinus,
      follows_eq_false (by decide) noBang⟩

theorem reads_primary (run : readPrimary (fuel + 1) ws = .ok (r, rest)) :
    Reads .primary ws r rest := by
  unfold readPrimary at run
  split at run
  · obtain ⟨⟨x, ws₁⟩, inner, after⟩ := bind_eq_ok.mp run
    obtain ⟨⟨w, ws₂⟩, closed, last⟩ := bind_eq_ok.mp after
    obtain ⟨rfl, kind⟩ := require_eq_ok.mp closed
    cases last
    exact .brackets rfl (ih .expression _ _ _ inner) kind
  · exact reads_literal (.inl rfl) run
  · exact reads_literal (.inr rfl) run
  · obtain ⟨⟨args, ws₁⟩, inner, after⟩ := bind_eq_ok.mp ((bind_ite _ _ _ _).trans run)
    obtain ⟨⟨w, ws₂⟩, closed, last⟩ := bind_eq_ok.mp after
    obtain ⟨rfl, kind⟩ := require_eq_ok.mp closed
    cases last
    exact .call rfl rfl (ih .list _ _ _ inner) kind
  · rename_i noBracket
    cases run
    exact .name rfl (follows_eq_false (by decide) noBracket)
  · cases run

theorem reads_arguments (run : readArguments (fuel + 1) ws = .ok (r, rest)) :
    Reads .arguments ws r rest := by
  rw [readArguments] at run
  obtain ⟨⟨first, ws₁⟩, one, run⟩ := bind_eq_ok.mp run
  dsimp only at run
  split at run
  · obtain ⟨⟨more, ws₂⟩, others, run⟩ := bind_eq_ok.mp run
    cases run
    exact .more (ih .expression _ _ _ one) rfl (ih .arguments _ _ _ others)
  · rename_i noComma
    cases run
    exact .last (ih .expression _ _ _ one) (follows_eq_false (by decide) noComma)

end Bounded

theorem reads_of_read (fuel : Nat) (part : Part) (ws : Words) (r : Raw) (rest : Words)
    (run : part.read fuel ws = .ok (r, rest)) : Reads part ws r rest := by
  induction fuel generalizing part ws r rest with
  | zero =>
    cases part with
    | list =>
      rw [Part.read] at run
      split at run
      · rename_i closed
        cases run
        exact .none closed
      · cases run
    | _ => cases run
  | succ fuel ih =>
    cases part with
    | expression => exact reads_expression ih run
    | binary bound => exact reads_binary ih run
    | operators bound left => exact reads_operators ih run
    | unary => exact reads_unary ih run
    | primary => exact reads_primary ih run
    | arguments => exact reads_arguments ih run
    | list =>
      rw [Part.read] at run
      split at run
      · rename_i closed
        cases run
        exact .none closed
      · rename_i filled
        exact .some (Bool.not_eq_true _ ▸ filled) (reads_arguments ih run)

def Part.least : Part → Nat
  | .operators _ _ => 0
  | .list => 0
  | _ => 1

def Part.slack : Part → Nat
  | .expression => 4
  | .binary _ => 3
  | .operators _ _ => 1
  | .unary => 2
  | .primary => 1
  | .list => 5
  | .arguments => 5

theorem Reads.length {part : Part} {ws rest : Words} {r : Raw} (h : Reads part ws r rest) :
    rest.length + part.least ≤ ws.length := by
  induction h <;> simp only [Part.least, List.length_cons] at * <;> omega

theorem Part.exists_succ {part : Part} {n fuel : Nat} (enough : 4 * n + part.slack ≤ fuel) :
    ∃ k, fuel = k + 1 := by
  refine ⟨fuel - 1, ?_⟩
  cases part <;> simp only [Part.slack] at enough <;> omega

theorem readPrimary_name {fuel : Nat} {text : String} {span : Span} {rest : Words}
    (apart : Words.follows rest .leftParen = false) :
    readPrimary (fuel + 1) (⟨.identifier, text, span⟩ :: rest) =
    .ok ([.identifier text], rest) := by
  unfold readPrimary
  split
  case h_1 same | h_2 same | h_3 same => cases same
  case h_4 same =>
    cases same
    cases apart
  case h_5 same =>
    cases same
    rfl
  case h_6 other => exact absurd rfl (other _ _ _)

theorem Reads.read {part : Part} {ws rest : Words} {r : Raw} (h : Reads part ws r rest) (fuel : Nat)
    (enough : 4 * ws.length + part.slack ≤ fuel) : part.read fuel ws = .ok (r, rest) := by
  induction h generalizing fuel with
  | @choice ws ws₁ ws₂ ws₃ cond thn els w w' first question second colon third ihf ihs iht =>
    have passed := first.length
    have passed' := second.length
    obtain ⟨fuel, rfl⟩ := Part.exists_succ enough
    simp only [Part.least, Part.slack, List.length_cons] at passed passed' enough ihf ihs iht
    obtain ⟨kind, text, span⟩ := w
    obtain rfl : kind = .question := question
    rw [Part.read, readFuel]
    refine bind_eq_ok.mpr ⟨_, ihf fuel (by omega), ?_⟩
    refine bind_eq_ok.mpr ⟨_, ihs fuel (by omega), ?_⟩
    refine bind_eq_ok.mpr ⟨_, require_eq_ok.mpr ⟨rfl, colon⟩, ?_⟩
    exact bind_eq_ok.mpr ⟨_, iht fuel (by omega), rfl⟩
  | value only closed ih =>
    obtain ⟨fuel, rfl⟩ := Part.exists_succ enough
    simp only [Part.slack] at enough ih
    rw [Part.read, readFuel]
    refine bind_eq_ok.mpr ⟨_, ih fuel (by omega), ?_⟩
    dsimp only
    split
    · cases closed
    · rfl
  | binary first more ihf ihm =>
    have passed := first.length
    obtain ⟨fuel, rfl⟩ := Part.exists_succ enough
    simp only [Part.least, Part.slack] at passed enough ihf ihm
    rw [Part.read, readBinary]
    exact bind_eq_ok.mpr ⟨_, ihf fuel (by omega), ihm fuel (by omega)⟩
  | stop weak =>
    obtain ⟨fuel, rfl⟩ := Part.exists_succ enough
    rw [Part.read, readOperators]
    split
    · rfl
    · rename_i op known
      rw [if_pos (weak op known)]
  | operator known strong operand more iho ihm =>
    have passed := operand.length
    obtain ⟨fuel, rfl⟩ := Part.exists_succ enough
    simp only [Part.least, Part.slack, List.length_cons] at passed enough iho ihm
    rw [Part.read, readOperators]
    simp only [Words.next, List.headD_cons, known, not_lt.mpr strong, if_false, List.tail_cons]
    exact bind_eq_ok.mpr ⟨_, iho fuel (by omega), ihm fuel (by omega)⟩
  | @plus w ws rest r kind operand ih =>
    obtain ⟨fuel, rfl⟩ := Part.exists_succ enough
    simp only [Part.slack, List.length_cons] at enough ih
    obtain ⟨_, text, span⟩ := w
    cases kind
    exact ih fuel (by omega)
  | @sign op w ws rest r kind operand ih =>
    obtain ⟨fuel, rfl⟩ := Part.exists_succ enough
    simp only [Part.slack, List.length_cons] at enough ih
    obtain ⟨_, text, span⟩ := w
    cases op <;> cases kind <;> exact bind_eq_ok.mpr ⟨_, ih fuel (by omega), rfl⟩
  | unsigned plain operand ih =>
    obtain ⟨fuel, rfl⟩ := Part.exists_succ enough
    simp only [Part.slack] at enough ih
    simp only [List.mem_cons, List.not_mem_nil, or_false, forall_eq_or_imp, forall_eq] at plain
    rw [Part.read]
    unfold readUnary
    split
    · cases plain.1
    · cases plain.2.1
    · cases plain.2.2
    · exact ih fuel (by omega)
  | @brackets w w' ws rest r opened inner closed ih =>
    obtain ⟨fuel, rfl⟩ := Part.exists_succ enough
    simp only [Part.slack, List.length_cons] at enough ih
    obtain ⟨_, text, span⟩ := w
    cases opened
    refine bind_eq_ok.mpr ⟨_, ih fuel (by omega), ?_⟩
    exact bind_eq_ok.mpr ⟨_, require_eq_ok.mpr ⟨rfl, closed⟩, rfl⟩
  | @literal w rest v kind value =>
    obtain ⟨fuel, rfl⟩ := Part.exists_succ enough
    obtain ⟨_, text, span⟩ := w
    rcases kind with kind | kind <;> cases kind <;>
      simp only [Part.read, readPrimary, readLiteral, value]
  | @name w rest kind apart =>
    obtain ⟨fuel, rfl⟩ := Part.exists_succ enough
    obtain ⟨_, text, span⟩ := w
    cases kind
    exact readPrimary_name apart
  | @call w w₁ w₂ ws rest args kind opened inner closed ih =>
    obtain ⟨fuel, rfl⟩ := Part.exists_succ enough
    simp only [Part.slack, List.length_cons] at enough ih
    obtain ⟨_, text, span⟩ := w
    obtain ⟨_, text₁, span₁⟩ := w₁
    cases kind
    cases opened
    refine (bind_ite _ _ _ _).symm.trans (bind_eq_ok.mpr ⟨_, ih fuel (by omega), ?_⟩)
    exact bind_eq_ok.mpr ⟨_, require_eq_ok.mpr ⟨rfl, closed⟩, rfl⟩
  | none closed => rw [Part.read, if_pos closed]
  | some filled items ih =>
    rw [Part.read, filled, if_neg Bool.false_ne_true]
    exact ih fuel enough
  | last only closed ih =>
    obtain ⟨fuel, rfl⟩ := Part.exists_succ enough
    simp only [Part.slack] at enough ih
    rw [Part.read, readArguments]
    refine bind_eq_ok.mpr ⟨_, ih fuel (by omega), ?_⟩
    dsimp only
    split
    · cases closed
    · rfl
  | @more w ws ws₁ rest r more first comma others ihf iho =>
    have passed := first.length
    obtain ⟨fuel, rfl⟩ := Part.exists_succ enough
    simp only [Part.least, Part.slack, List.length_cons] at passed enough ihf iho
    obtain ⟨_, text, span⟩ := w
    cases comma
    rw [Part.read, readArguments]
    refine bind_eq_ok.mpr ⟨_, ihf fuel (by omega), ?_⟩
    exact bind_eq_ok.mpr ⟨_, iho fuel (by omega), rfl⟩

theorem read_eq_ok {ws rest : Words} {r : Raw} :
    Raw.read ws = .ok (r, rest) ↔ Reads .expression ws r rest :=
  ⟨reads_of_read _ .expression ws r rest, fun h => h.read _ le_rfl⟩

end Raw
end Analog
