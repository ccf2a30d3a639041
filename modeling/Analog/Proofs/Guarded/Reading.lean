import Analog.Guarded.Read
import Analog.Proofs.Guarded.Scanning

/-!
Reading with a guard on every step that could go wrong. The readers of the library are total: past
the last word they find a default, and a bound on their nesting ends them with a problem. The
guarded readers crash instead, and besides where a word that was checked is of another kind, or a
round of a loop takes no word. From words that end with the only end of the text they meet no crash
and read what the readers read.
-/
namespace Analog

theorem Words.Ended.of_cons {w : Lexeme} {ws : Words} (h : Ended (w :: ws))
    (inner : w.kind ≠ .finish) : Ended ws := by
  cases h with
  | finish last => exact absurd last inner
  | cons _ more => exact more

theorem Words.eq_cons_of_follows {ws : Words} {kind : Kind} (seen : Words.follows ws kind = true)
    (inner : kind ≠ .finish) : ∃ text span rest, ws = ⟨kind, text, span⟩ :: rest := by
  cases ws with
  | nil => exact absurd (beq_iff_eq.mp seen).symm inner
  | cons w rest => exact ⟨w.text, w.span, rest, by rw [← beq_iff_eq.mp seen]; rfl⟩

theorem Words.eq_cons_of_followsKeyword {ws : Words} {keyword : String}
    (seen : Words.followsKeyword ws keyword = true) :
    ∃ text span rest, ws = ⟨.identifier, text, span⟩ :: rest :=
  eq_cons_of_follows (Bool.and_eq_true_iff.mp seen).1 (by decide)

theorem Words.Ended.cons_of_follows {ws : Words} {kind : Kind} (h : ws.Ended)
    (seen : Words.follows ws kind = true)
    (inner : kind ≠ .finish) : ∃ text span rest, ws = ⟨kind, text, span⟩ :: rest ∧
    Words.Ended rest := by
  obtain ⟨text, span, rest, rfl⟩ := eq_cons_of_follows seen inner
  exact ⟨text, span, rest, rfl, h.of_cons inner⟩

theorem Words.Ended.cons_of_followsKeyword {ws : Words} {keyword : String} (h : ws.Ended)
    (seen : Words.followsKeyword ws keyword = true) :
    ∃ text span rest, ws = ⟨.identifier, text, span⟩ :: rest ∧ Words.Ended rest :=
  h.cons_of_follows (Bool.and_eq_true_iff.mp seen).1 (by decide)

namespace Guarded

variable {α β : Type} {ws : Words}

/-- A guarded reading meets no crash and gives what the plain one gives. It leaves words that end as
they should, and no more than `limit` of them. -/
structure Agrees (limit : Nat) (g : Guarded (α × Words)) (x : Except Diagnostic (α × Words)) :
    Prop where
  same : g = sure x
  rest : ∀ a after, x = .ok (a, after) → after.Ended ∧ after.length ≤ limit

namespace Agrees

variable {limit : Nat} {g : Guarded (α × Words)} {x : Except Diagnostic (α × Words)}

theorem bind {within : Nat} {k : α × Words → Guarded (β × Words)}
    {f : α × Words → Except Diagnostic (β × Words)} (first : Agrees within g x)
    (next : ∀ a after, after.Ended → after.length ≤ within →
      Agrees limit (k (a, after)) (f (a, after))) :
    Agrees limit (g >>= k) (x >>= f) := by
  obtain ⟨rfl, rest⟩ := first
  cases x with
  | error d => exact ⟨rfl, fun _ _ run => by cases run⟩
  | ok found =>
    obtain ⟨ended, less⟩ := rest found.1 found.2 rfl
    exact next found.1 found.2 ended less

theorem pure (ended : ws.Ended) (a : α) (less : ws.length ≤ limit) :
    Agrees limit (Pure.pure (a, ws)) (.ok (a, ws)) :=
  ⟨rfl, fun _ _ run => by cases run; exact ⟨ended, less⟩⟩

theorem ite {b : Bool} {g' : Guarded (α × Words)} {x' : Except Diagnostic (α × Words)}
    (yes : b = true → Agrees limit g x) (no : b = false → Agrees limit g' x') :
    Agrees limit (if b then g else g') (if b then x else x') := by
  cases b with
  | true => exact yes rfl
  | false => exact no rfl

end Agrees

theorem look_eq (h : ws.Ended) : look ws = Pure.pure (Words.next ws) := by
  cases h <;> rfl

theorem follows_eq (h : ws.Ended) (kind : Kind) :
    follows ws kind = Pure.pure (Words.follows ws kind) := by
  rw [follows, look_eq h]
  rfl

theorem followsKeyword_eq (h : ws.Ended) (keyword : String) :
    followsKeyword ws keyword = Pure.pure (Words.followsKeyword ws keyword) := by
  rw [followsKeyword, look_eq h]
  rfl

theorem pass_cons {w : Lexeme} (h : ws.Ended) : pass (w :: ws) = Pure.pure ws := by
  cases h <;> rfl

theorem expect_cons {kind : Kind} {text : String} {span : Span} (h : ws.Ended) :
    expect (⟨kind, text, span⟩ :: ws) kind = Pure.pure ws := by
  have seen : Words.follows (⟨kind, text, span⟩ :: ws) kind = true := beq_self_eq_true kind
  show (if Words.follows (⟨kind, text, span⟩ :: ws) kind then pass _ else _) = _
  rw [if_pos seen, pass_cons h]

theorem advance_eq {before after : Words} (less : after.length < before.length) :
    advance before after = Pure.pure () := if_pos less

theorem agrees_refuse (h : ws.Ended) (message : String) (limit : Nat) :
    Agrees (α := α) limit (refuse ws message) (Words.fail ws message) := by
  refine ⟨?_, fun _ _ run => by cases run⟩
  rw [refuse, look_eq h]
  rfl

theorem agrees_require (h : ws.Ended) {kind : Kind} (inner : kind ≠ .finish) (message : String)
    {limit : Nat} (less : ws.length ≤ limit + 1) :
    Agrees limit (require ws kind message) (Words.require ws kind message) := by
  rw [require, look_eq h, pure_bind]
  cases h with
  | @finish w last =>
    have other : (w.kind == kind) = false := beq_false_of_ne (last ▸ inner.symm)
    simp only [Words.next, List.headD_cons, Words.require, other, Bool.false_eq_true, if_false]
    exact agrees_refuse (.finish last) message limit
  | @cons w ws own more =>
    rw [pass_cons more, pure_bind]
    exact .ite (fun _ => .pure more w (Nat.le_of_succ_le_succ less))
      fun _ => agrees_refuse (.cons own more) message limit

theorem agrees_literal {w : Lexeme} {limit : Nat} (ended : ws.Ended) (less : ws.length ≤ limit) :
    Agrees limit (sure (Raw.readLiteral w ws)) (Raw.readLiteral w ws) := by
  refine ⟨rfl, fun r after run => ?_⟩
  unfold Raw.readLiteral at run
  split at run
  · cases run
    exact ⟨ended, less⟩
  · cases run

def part (fuel : Nat) : Raw.Part → Words → Guarded (Raw × Words)
  | .expression, ws => expression fuel ws
  | .binary bound, ws => binary fuel bound ws
  | .operators bound left, ws => operators fuel bound left ws
  | .unary, ws => unary fuel ws
  | .primary, ws => primary fuel ws
  | .list, ws => do if ← follows ws .rightParen then return ([], ws) else arguments fuel ws
  | .arguments, ws => arguments fuel ws

section Expression

open Raw

variable {fuel limit : Nat}
  (ih : ∀ p ws limit, ws.Ended → 4 * ws.length + p.slack ≤ fuel → ws.length ≤ limit + p.least →
      Agrees limit (part fuel p ws) (p.read fuel ws))

include ih

theorem agrees_expression (ended : ws.Ended) (enough : 4 * ws.length + 4 ≤ fuel + 1)
    (less : ws.length ≤ limit + 1) :
    Agrees limit (expression (fuel + 1) ws) (readFuel (fuel + 1) ws) := by
  rw [expression, readFuel]
  refine (ih (.binary 1) ws (ws.length - 1) ended (by simp only [Part.slack]; omega)
    (by simp only [Part.least]; omega)).bind fun cond after ended₁ less₁ => ?_
  dsimp only
  rw [follows_eq ended₁, pure_bind]
  by_cases question : Words.follows after .question = true
  · obtain ⟨text, span, ws₁, rfl, inner⟩ := ended₁.cons_of_follows question (by decide)
    rw [List.length_cons] at less₁
    rw [if_pos question, pass_cons inner, pure_bind]
    refine (ih .expression ws₁ ws₁.length inner (by simp only [Part.slack]; omega)
      (Nat.le_succ _)).bind
      fun thn ws₂ ended₂ less₂ => ?_
    refine (agrees_require ended₂ (by decide) _ (Nat.le_succ _)).bind fun w ws₃ ended₃ less₃ => ?_
    exact (ih .expression ws₃ limit ended₃ (by simp only [Part.slack]; omega)
      (by simp only [Part.least]; omega)).bind
      fun els ws₄ ended₄ less₄ => .pure ended₄ _ less₄
  · rw [if_neg question]
    split
    · exact absurd rfl question
    · exact .pure ended₁ cond (by omega)

theorem agrees_binary {bound : Nat} (ended : ws.Ended) (enough : 4 * ws.length + 3 ≤ fuel + 1)
    (less : ws.length ≤ limit + 1) :
    Agrees limit (binary (fuel + 1) bound ws) (readBinary (fuel + 1) bound ws) := by
  rw [binary, readBinary]
  refine (ih .unary ws (ws.length - 1) ended (by simp only [Part.slack]; omega)
    (by simp only [Part.least]; omega)).bind fun first ws₁ ended₁ less₁ => ?_
  exact ih (.operators bound first) ws₁ limit ended₁ (by simp only [Part.slack]; omega)
    (by simp only [Part.least]; omega)

theorem agrees_operators {bound : Nat} {left : Raw} (ended : ws.Ended)
    (enough : 4 * ws.length + 1 ≤ fuel + 1) (less : ws.length ≤ limit) :
    Agrees limit (operators (fuel + 1) bound left ws) (readOperators (fuel + 1) bound left ws) := by
  rw [operators, readOperators, look_eq ended, pure_bind]
  cases known : (Words.next ws).kind.binary? with
  | none => exact .pure ended left less
  | some op =>
    cases ended with
    | finish last =>
      simp only [Words.next, List.headD_cons, last, Kind.binary?, reduceCtorEq] at known
    | @cons w ws own inner =>
      rw [List.length_cons] at enough less
      dsimp only
      split
      · exact .pure (.cons own inner) left less
      · rw [pass_cons inner, pure_bind]
        refine (ih (.binary op.rightBound) ws ws.length inner (by simp only [Part.slack]; omega)
          (Nat.le_succ _)).bind fun right ws₁ ended₁ less₁ => ?_
        rw [advance_eq (Nat.lt_succ_of_le less₁), pure_bind]
        exact ih (.operators bound _) ws₁ limit ended₁ (by simp only [Part.slack]; omega)
          (by simp only [Part.least]; omega)

theorem agrees_unary (ended : ws.Ended) (enough : 4 * ws.length + 2 ≤ fuel + 1)
    (less : ws.length ≤ limit + 1) :
    Agrees limit (unary (fuel + 1) ws) (readUnary (fuel + 1) ws) := by
  have inside {ws : Words} (ended : ws.Ended) (enough : 4 * (ws.length + 1) + 2 ≤ fuel + 1)
      (less : ws.length + 1 ≤ limit + 1) : Agrees limit (unary fuel ws) (readUnary fuel ws) :=
    ih .unary ws limit ended (by simp only [Part.slack]; omega) (by simp only [Part.least]; omega)
  rw [unary, look_eq ended, pure_bind]
  split
  case h_1 kind =>
    obtain ⟨text, span, ws, rfl, inner⟩ := ended.cons_of_follows (beq_iff_eq.mpr kind) (by decide)
    rw [pass_cons inner, pure_bind]
    exact inside inner enough less
  case h_2 kind | h_3 kind =>
    obtain ⟨text, span, ws, rfl, inner⟩ := ended.cons_of_follows (beq_iff_eq.mpr kind) (by decide)
    rw [pass_cons inner, pure_bind]
    exact (inside inner enough less).bind fun x after ended less => .pure ended _ less
  case h_4 plus minus bang =>
    unfold readUnary
    split
    · exact absurd rfl plus
    · exact absurd rfl minus
    · exact absurd rfl bang
    · exact ih .primary ws limit ended (by simp only [Part.slack]; omega) less

theorem agrees_primary (ended : ws.Ended) (enough : 4 * ws.length + 1 ≤ fuel + 1)
    (less : ws.length ≤ limit + 1) :
    Agrees limit (primary (fuel + 1) ws) (readPrimary (fuel + 1) ws) := by
  rw [primary, look_eq ended, pure_bind]
  split
  case h_1 kind =>
    obtain ⟨text, span, ws, rfl, inner⟩ := ended.cons_of_follows (beq_iff_eq.mpr kind) (by decide)
    rw [List.length_cons] at enough less
    rw [expect_cons inner, pure_bind]
    refine (ih .expression ws limit inner (by simp only [Part.slack]; omega)
      (by simp only [Part.least]; omega)).bind
      fun x ws₁ ended₁ less₁ => ?_
    exact (agrees_require ended₁ (by decide) _ (Nat.le_succ_of_le less₁)).bind
      fun w ws₂ ended₂ less₂ => .pure ended₂ x less₂
  case h_2 kind | h_3 kind =>
    obtain ⟨text, span, ws, rfl, inner⟩ := ended.cons_of_follows (beq_iff_eq.mpr kind) (by decide)
    rw [expect_cons inner, pure_bind]
    exact agrees_literal inner (Nat.le_of_succ_le_succ less)
  case h_4 kind =>
    obtain ⟨text, span, ws, rfl, inner⟩ := ended.cons_of_follows (beq_iff_eq.mpr kind) (by decide)
    rw [List.length_cons] at enough less
    rw [expect_cons inner, pure_bind, follows_eq inner, pure_bind]
    by_cases called : Words.follows ws .leftParen = true
    · obtain ⟨text₁, span₁, ws, rfl, inner₁⟩ := inner.cons_of_follows called (by decide)
      rw [List.length_cons] at enough less
      rw [if_pos called, expect_cons inner₁, pure_bind]
      have close (args : Raw) {after : Words} (ended : after.Ended) (less : after.length ≤ limit) :
          Agrees limit
            (require after .rightParen "expected ')'" >>= fun x =>
              return (.marker :: args ++ [.arguments, .identifier text], x.2))
            (Words.require after .rightParen "expected ')'" >>= fun x =>
              return (.marker :: args ++ [.arguments, .identifier text], x.2)) :=
        (agrees_require ended (by decide) _ (Nat.le_succ_of_le less)).bind
          fun w last ended₁ less₁ => .pure ended₁ _ less₁
      rw [follows_eq inner₁, pure_bind, readPrimary]
      refine .ite (fun _ => close [] inner₁ (by omega)) fun _ => ?_
      exact (ih .arguments ws limit inner₁ (by simp only [Part.slack]; omega)
        (by simp only [Part.least]; omega)).bind
        fun args after ended less => close args ended less
    · rw [if_neg called, readPrimary_name (Bool.eq_false_iff.mpr called)]
      exact .pure inner _ (by omega)
  case h_5 paren number string name =>
    unfold readPrimary
    split
    · exact absurd rfl paren
    · exact absurd rfl number
    · exact absurd rfl string
    · exact absurd rfl name
    · exact absurd rfl name
    · exact agrees_refuse ended _ limit

theorem agrees_arguments (ended : ws.Ended) (enough : 4 * ws.length + 5 ≤ fuel + 1)
    (less : ws.length ≤ limit + 1) :
    Agrees limit (arguments (fuel + 1) ws) (readArguments (fuel + 1) ws) := by
  rw [arguments, readArguments]
  refine (ih .expression ws (ws.length - 1) ended (by simp only [Part.slack]; omega)
    (by simp only [Part.least]; omega)).bind fun first after ended₁ less₁ => ?_
  dsimp only
  rw [follows_eq ended₁, pure_bind]
  by_cases comma : Words.follows after .comma = true
  · obtain ⟨text, span, ws₁, rfl, inner⟩ := ended₁.cons_of_follows comma (by decide)
    rw [List.length_cons] at less₁
    rw [if_pos comma, pass_cons inner, pure_bind, advance_eq (by omega), pure_bind]
    exact (ih .arguments ws₁ limit inner (by simp only [Part.slack]; omega)
      (by simp only [Part.least]; omega)).bind
      fun more ws₂ ended₂ less₂ => .pure ended₂ _ less₂
  · rw [if_neg comma]
    split
    · exact absurd rfl comma
    · exact .pure ended₁ first (by omega)

end Expression

theorem agrees_part (fuel : Nat) (p : Raw.Part) (ws : Words) (limit : Nat) (ended : ws.Ended)
    (enough : 4 * ws.length + p.slack ≤ fuel) (less : ws.length ≤ limit + p.least) :
    Agrees limit (part fuel p ws) (p.read fuel ws) := by
  induction fuel generalizing p ws limit with
  | zero =>
    obtain ⟨k, impossible⟩ := Raw.Part.exists_succ enough
    cases impossible
  | succ fuel ih =>
    cases p with
    | expression => exact agrees_expression ih ended enough less
    | binary bound => exact agrees_binary ih ended enough less
    | operators bound left => exact agrees_operators ih ended enough less
    | unary => exact agrees_unary ih ended enough less
    | primary => exact agrees_primary ih ended enough less
    | arguments => exact agrees_arguments ih ended enough less
    | list =>
      rw [part, Raw.Part.read, follows_eq ended, pure_bind]
      exact .ite (fun _ => .pure ended [] less) fun _ => agrees_arguments ih ended enough
        (Nat.le_succ_of_le less)

theorem agrees_read {limit : Nat} (ended : ws.Ended) (less : ws.length ≤ limit + 1) :
    Agrees limit (read ws) (Raw.read ws) :=
  agrees_part _ .expression ws limit ended (Nat.le_refl _) less

end Guarded
end Analog
