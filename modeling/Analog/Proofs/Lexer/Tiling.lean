import Analog.Lexer.Rounds
import Analog.Proofs.Lexer.Scanning

/-!
Lexing by rules of any kind, whatever lengths their scanners give. The matches lie end to end from
the start of the input to where the lexer stops, each is found by the first rule that has one, and
no round takes items that the input does not have.
-/
namespace Analog.Lexer

variable {α τ : Type} {rules : List (Rule α τ)} {items : List α} {i n : Nat} {rule : Rule α τ}

/-- A match by the first rule that has one where it starts. A match that is longer than the input
ends with it. -/
def IsFirst (rules : List (Rule α τ)) (items : List α) (m : Match τ) : Prop :=
  ∃ before rule after, rules = before ++ rule :: after ∧
    (∀ r ∈ before, r.scan (items.drop m.span.start) = 0) ∧ rule.scan (items.drop m.span.start) ≠ 0 ∧
    m.tag = rule.tag ∧ m.span.stop = min items.length
      (m.span.start + rule.scan (items.drop m.span.start))

def Tiled : Nat → List Span → Nat → Prop
  | start, [], stop => start = stop
  | start, s :: ss, stop => s.start = start ∧ s.start ≤ s.stop ∧ Tiled s.stop ss stop

/-- What the matches from one position up to another are. -/
structure Covers (rules : List (Rule α τ)) (items : List α) (start : Nat) (found : List (Match τ))
    (stop : Nat) : Prop where
  tiled : Tiled start (found.map (·.span)) stop
  /-- Only the last match may be empty, and only at the end of the input. -/
  filled : ∀ m ∈ found.dropLast, m.span.start < m.span.stop
  ended : ∀ m ∈ found, m.span.start = m.span.stop → m.span.start = items.length
  first : ∀ m ∈ found, IsFirst rules items m
  inside : stop ≤ items.length
  stuck : stop < items.length → ∀ r ∈ rules, r.scan (items.drop stop) = 0

theorem round_behind : round rules items (items.length + 1) = .ok none :=
    if_pos (Nat.lt_succ_self _)

theorem round_of_none (inside : i ≤ items.length) (idle : firstMatch? rules (items.drop i) = none) :
    round rules items i = .ok none := by
  rw [round, if_neg (Nat.not_lt.mpr inside), if_pos inside, idle]

theorem round_of_some (inside : i ≤ items.length)
    (found : firstMatch? rules (items.drop i) = some (rule, n)) :
    round rules items i = .ok (some (⟨rule.tag, ⟨i, min items.length (i + n)⟩⟩,
      if i = items.length then i + 1 else min items.length (i + n))) := by
  have ordered : i ≤ min items.length (i + n) := by omega
  rw [round, if_neg (Nat.not_lt.mpr inside), if_pos inside, found]
  simp only [Span.ofBounds?, if_pos ordered]

theorem runs_collectFuel (rules : List (Rule α τ)) {fuel : Nat} (inside : i ≤ items.length)
    (enough : items.length - i < fuel) :
      ∃ last, Runs rules items i (collectFuel rules fuel i (items.drop i)).1 last ∧
      (collectFuel rules fuel i (items.drop i)).2 = min last items.length := by
  induction fuel generalizing i with
  | zero => cases enough
  | succ fuel ih =>
    cases found : firstMatch? rules (items.drop i) with
    | none =>
      simp only [collectFuel, found]
      exact ⟨i, .stop (round_of_none inside found), (Nat.min_eq_left inside).symm⟩
    | some cut =>
      obtain ⟨rule, n⟩ := cut
      have positive := Lexeme.firstMatch?_pos found
      have round := round_of_some inside found
      rw [Lexeme.collectFuel_some inside found]
      by_cases last : i = items.length
      · rw [if_pos last] at round ⊢
        exact ⟨i + 1, .next round (.stop (last ▸ round_behind)), by simp [last]⟩
      · rw [if_neg last] at round ⊢
        obtain ⟨stop, more, same⟩ := ih (Nat.min_le_left items.length (i + n)) (by omega)
        exact ⟨stop, .next round more, same⟩

theorem isFirst_of_firstMatch? (found : firstMatch? rules (items.drop i) = some (rule, n)) :
    IsFirst rules items ⟨rule.tag, ⟨i, min items.length (i + n)⟩⟩ := by
  obtain ⟨before, after, split, others, scanned, positive⟩ := Lexeme.firstMatch?_eq_some found
  subst scanned
  exact ⟨before, rule, after, split, others, Nat.ne_of_gt positive, rfl, rfl⟩

theorem Runs.covers {last : Nat} {found : List (Match τ)} (run : Runs rules items i found last)
    (inside : i ≤ items.length) : Covers rules items i found (min last items.length) := by
  induction run with
  | @stop i idle =>
    rw [Nat.min_eq_left inside]
    refine ⟨rfl, List.forall_mem_nil _, List.forall_mem_nil _, List.forall_mem_nil _, inside,
      fun _ => Lexeme.firstMatch?_eq_none.mp ?_⟩
    cases found : firstMatch? rules (items.drop i) with
    | none => rfl
    | some cut =>
      rw [round_of_some inside found] at idle
      cases idle
  | @next i j last m ms taken more ih =>
    cases found : firstMatch? rules (items.drop i) with
    | none =>
      rw [round_of_none inside found] at taken
      cases taken
    | some cut =>
      obtain ⟨rule, n⟩ := cut
      have positive := Lexeme.firstMatch?_pos found
      have first := isFirst_of_firstMatch? found
      rw [round_of_some inside found] at taken
      cases taken
      by_cases atEnd : i = items.length
      · -- the next round stands behind the end and finds nothing
        subst atEnd
        rw [if_pos rfl] at more
        cases more with
        | next taken => rw [round_behind] at taken; cases taken
        | stop =>
          have same : min items.length (items.length + n) = items.length := by omega
          have stop : min (items.length + 1) items.length = items.length := by omega
          simp only [same, stop] at first ⊢
          exact ⟨⟨rfl, Nat.le_refl _, rfl⟩, List.forall_mem_nil _,
            by simp, by simpa using first, Nat.le_refl _, fun less => absurd less (Nat.lt_irrefl _)⟩
      · have rest := ih (by rw [if_neg atEnd]; exact Nat.min_le_left ..)
        rw [if_neg atEnd] at rest
        have grows : i < min items.length (i + n) := by omega
        refine ⟨⟨rfl, Nat.le_of_lt grows, rest.tiled⟩, ?_, ?_,
          List.forall_mem_cons.mpr ⟨first, rest.first⟩, rest.inside, rest.stuck⟩
        · intro m mem
          cases ms with
          | nil => cases mem
          | cons m' ms =>
            rcases List.mem_cons.mp mem with rfl | later
            · exact grows
            · exact rest.filled m later
        · exact List.forall_mem_cons.mpr ⟨fun empty => absurd empty (Nat.ne_of_lt grows),
            rest.ended⟩

theorem filter_found (l : Lexed τ) :
    l.found.filter (·.tag.isSome) = l.tokens.map fun t => ⟨some t.1, t.2⟩ := by
  rw [Lexed.tokens]
  induction l.found with
  | nil => rfl
  | cons m ms ih =>
    obtain ⟨tag, span⟩ := m
    cases tag with
    | none => simpa using ih
    | some tag => simpa using ih

/-- Whatever the rules, lexing comes to an end without a fault, and what it found covers the input
up to where it stopped. Of what it found, the tokens are all that is not skipped. What is left is
told as such, and no rule matches there. -/
theorem collect_covers (rules : List (Rule α τ)) (items : List α) :
    (∃ last, Runs rules items 0 (collect rules items).found last ∧
      (collect rules items).stop = min last items.length) ∧
      Covers rules items 0 (collect rules items).found (collect rules items).stop ∧
      (collect rules items).found.filter (·.tag.isSome) =
        (collect rules items).tokens.map (fun t => ⟨some t.1, t.2⟩) ∧
      (collect rules items).remaining = (items.drop (collect rules items).stop).length ∧
      (collect rules items).unmatched = ⟨(collect rules items).stop, items.length⟩ ∧
      ((collect rules items).remaining ≠ 0 →
        ∀ r ∈ rules, r.scan (items.drop (collect rules items).stop) = 0) := by
  have rounds : ∃ last, Runs rules items 0 (collect rules items).found last ∧
      (collect rules items).stop = min last items.length :=
    runs_collectFuel rules (Nat.zero_le items.length) (Nat.lt_succ_self items.length)
  obtain ⟨last, run, stop⟩ := rounds
  have covers := run.covers (Nat.zero_le _)
  rw [← stop] at covers
  have left : (collect rules items).remaining = items.length - (collect rules items).stop := rfl
  refine ⟨⟨last, run, stop⟩, covers, filter_found _, by rw [left, List.length_drop], ?_,
    fun some => covers.stuck (by omega)⟩
  rw [Lexed.unmatched, left, Nat.add_sub_cancel' covers.inside]

end Analog.Lexer
