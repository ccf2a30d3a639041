import Mathlib
import Analog.Source.Indexed

/-!
The line of an offset is the stretch without line feeds around it, or the last one for an offset
behind the end. A table of line starts that is made when it is first needed leads to the same lines.
-/
namespace Analog

/-- A line between what comes before it in a text and what comes after. -/
structure Line.Stands (l : Line) (before after : List Char) : Prop where
  plain : '\n' ∉ l.text
  start : l.start = before.length
  number : l.number = 1 + before.count '\n'
  opened : before = [] ∨ before.getLast? = some '\n'
  closed : after = [] ∨ after.head? = some '\n'

/-- The position behind the last character. -/
def Line.stop (l : Line) : Nat := l.start + l.text.length

/-- The text that some lines make up. -/
def joinLines (l : List Char) : List (List Char) → List Char
  | [] => l
  | l' :: ls => l ++ '\n' :: joinLines l' ls

theorem splitLines_eq (cs : List Char) :
    ∃ l ls, splitLines cs = l :: ls ∧ joinLines l ls = cs ∧ ∀ x ∈ l :: ls, '\n' ∉ x := by
  induction cs with
  | nil => exact ⟨[], [], rfl, rfl, by simp⟩
  | cons c cs ih =>
    obtain ⟨l, ls, split, joined, plain⟩ := ih
    rw [splitLines, split]
    by_cases feed : c = '\n'
    · subst feed
      exact ⟨[], l :: ls, rfl, congrArg ('\n' :: ·) joined,
        List.forall_mem_cons.mpr ⟨List.not_mem_nil, plain⟩⟩
    · obtain ⟨first, others⟩ := List.forall_mem_cons.mp plain
      refine ⟨c :: l, ls,
        by simp [feed], ?_, List.forall_mem_cons.mpr ⟨by simp [first, Ne.symm feed], others⟩⟩
      subst joined
      cases ls <;> rfl

theorem le_start {i n : Nat} {ls : List (List Char)} {x : Line} (mem : x ∈ numberLines i n ls) :
    i ≤ x.start := by
  induction ls generalizing i n with
  | nil => cases mem
  | cons l ls ih =>
    rcases List.mem_cons.mp mem with rfl | later
    · exact Nat.le_refl i
    · have := ih later
      omega

theorem pairwise_start (i n : Nat) (ls : List (List Char)) :
    ((numberLines i n ls).map (·.start)).Pairwise (· < ·) := by
  induction ls generalizing i n with
  | nil => exact .nil
  | cons l ls ih =>
    refine .cons (List.forall_mem_map.mpr fun x mem => ?_) (ih _ _)
    have := le_start mem
    dsimp only
    omega

theorem stands_of_numberLines {l : List Char} {ls : List (List Char)}
    (plain : ∀ x ∈ l :: ls, '\n' ∉ x)
    {before : List Char} (opened : before = [] ∨ before.getLast? = some '\n') {k : Nat} {x : Line}
    (at_k : (numberLines before.length (1 + before.count '\n') (l :: ls))[k]? = some x) :
    ∃ b a, before ++ joinLines l ls = b ++ x.text ++ a ∧ x.Stands b a ∧
      x.number = 1 + before.count '\n' + k ∧
      (((numberLines before.length (1 + before.count '\n') (l :: ls)).map (·.start))[k + 1]?.getD
        ((before ++ joinLines l ls).length + 1)) = x.stop + 1 := by
  induction ls generalizing before l k with
  | nil =>
    cases k with
    | succ k => cases at_k
    | zero =>
      cases at_k
      exact ⟨before, [],
        by simp [joinLines], ⟨plain l List.mem_cons_self, rfl, rfl, opened, .inl rfl⟩, rfl,
        by simp [numberLines, joinLines, Line.stop]⟩
  | cons l' ls ih =>
    obtain ⟨first, others⟩ := List.forall_mem_cons.mp plain
    cases k with
    | zero =>
      cases at_k
      exact ⟨before, '\n' :: joinLines l' ls,
        by simp [joinLines], ⟨first, rfl, rfl, opened, .inr rfl⟩, rfl, rfl⟩
    | succ k =>
      have length : before.length + l.length + 1 = (before ++ l ++ ['\n']).length := by simp; rfl
      have count : 1 + before.count '\n' + 1 = 1 + (before ++ l ++ ['\n']).count '\n' := by
        simp [List.count_eq_zero.mpr first, Nat.add_assoc]
      have whole : before ++ joinLines l (l' :: ls) = before ++ l ++ ['\n'] ++ joinLines l' ls := by
        simp [joinLines]
      rw [numberLines, length, count] at at_k ⊢
      obtain ⟨b, a, text, stands, number, next⟩ := ih others (.inr (by simp)) at_k
      exact ⟨b, a, whole ▸ text, stands, by omega, whole ▸ next⟩

theorem place_spec {starts : List Nat} (sorted : (0 :: starts).Pairwise (· < ·)) (key : Nat) :
    ∃ start, (0 :: starts)[place (0 :: starts) key]? = some start ∧ start ≤ key ∧
      ∀ next, (0 :: starts)[place (0 :: starts) key + 1]? = some next → key < next := by
  have below {i : Nat} (less : i < (0 :: starts).findIdx (key ≤ ·)) :
      ∃ start, (0 :: starts)[i]? = some start ∧ start < key := by
    have inside := less.trans_le List.findIdx_le_length
    exact ⟨_, List.getElem?_eq_getElem inside, by simpa using List.not_of_lt_findIdx less⟩
  have above {next : Nat} (there : (0 :: starts)[(0 :: starts).findIdx (key ≤ ·)]? = some next) :
      key ≤ next := by
    obtain ⟨inside, rfl⟩ := List.getElem?_eq_some_iff.mp there
    simpa using List.findIdx_getElem (w := inside)
  rw [place]
  generalize (0 :: starts).findIdx (key ≤ ·) = r at below above ⊢
  by_cases found : (0 :: starts)[r]? = some key
  · rw [if_pos found]
    refine ⟨key, found, Nat.le_refl _, fun next later => ?_⟩
    obtain ⟨_, rfl⟩ := List.getElem?_eq_some_iff.mp found
    obtain ⟨_, rfl⟩ := List.getElem?_eq_some_iff.mp later
    exact List.pairwise_iff_getElem.mp sorted r (r + 1) _ _ (Nat.lt_succ_self r)
  · rw [if_neg found]
    cases r with
    | zero =>
      -- The first line starts at 0, so that a search that ends there has found its key.
      obtain rfl := Nat.le_zero.mp (above rfl)
      exact absurd rfl found
    | succ k =>
      obtain ⟨start, there, less⟩ := below (Nat.lt_succ_self k)
      exact ⟨start, there, Nat.le_of_lt less, fun next later => Nat.lt_of_le_of_ne
        (above later) fun same => found (same ▸ later)⟩

theorem getLast?_takeWhile {ls : List Line} {k offset : Nat} {l : Line}
    (sorted : (ls.map (·.start)).Pairwise (· < ·)) (at_k : ls[k]? = some l) (low : l.start ≤ offset)
    (high : ∀ next, (ls.map (·.start))[k + 1]? = some next → offset < next) :
    (ls.takeWhile (·.start ≤ offset)).getLast? = some l := by
  induction ls generalizing k with
  | nil => cases at_k
  | cons x ls ih =>
    obtain ⟨first, sorted⟩ := List.pairwise_cons.mp sorted
    cases k with
    | zero =>
      cases at_k
      rw [List.takeWhile_cons_of_pos (by simpa using low)]
      cases ls with
      | nil => rfl
      | cons y ls => rw [List.takeWhile_cons_of_neg (by simpa using high y.start rfl)]; rfl
    | succ k =>
      have less := first l.start (List.mem_map_of_mem (List.mem_of_getElem? at_k))
      rw [List.takeWhile_cons_of_pos (by simpa using (Nat.le_of_lt less).trans low),
        List.getLast?_cons, ih sorted at_k high]
      rfl

namespace SourceText

theorem line_spec (s : SourceText) (offset : Nat) : ∃ before after,
    s.contents = before ++ (s.line offset).text ++ after ∧ (s.line offset).Stands before after ∧
    (s.line offset).start ≤ offset ∧ (s.line offset).number = 1 + place s.starts offset ∧
    s.starts[place s.starts offset]? = some (s.line offset).start ∧
    s.starts[place s.starts offset + 1]?.getD (s.contents.length + 1) = (s.line offset).stop + 1 ∧
    (∀ next, s.starts[place s.starts offset + 1]? = some next → offset < next) := by
  obtain ⟨l, ls, split, joined, plain⟩ := splitLines_eq s.contents
  have lines : s.lines = numberLines 0 1 (l :: ls) := by rw [lines, split]
  have sorted : s.starts.Pairwise (· < ·) := pairwise_start ..
  have first : s.starts = 0 :: s.starts.tail := by rw [starts, lines]; rfl
  obtain ⟨start, at_k, low, high⟩ := place_spec (first ▸ sorted) offset
  rw [← first] at at_k high
  generalize place s.starts offset = k at at_k high ⊢
  have there := at_k
  rw [starts, List.getElem?_map, Option.map_eq_some_iff] at there
  obtain ⟨x, there, rfl⟩ := there
  have found : s.line offset = x := by rw [line, getLast?_takeWhile sorted there low high]; rfl
  rw [lines] at there
  obtain ⟨before, after, whole, stands, number, next⟩ :=
    stands_of_numberLines plain (.inl (rfl : ([] : List Char) = [])) there
  rw [List.nil_append, joined] at whole next
  rw [found]
  refine ⟨before, after, whole, stands, low, by simpa using number, at_k, ?_, high⟩
  rw [← next, starts, lines]
  rfl

end SourceText

namespace Indexed

theorem source_asked (s : SourceText) (offsets : List Nat) :
    (asked s offsets).source = s ∧ (asked s offsets).table.getD s.starts = s.starts := by
  induction offsets with
  | nil => exact ⟨rfl, rfl⟩
  | cons offset earlier ih =>
    obtain ⟨source, table⟩ := ih
    refine ⟨source, ?_⟩
    rw [asked, line, source]
    exact table

theorem line_asked (s : SourceText) (offsets : List Nat) (offset : Nat) :
    ((asked s offsets).line offset).1 = s.line offset := by
  obtain ⟨source, table⟩ := source_asked s offsets
  obtain ⟨before, after, whole, stands, -, number, start, next, -⟩ := s.line_spec offset
  have text : (s.contents.drop (s.line offset).start).take (s.line offset).text.length =
      (s.line offset).text := by
    rw [stands.start, whole, List.append_assoc, List.drop_left, List.take_left]
  simp only [line, source, table, List.getD_eq_getElem?_getD, start, Option.getD_some, next,
    Nat.add_sub_cancel, Line.stop, Nat.add_sub_cancel_left, text]
  rw [Nat.add_comm, ← number]

end Indexed

/-- The line of an offset is the stretch of the text around it, whichever were asked for before, and
the marks of a problem begin where it does, are at least one, and stay on the line if they begin
there. -/
theorem SourceText.line_encloses (s : SourceText) (offset : Nat) :
    (∃ before after, s.contents = before ++ (s.line offset).text ++ after ∧
      (s.line offset).Stands before after) ∧
    (s.line offset).start ≤ offset ∧ (offset ≤ s.contents.length → offset ≤ (s.line offset).stop) ∧
    (s.contents.length < offset → (s.line offset).stop = s.contents.length) ∧
    (∀ earlier, ((Indexed.asked s earlier).line offset).1 = s.line offset) ∧
    ∀ d : Diagnostic, d.span.start = offset → (s.excerpt d).line = s.line offset ∧
      (s.line offset).start + (s.excerpt d).offset = offset ∧ 1 ≤ (s.excerpt d).length ∧
      ((s.excerpt d).offset < (s.line offset).text.length →
        (s.excerpt d).offset + (s.excerpt d).length ≤ (s.line offset).text.length) := by
  obtain ⟨before, after, whole, stands, low, -, -, next, high⟩ := s.line_spec offset
  have inside : (s.line offset).stop ≤ s.contents.length := by
    rw [Line.stop, stands.start, whole]
    simp only [List.length_append]
    omega
  have last : (s.line offset).stop = s.contents.length ∨ offset ≤ (s.line offset).stop := by
    cases there : s.starts[place s.starts offset + 1]? with
    | none =>
      rw [there, Option.getD_none] at next
      omega
    | some n =>
      rw [there, Option.getD_some] at next
      have := high n there
      omega
  refine ⟨⟨before, after, whole, stands⟩, low,
    by omega, by omega, (Indexed.line_asked s · offset), ?_⟩
  rintro d rfl
  refine ⟨rfl, Nat.add_sub_cancel' low, ?_, ?_⟩
  · grind [excerpt]
  · grind [excerpt]

theorem SourceText.line_encloses_last :
    let s : SourceText := ⟨"", ['a', 'b', '\n', '\n', 'c', 'd', 'e']⟩
    let d : Diagnostic := ⟨⟨5, 9⟩, ""⟩
    s.line 5 = ⟨['c', 'd', 'e'], 4, 3⟩ ∧ 5 ≤ (s.line 5).stop ∧ (s.line 9).stop = s.contents.length ∧
      ((Indexed.asked s [9, 2]).line 5).1 = s.line 5 ∧
      (s.excerpt d).offset + (s.excerpt d).length ≤ (s.line 5).text.length := by
  intro s d
  obtain ⟨-, -, inside, -, asked, shown⟩ := s.line_encloses 5
  exact ⟨by decide, inside (by decide), (s.line_encloses 9).2.2.2.1 (by decide), asked _,
    (shown d rfl).2.2.2 (by decide)⟩

end Analog
