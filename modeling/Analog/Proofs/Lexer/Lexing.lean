import Analog.Proofs.Parser.Wording

/-!
What lexing does, said without positions: a text is the stretches that the rules cut off from its
front, one after the other, and those of them that are not skipped are its words.
-/
namespace Analog.Lexeme

variable {items : List Char} {ws : List (Kind × String)}

open Lexer

inductive Lexes : List Char → List (Kind × String) → Prop
  | finish : Lexes [] [(.finish, "")]
  | cut {items : List Char} {ws : List (Kind × String)} {scan : Scanner Char} {tag : Option Kind}
    {n : Nat} (filled : items ≠ []) (found : firstMatch? rules items = some (⟨scan, tag⟩, n))
    (more : Lexes (items.drop n) ws) :
    Lexes items ((tag.map fun kind => (kind, String.ofList (items.take n))).toList ++ ws)

section Rounds

variable {α τ : Type} {rs : List (Rule α τ)} {items : List α} {r : Rule α τ} {n : Nat}

theorem firstMatch?_eq_some (h : firstMatch? rs items = some (r, n)) : ∃ before after,
    rs = before ++ r :: after ∧ (∀ r ∈ before, r.scan items = 0) ∧ r.scan items = n ∧ 0 < n := by
  induction rs with
  | nil => cases h
  | cons r' rs ih =>
    unfold firstMatch? at h
    split at h
    · rename_i none
      obtain ⟨before, after, rfl, others, found⟩ := ih h
      exact ⟨r' :: before, after, rfl, List.forall_mem_cons.mpr ⟨none, others⟩, found⟩
    · rename_i found
      cases h
      exact ⟨[], rs, rfl, List.forall_mem_nil _, found, Nat.succ_pos _⟩

theorem firstMatch?_pos (h : firstMatch? rs items = some (r, n)) : 0 < n := by
  obtain ⟨_, _, _, _, _, positive⟩ := firstMatch?_eq_some h
  exact positive

theorem collectFuel_some {i : Nat} (inside : i ≤ items.length)
    (found : firstMatch? rs (items.drop i) = some (r, n)) (fuel : Nat) :
      collectFuel rs (fuel + 1) i (items.drop i) =
      if i = items.length then ([⟨r.tag, ⟨i, min items.length (i + n)⟩⟩], i)
      else Prod.map (⟨r.tag, ⟨i, min items.length (i + n)⟩⟩ :: ·) id
        (collectFuel rs fuel (min items.length (i + n))
        (items.drop (min items.length (i + n)))) := by
  have size : i + ((items.drop i).take n).length = min items.length (i + n) := by
    rw [List.length_take, List.length_drop]
    omega
  have rest : (items.drop i).drop n = items.drop (min items.length (i + n)) := by
    rw [List.drop_drop]
    rcases Nat.le_total items.length (i + n) with beyond | under
    · rw [Nat.min_eq_left beyond, List.drop_length, List.drop_eq_nil_of_le beyond]
    · rw [Nat.min_eq_right under]
  have last : (items.drop i).isEmpty = true ↔ i = items.length := by
    rw [List.isEmpty_iff, List.drop_eq_nil_iff]
    omega
  simp only [collectFuel, found, size, rest, last]
  rfl

end Rounds

def wordsOf (contents : List Char) (found : List (Match Kind)) : List (Kind × String) :=
  found.filterMap fun m => m.tag.map fun tag => (tag, textOf contents m.span)

theorem textOf_split (before items : List Char) (n : Nat) :
    textOf (before ++ items) ⟨before.length, before.length + (items.take n).length⟩ = String.ofList
    (items.take n) := by
  simp only [textOf, Span.length, List.drop_left, Nat.add_sub_cancel_left]
  congr 1
  rw [List.length_take, List.take_eq_take_iff]
  simp

theorem wordsOf_cons (before items : List Char) (n : Nat) (tag : Option Kind)
    (more : List (Match Kind)) :
    wordsOf (before ++ items)
      (⟨tag, ⟨before.length, before.length + (items.take n).length⟩⟩ :: more) =
      (tag.map fun kind => (kind, String.ofList (items.take n))).toList ++
      wordsOf (before ++ items) more := by
  unfold wordsOf
  cases tag with
  | none => rfl
  | some kind =>
    rw [List.filterMap_cons_some (by rw [Option.map_some, textOf_split])]
    rfl

theorem collectFuel_nil (fuel start : Nat) :
    collectFuel rules (fuel + 1) start [] = ([⟨some .finish, ⟨start, start⟩⟩], start) := rfl

theorem wordsOf_finish (contents : List Char) (start : Nat) :
    wordsOf contents [⟨some .finish, ⟨start, start⟩⟩] = [(.finish, "")] := by
  simp [wordsOf, textOf, Span.length]

theorem drop_length_lt {n : Nat} (filled : items ≠ []) (positive : 0 < n) :
    (items.drop n).length < items.length := by
  have := List.length_pos_iff.mpr filled
  rw [List.length_drop]
  omega

theorem collectFuel_cut {scan : Scanner Char} {tag : Option Kind} {n : Nat} (filled : items ≠ [])
    (found : firstMatch? rules items = some (⟨scan, tag⟩, n)) (fuel start : Nat) :
    collectFuel rules (fuel + 1) start items = (⟨tag, ⟨start, start + (items.take n).length⟩⟩ ::
        (collectFuel rules fuel (start + (items.take n).length) (items.drop n)).1,
        (collectFuel rules fuel (start + (items.take n).length) (items.drop n)).2) := by
  have some : items.isEmpty = false := by simpa using filled
  simp only [collectFuel, found, some, Bool.false_eq_true, if_false]

theorem collectFuel_of_lexes (h : Lexes items ws) (before : List Char) (fuel : Nat)
    (enough : items.length < fuel) :
    ∃ found, collectFuel rules fuel before.length items = (found, (before ++ items).length) ∧
      wordsOf (before ++ items) found = ws := by
  induction h generalizing before fuel with
  | finish =>
    obtain ⟨fuel, rfl⟩ := Nat.exists_eq_succ_of_ne_zero (Nat.ne_of_gt enough)
    rw [List.append_nil]
    exact ⟨_, collectFuel_nil fuel _, wordsOf_finish before _⟩
  | @cut items ws scan tag n filled found more ih =>
    obtain ⟨fuel, rfl⟩ := Nat.exists_eq_succ_of_ne_zero (Nat.ne_of_gt (Nat.zero_lt_of_lt enough))
    have shorter := drop_length_lt filled (firstMatch?_pos found)
    have whole : (before ++ items.take n) ++ items.drop n = before ++ items := by
      rw [List.append_assoc, List.take_append_drop]
    obtain ⟨rest, run, words⟩ := ih (before ++ items.take n) fuel (by omega)
    rw [whole, List.length_append] at run
    rw [whole] at words
    refine ⟨_, by rw [collectFuel_cut filled found, run], ?_⟩
    rw [wordsOf_cons, words]

theorem lexes_of_collectFuel (fuel : Nat) (before items : List Char) (enough : items.length < fuel)
    (all : (before ++ items).length ≤ (collectFuel rules fuel before.length items).2) :
    Lexes items (wordsOf (before ++ items) (collectFuel rules fuel before.length items).1) := by
  induction fuel generalizing before items with
  | zero => cases enough
  | succ fuel ih =>
    by_cases filled : items = []
    · subst filled
      rw [collectFuel_nil, wordsOf_finish]
      exact .finish
    · cases found : firstMatch? rules items with
      | none =>
        have positive := List.length_pos_iff.mpr filled
        simp only [collectFuel, found, List.length_append] at all
        omega
      | some cut =>
        obtain ⟨⟨scan, tag⟩, n⟩ := cut
        have shorter := drop_length_lt filled (firstMatch?_pos found)
        have whole : (before ++ items.take n) ++ items.drop n = before ++ items := by
          rw [List.append_assoc, List.take_append_drop]
        have size : (before ++ items.take n).length = before.length + (items.take n).length :=
          List.length_append
        have rest := ih (before ++ items.take n) (items.drop n) (by omega)
        rw [collectFuel_cut filled found] at all ⊢
        rw [whole, size] at rest
        rw [wordsOf_cons]
        exact .cut filled found (rest all)

theorem ofText_of_lexes {s : SourceText} (h : Lexes s.contents ws) :
    ∃ ls, ofText s = .ok ls ∧ ls.map word = ws := by
  obtain ⟨found, run, words⟩ := collectFuel_of_lexes h [] (s.contents.length + 1)
    (Nat.lt_succ_self _)
  simp only [List.length_nil, List.nil_append] at run words
  have finished : (collect rules s.contents).remaining = 0 := by
    simp [collect, run, Lexed.remaining]
  refine ⟨_, by rw [ofText, finished]; exact if_pos rfl, ?_⟩
  rw [← words]
  simp [collect, run, Lexed.tokens, wordsOf, word, List.map_filterMap, Option.map_map,
    Function.comp_def]

theorem lexes_of_ofText {s : SourceText} {ls : List Lexeme} (h : ofText s = .ok ls) :
    Lexes s.contents (ls.map word) := by
  unfold ofText at h
  dsimp only at h
  split at h
  · rename_i finished
    have all : ([] ++ s.contents).length ≤
        (collectFuel rules (s.contents.length + 1) ([] : List Char).length s.contents).2 := by
      simpa [collect, Lexed.remaining, Nat.sub_eq_zero_iff_le] using finished
    have lexes := lexes_of_collectFuel _ [] s.contents (Nat.lt_succ_self _) all
    have words : ls.map word = wordsOf ([] ++ s.contents)
        (collectFuel rules (s.contents.length + 1) ([] : List Char).length s.contents).1 := by
      cases h
      simp [collect, Lexed.tokens, wordsOf, word, List.map_filterMap, Option.map_map,
        Function.comp_def]
    rwa [words]
  · cases h

end Analog.Lexeme
