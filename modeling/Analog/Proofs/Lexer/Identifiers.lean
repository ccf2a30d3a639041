import Analog.Proofs.Lexer.Scanning

/-!
Texts that are names by the rule for names. Of the rules before it only the one for numbers takes a
character that a name may start with, the underscore; so such a text is one word exactly if it
starts otherwise.
-/
namespace Analog.Lexeme

open Lexer

variable {c : Char} {cs : List Char} {s : SourceText}

theorem isDigitLike_of_start (accepted : identifierStart.scan [c] ≠ 0) (other : c ≠ '_') :
    isDigitLike c = false := by
  by_contra digit
  simp only [isDigitLike, other, beq_iff_eq, Bool.or_eq_true, Bool.and_eq_true,
    decide_eq_true_eq, false_or, Bool.not_eq_false] at digit
  have dollar : c ≠ '$' := by
    rintro rfl
    exact absurd digit.1 (by decide)
  have small : ¬ 'a' ≤ c := not_le.mpr (lt_of_le_of_lt digit.2 (by decide))
  have large : ¬ 'A' ≤ c := not_le.mpr (lt_of_le_of_lt digit.2 (by decide))
  exact accepted (by
      simp [identifierStart, Pattern.scan, Pattern.scanFirst, scanUnit_one, other, dollar, small,
        large])

theorem isName_of_start (start : identifierStart.scan [c] ≠ 0) (other : c ≠ '_')
    (rest : ∀ d ∈ cs, identifierRest.scan [d] ≠ 0) : IsName (c :: cs) := by
  rw [scan_identifierStart [] (isDigitLike_of_start start other)] at start
  refine ⟨(ite_ne_right_iff.mp start).1, fun d mem => ?_⟩
  have inner := rest d mem
  rw [scan_identifierRest] at inner
  exact (ite_ne_right_iff.mp inner).1

theorem firstMatch?_underscore (cs : List Char) :
    ∃ n, firstMatch? rules ('_' :: cs) = some (⟨scanNumber, some .number⟩, n) := by
  have positive : 0 < scanNumber ('_' :: cs) :=
    Nat.pos_of_ne_zero fun none => absurd (isDigitLike_of_scanNumber none) (by decide)
  exact ⟨_, (firstMatch?_plain cs (by decide)).trans (firstMatch?_take rfl positive)⟩

theorem ofText_of_whole {scan : Scanner Char} {kind : Kind} (filled : s.contents ≠ [])
    (found : firstMatch? rules s.contents = some (⟨scan, some kind⟩, s.contents.length)) :
    ofText s = .ok [⟨kind, String.ofList s.contents, ⟨0, s.contents.length⟩⟩,
      ⟨.finish, "", ⟨s.contents.length, s.contents.length⟩⟩] := by
  have run : collectFuel rules (s.contents.length + 1) 0 s.contents =
      ([⟨some kind, ⟨0, s.contents.length⟩⟩,
        ⟨some .finish, ⟨s.contents.length, s.contents.length⟩⟩], s.contents.length) := by
    obtain ⟨k, size⟩ := Nat.exists_eq_succ_of_ne_zero (Nat.ne_of_gt (firstMatch?_pos found))
    rw [collectFuel_cut filled found, List.take_length, List.drop_length, Nat.zero_add, size]
    rfl
  simp [ofText, collect, run, Lexed.remaining, Lexed.tokens, textOf, Span.length]

/-- A text that the rule for names accepts is one word if it does not start with an underscore, and
only then. -/
theorem name_whole_iff_not_underscored (text : s.contents = c :: cs)
    (start : identifierStart.scan [c] ≠ 0) (rest : ∀ d ∈ cs, identifierRest.scan [d] ≠ 0) :
    ofText s = .ok [⟨.identifier, String.ofList s.contents, ⟨0, s.contents.length⟩⟩,
      ⟨.finish, "", ⟨s.contents.length, s.contents.length⟩⟩] ↔ c ≠ '_' := by
  have filled : s.contents ≠ [] := text ▸ List.cons_ne_nil c cs
  constructor
  · rintro whole rfl
    obtain ⟨n, number⟩ := firstMatch?_underscore cs
    have lexes := lexes_of_ofText whole
    rw [text] at lexes
    generalize words : List.map word _ = ws at lexes
    cases lexes with
    | cut filled found more =>
      rw [number] at found
      cases found
      simp [word] at words
  · intro other
    obtain ⟨scan, found⟩ := (isWord_name (isName_of_start start other rest)).cut [] apart_nil
    rw [List.append_nil, ← text] at found
    exact ofText_of_whole filled found

def insideName : SourceText := ⟨"", ['$', '_', '2', 'e', 'k']⟩

theorem name_whole_iff_not_underscored_inside :
    insideName.contents = '$' :: ['_', '2', 'e', 'k'] ∧ identifierStart.scan ['$'] ≠ 0 ∧
      (∀ d ∈ ['_', '2', 'e', 'k'], identifierRest.scan [d] ≠ 0) ∧
      (ofText insideName = .ok [⟨.identifier, String.ofList insideName.contents, ⟨0, 5⟩⟩,
        ⟨.finish, "", ⟨5, 5⟩⟩] ↔ '$' ≠ '_') := by
  have inner : ∀ d ∈ ['_', '2', 'e', 'k'], identifierRest.scan [d] ≠ 0 := by
    simp [scan_identifierRest, isInner]
  exact ⟨rfl, by decide, inner, name_whole_iff_not_underscored rfl (by decide) inner⟩

/-- The rule for names accepts `_x`, but the words found are a number and a name. -/
theorem underscored_name_split : identifierStart.scan ['_'] ≠ 0 ∧ identifierRest.scan ['x'] ≠ 0 ∧
    ofText ⟨"", ['_', 'x']⟩ =
      .ok [⟨.number, "_", ⟨0, 1⟩⟩, ⟨.identifier, "x", ⟨1, 2⟩⟩, ⟨.finish, "", ⟨2, 2⟩⟩] := by
  decide +kernel

end Analog.Lexeme
