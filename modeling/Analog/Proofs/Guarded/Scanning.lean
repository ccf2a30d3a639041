import Analog.Guarded.Scan
import Analog.Proofs.Lexer.Scanning

/-!
Cutting a text into words, with a guard on every access. Where the library takes characters from
behind the end of a text it gets none; here that is a crash, as is a round of the lexer that takes
no character. No rule of the lexer meets one, and the words are those of the library. The last of
them, and no other, is the end of the text.
-/
namespace Analog

namespace Crash

open Lexeme (digitsLength)

structure Measures (g : Except Crash Nat) (n : Nat) (items : List Char) : Prop where
  same : g = .ok n
  within : n ≤ items.length

theorem after_eq {items : List Char} {n : Nat} (inside : n ≤ items.length) :
    after items n = .ok (items.drop n) := if_pos inside

theorem range_eq {items : List Char} {start stop : Nat} (ordered : start ≤ stop)
    (inside : stop ≤ items.length) :
    range items start stop = .ok ((items.drop start).take (stop - start)) :=
    if_pos ⟨ordered, inside⟩

theorem measures_many {one : List Char → Except Crash Nat} {plain : List Char → Nat}
    (each : ∀ items, Measures (one items) (plain items) items) (fuel : Nat) (items : List Char)
    (enough : items.length ≤ fuel) :
    Measures (many one fuel items) (Pattern.scanManyFuel plain fuel items) items := by
  induction fuel generalizing items with
  | zero =>
    obtain rfl := List.eq_nil_of_length_eq_zero (Nat.le_zero.mp enough)
    exact ⟨rfl, Nat.le_refl 0⟩
  | succ fuel ih =>
    cases items with
    | nil => exact ⟨rfl, Nat.le_refl 0⟩
    | cons c cs =>
      obtain ⟨same, within⟩ := each (c :: cs)
      rw [many, Pattern.scanManyFuel, same]
      cases found : plain (c :: cs) with
      | zero => exact ⟨rfl, Nat.zero_le _⟩
      | succ n =>
        rw [found, List.length_cons] at within
        rw [List.length_cons] at enough
        have inside : n ≤ cs.length := Nat.le_of_succ_le_succ within
        have more := ih (cs.drop n) (by rw [List.length_drop]; omega)
        constructor
        · change (do return n + 1 + (← many one fuel (← after cs n))) = _
          rw [after_eq inside]
          change (do return n + 1 + (← many one fuel (cs.drop n))) = _
          rw [more.same]
          rfl
        · have := more.within
          rw [List.length_drop] at this
          rw [List.length_cons]
          dsimp only
          omega

theorem scanUnit_le (chars items : List Char) : Pattern.scanUnit chars items ≤ items.length := by
  unfold Pattern.scanUnit
  split
  · rename_i found
    exact (List.isPrefixOf_iff_prefix.mp found).length_le
  · exact Nat.zero_le _

theorem closing?_le {closing items : List Char} {k : Nat}
    (h : Pattern.closing? closing items = some k) : k ≤ items.length := by
  induction items generalizing k with
  | nil => cases h
  | cons c cs ih =>
    have whole := scanUnit_le closing (c :: cs)
    unfold Pattern.closing? at h
    split at h
    · obtain ⟨k, found, rfl⟩ := Option.map_eq_some_iff.mp h
      exact Nat.succ_le_succ (ih found)
    · cases h
      rename_i n found
      rwa [found] at whole

theorem measures_between (opening closing items : List Char) :
    Measures (between opening closing items) (Pattern.scanBetween opening closing items) items := by
  unfold between Pattern.scanBetween
  have whole := scanUnit_le opening items
  cases found : Pattern.scanUnit opening items with
  | zero => exact ⟨rfl, Nat.zero_le _⟩
  | succ n =>
    rw [found] at whole
    dsimp only
    rw [after_eq whole]
    cases shut : Pattern.closing? closing (items.drop (n + 1)) with
    | none => exact ⟨by simp only [bind, Except.bind, shut]; rfl, Nat.le_refl _⟩
    | some k =>
      have := closing?_le shut
      rw [List.length_drop] at this
      exact ⟨by simp only [bind, Except.bind, shut]; rfl, by dsimp only; omega⟩

mutual

/-- The end of the text does not count as a character of the pattern. -/
def inner : Pattern → Bool
  | .finish => false
  | .many p => inner p
  | .oneOf ps => innerAll ps
  | .sequence ps => innerAll ps
  | .leading first rest => inner first && inner rest
  | _ => true

def innerAll : List Pattern → Bool
  | [] => true
  | p :: ps => inner p && innerAll ps

end

theorem scanBytes_le (text items : List Char) : Pattern.scanBytes text items ≤ items.length := by
  unfold Pattern.scanBytes
  dsimp only
  split
  · rename_i fits
    rw [Bool.and_eq_true, decide_eq_true_eq] at fits
    exact fits.1
  · exact Nat.zero_le _

mutual

theorem measures_scan (p : Pattern) (h : inner p = true) (items : List Char) :
    Measures (scan p items) (p.scan items) items := by
  cases p with
  | unit chars => exact ⟨rfl, scanUnit_le chars items⟩
  | bytes text => exact ⟨rfl, scanBytes_le text items⟩
  | within low high =>
    refine ⟨rfl, ?_⟩
    cases items with
    | nil => exact Nat.le_refl 0
    | cons c cs =>
      unfold Pattern.scan
      dsimp only
      split
      · exact Nat.succ_le_succ (Nat.zero_le _)
      · exact Nat.zero_le _
  | many p =>
    unfold scan Pattern.scan
    exact measures_many (measures_scan p h) items.length items (Nat.le_refl _)
  | upTo c => exact ⟨rfl, (List.takeWhile_sublist _).length_le⟩
  | finish => cases h
  | oneOf ps =>
    unfold scan Pattern.scan
    exact measures_first ps h items
  | sequence ps =>
    unfold scan Pattern.scan
    obtain ⟨same, within⟩ := measures_all ps h 0 items
    exact ⟨same, by omega⟩
  | leading first rest =>
    rw [inner, Bool.and_eq_true] at h
    obtain ⟨same, within⟩ := measures_scan first h.1 items
    unfold scan Pattern.scan
    rw [same]
    cases found : first.scan items with
    | zero => exact ⟨rfl, Nat.zero_le _⟩
    | succ n =>
      rw [found] at within
      have more := measures_many (measures_scan rest h.2) _ (items.drop (n + 1)) (Nat.le_refl _)
      constructor
      · simp only [bind, Except.bind, after_eq within, more.same]
        rfl
      · have := more.within
        rw [List.length_drop] at this
        simp only [Pattern.scanMany, List.length_drop]
        omega
  | between opening closing =>
    unfold scan Pattern.scan
    exact measures_between opening closing items

theorem measures_first (ps : List Pattern) (h : innerAll ps = true) (items : List Char) :
    Measures (scanFirst ps items) (Pattern.scanFirst ps items) items := by
  cases ps with
  | nil => exact ⟨rfl, Nat.zero_le _⟩
  | cons p ps =>
    rw [innerAll, Bool.and_eq_true] at h
    obtain ⟨same, within⟩ := measures_scan p h.1 items
    unfold scanFirst Pattern.scanFirst
    rw [same]
    cases found : p.scan items with
    | zero => exact measures_first ps h.2 items
    | succ n =>
      rw [found] at within
      exact ⟨rfl, within⟩

theorem measures_all (ps : List Pattern) (h : innerAll ps = true) (done : Nat) (items : List Char) :
    scanAll ps done items = .ok (Pattern.scanAll ps done items) ∧
      Pattern.scanAll ps done items ≤ done + items.length := by
  cases ps with
  | nil => exact ⟨rfl, Nat.le_add_right _ _⟩
  | cons p ps =>
    rw [innerAll, Bool.and_eq_true] at h
    obtain ⟨same, within⟩ := measures_scan p h.1 items
    unfold scanAll Pattern.scanAll
    cases ended : items.isEmpty with
    | true =>
      cases ps with
      | nil => exact ⟨rfl, Nat.le_add_right _ _⟩
      | cons q qs => exact ⟨rfl, Nat.zero_le _⟩
    | false =>
      rw [same]
      cases last : ps.isEmpty with
      | true => exact ⟨rfl, Nat.add_le_add_left within done⟩
      | false =>
        cases found : p.scan items with
        | zero => exact ⟨rfl, Nat.zero_le _⟩
        | succ n =>
          rw [found] at within
          have more := measures_all ps h.2 (done + n + 1) (items.drop (n + 1))
          rw [List.length_drop] at more
          refine ⟨?_, Nat.le_trans more.2 (by omega)⟩
          simp only [Bool.false_eq_true, if_false, bind, Except.bind, after_eq within]
          exact more.1

end

theorem fraction_eq {items : List Char} {n : Nat} (inside : n ≤ items.length) :
    fraction items n = .ok (Lexeme.fractionLength (items.drop n)) := by
  unfold fraction Lexeme.fractionLength
  rw [after_eq inside]
  cases rest : items.drop n with
  | nil => rfl
  | cons c cs =>
    have size := congrArg List.length rest
    rw [List.length_drop, List.length_cons] at size
    have behind : items.drop (n + 1) = cs := by rw [← List.drop_drop, rest]; rfl
    by_cases point : c = '.'
    · subst point
      simp only [bind, Except.bind, after_eq (show n + 1 ≤ items.length by omega), behind]
      cases digitsLength cs <;> rfl
    · simp [bind, Except.bind, pure, Except.pure, point]

theorem exponent_eq {items : List Char} {n : Nat} (inside : n ≤ items.length) :
    exponent items n = .ok (Lexeme.exponentLength (items.drop n)) := by
  unfold exponent Lexeme.exponentLength
  rw [after_eq inside]
  cases rest : items.drop n with
  | nil => rfl
  | cons c cs =>
    have size := congrArg List.length rest
    rw [List.length_drop, List.length_cons] at size
    have signed := Lexeme.signLength_le cs
    have behind : items.drop (n + 1 + Lexeme.signLength cs) = cs.drop (Lexeme.signLength cs) := by
      rw [← List.drop_drop, ← List.drop_drop, rest]
      rfl
    simp only [bind, Except.bind,
      after_eq (show n + 1 + Lexeme.signLength cs ≤ items.length by omega), behind]
    split
    · cases digitsLength (cs.drop (Lexeme.signLength cs)) <;> rfl
    · rfl

theorem scale_eq {items : List Char} {n : Nat} (inside : n ≤ items.length) :
    scale items n = .ok (Lexeme.scaleLength (items.drop n)) := by
  unfold scale Lexeme.scaleLength
  rw [after_eq inside]
  cases rest : items.drop n with
  | nil => rfl
  | cons c cs =>
    have size := congrArg List.length rest
    rw [List.length_drop, List.length_cons] at size
    have behind : items.drop (n + 1) = cs := by rw [← List.drop_drop, rest]; rfl
    simp only [bind, Except.bind]
    cases Value.isScaleLetter c with
    | false => rfl
    | true =>
      cases cs with
      | nil => rfl
      | cons d ds =>
        rw [List.length_cons] at size
        rw [range_eq (show n + 1 ≤ n + 2 by omega) (by omega), behind, Nat.add_sub_add_left]
        rfl

theorem number_eq (items : List Char) : number items = .ok (Lexeme.scanNumber items) := by
  unfold number Lexeme.scanNumber
  have whole := Lexeme.digitsLength_le items
  cases found : digitsLength items with
  | zero => rfl
  | succ n =>
    rw [found] at whole
    have part := Lexeme.fractionLength_le (items.drop (n + 1))
    rw [List.length_drop] at part
    have inside : n + 1 + Lexeme.fractionLength (items.drop (n + 1)) ≤ items.length := by omega
    simp only [fraction_eq whole, bind, Except.bind, exponent_eq inside, scale_eq inside]
    cases Lexeme.exponentLength (items.drop (n + 1 + Lexeme.fractionLength (items.drop (n + 1))))
      <;> rfl

/-- Only a whole rule looks for the end of the text. -/
def Shape.fits : Shape → Bool
  | .pattern .finish => true
  | .pattern p => inner p
  | _ => true

theorem shapes_fit : ∀ shape ∈ shapes, shape.1.fits = true := by decide

theorem rules_eq : Lexeme.rules = shapes.map fun shape => ⟨shape.1.plain, shape.2⟩ := rfl

theorem measure_eq {shape : Shape} (h : shape.fits = true) (items : List Char) :
    shape.measure items = .ok (shape.plain items) := by
  cases shape with
  | pattern p =>
    cases p with
    | finish => rfl
    | _ => exact (measures_scan _ h items).same
  | number => exact number_eq items
  | string => rfl

theorem firstMatch_eq {rest : List (Shape × Option Kind)}
    (fit : ∀ shape ∈ rest, shape.1.fits = true) (items : List Char) :
    firstMatch rest items =
      .ok ((Lexer.firstMatch? (rest.map fun shape => ⟨shape.1.plain, shape.2⟩) items).map
      fun found => (found.1.tag, found.2)) := by
  induction rest with
  | nil => rfl
  | cons shape rest ih =>
    have more := ih fun other member => fit other (.tail _ member)
    unfold firstMatch
    rw [measure_eq (fit shape (.head _)), List.map_cons, Lexer.firstMatch?]
    dsimp only
    cases shape.1.plain items with
    | zero => exact more
    | succ n => rfl

def lexemes (contents : List Char) (found : List (Match Kind)) : List Lexeme :=
  found.filterMap fun m => m.tag.map fun kind => ⟨kind, Lexeme.textOf contents m.span, m.span⟩

theorem lexemes_cons (contents : List Char) (tag : Option Kind) (start stop : Nat)
    (more : List (Match Kind)) :
    lexemes contents (⟨tag, ⟨start, stop⟩⟩ :: more) = (tag.toList.map fun kind =>
        ⟨kind, String.ofList ((contents.drop start).take (stop - start)), ⟨start, stop⟩⟩) ++
        lexemes contents more := by
  cases tag <;> rfl

theorem words_eq (contents : List Char) (fuel start : Nat) (inside : start ≤ contents.length)
    (enough : contents.length - start < fuel) : words contents fuel start =
      .ok (lexemes contents (Lexer.collectFuel Lexeme.rules fuel start (contents.drop start)).1,
        (Lexer.collectFuel Lexeme.rules fuel start (contents.drop start)).2) := by
  induction fuel generalizing start with
  | zero => cases enough
  | succ fuel ih =>
    have first := firstMatch_eq shapes_fit (contents.drop start)
    rw [← rules_eq] at first
    unfold words
    simp only [after_eq inside, bind, Except.bind, first]
    cases found : Lexer.firstMatch? Lexeme.rules (contents.drop start) with
    | none => simp only [Lexer.collectFuel, found]; rfl
    | some cut =>
      obtain ⟨⟨scan, tag⟩, n⟩ := cut
      have positive := Lexeme.firstMatch?_pos found
      rw [Lexeme.collectFuel_some inside found]
      simp only [Option.map_some, range_eq (show start ≤ min contents.length (start + n) by omega)
        (Nat.min_le_left ..)]
      by_cases last : start = contents.length
      · rw [if_pos last, if_pos last, lexemes_cons]
        exact congrArg (fun found => Except.ok (found, start)) (List.append_nil _).symm
      · rw [if_neg last, if_neg (by omega), if_neg last, Prod.map_fst, Prod.map_snd, lexemes_cons,
          ih (min contents.length (start + n)) (Nat.min_le_left ..) (by omega)]
        rfl

theorem lex_eq (s : SourceText) : lex s = .ok (Lexeme.ofText s) := by
  have all := words_eq s.contents (s.contents.length + 1) 0 (Nat.zero_le _) (by omega)
  rw [List.drop_zero] at all
  unfold lex Lexeme.ofText Lexer.collect
  rw [all]
  obtain ⟨found, stop⟩ := Lexer.collectFuel Lexeme.rules (s.contents.length + 1) 0 s.contents
  change (if (s.contents.length - stop == 0) = true then _ else _) =
    Except.ok (if (s.contents.length - stop == 0) = true then _ else _)
  split
  · simp only [lexemes, Lexed.tokens, List.map_filterMap, Option.map_map, Function.comp_def]
    rfl
  · rfl

end Crash

/-- Words of which the last one, and no other, is the end of the text. -/
inductive Words.Ended : Words → Prop
  | finish {w : Lexeme} (last : w.kind = .finish) : Ended [w]
  | cons {w : Lexeme} {ws : Words} (inner : w.kind ≠ .finish) (more : Ended ws) : Ended (w :: ws)

namespace Lexeme

open Lexer

theorem kind_ne_finish {items : List Char} {scan : Scanner Char} {kind : Kind} {n : Nat}
    (filled : items ≠ [])
    (found : firstMatch? rules items = some (⟨scan, some kind⟩, n)) : kind ≠ .finish := by
  have tagged : ∀ r ∈ rules.dropLast, r.tag ≠ some .finish := by decide
  have split : rules = rules.dropLast ++ [rule .finish .finish] := rfl
  rintro rfl
  rw [split, firstMatch?_append] at found
  cases before : firstMatch? rules.dropLast items with
  | some cut =>
    rw [before, Option.some_or, Option.some.injEq] at found
    subst found
    exact tagged _ (mem_of_firstMatch? before) rfl
  | none =>
    obtain ⟨c, cs, rfl⟩ := List.exists_cons_of_ne_nil filled
    rw [before] at found
    cases found

theorem ended_of_lexes {items : List Char} {spelled : List (Kind × String)}
    (h : Lexes items spelled) (ws : Words) (same : ws.map word = spelled) : ws.Ended := by
  induction h generalizing ws with
  | finish =>
    obtain ⟨w, rest, rfl, last, none⟩ := List.map_eq_cons_iff.mp same
    obtain rfl := List.map_eq_nil_iff.mp none
    exact .finish (congrArg Prod.fst last)
  | @cut items spelled scan tag n filled found more ih =>
    cases tag with
    | none => exact ih ws same
    | some kind =>
      obtain ⟨w, rest, rfl, first, others⟩ := List.map_eq_cons_iff.mp same
      have inner := kind_ne_finish filled found
      rw [← show w.kind = kind from congrArg Prod.fst first] at inner
      exact .cons inner (ih rest others)

theorem ended_of_ofText {s : SourceText} {ws : Words} (h : ofText s = .ok ws) : ws.Ended :=
  ended_of_lexes (lexes_of_ofText h) ws rfl

end Lexeme
end Analog
