import Analog.Proofs.Parser.Rereading
import Analog.Tree.Printer
import Analog.Value.Fold

/-!
How literals are written. A literal is one word, or a minus sign and one word; a text that can be
unquoted is one word.
-/
namespace Analog

namespace Text

theorem trim_closed (cs : List Char) {c e : Char} (first : isBlank c = false)
    (last : isBlank e = false) : trim (c :: (cs ++ [e])) = c :: (cs ++ [e]) := by
  have reversed : (c :: (cs ++ [e])).reverse = e :: (cs.reverse ++ [c]) := by simp
  rw [trim, List.dropWhile_cons, if_neg (by simp [first]), reversed, List.dropWhile_cons,
    if_neg (by simp [last]), ← reversed, List.reverse_reverse]

theorem takeDigits_eq_some {base : Nat} {value? : Char → Option Nat} {count acc n : Nat}
    {cs rest : List Char} (h : takeDigits base value? count acc cs = some (n, rest)) :
    ∃ ds, cs = ds ++ rest ∧ ∀ c ∈ ds, (value? c).isSome = true := by
  induction count generalizing acc cs with
  | zero =>
    cases h
    exact ⟨[], rfl, nofun⟩
  | succ count ih =>
    cases cs with
    | nil => cases h
    | cons c cs =>
      obtain ⟨d, digit, more⟩ := Option.bind_eq_some_iff.mp h
      obtain ⟨ds, rfl, known⟩ := ih more
      exact ⟨c :: ds, rfl, List.forall_mem_cons.mpr ⟨by rw [digit]; rfl, known⟩⟩

end Text

namespace Lexeme

variable {cs rest : List Char} {bs : Text.Bytes}

def IsInside (c : Char) : Prop := c ≠ '"' ∧ c ≠ '\\'

theorem closingQuote?_inside {ds : List Char} (inside : ∀ c ∈ ds, IsInside c) (rest : List Char) :
    closingQuote? (ds ++ rest) = (closingQuote? rest).map (· + ds.length) := by
  induction ds with
  | nil => simp
  | cons c ds ih =>
    obtain ⟨⟨quote, escape⟩, more⟩ := List.forall_mem_cons.mp inside
    rw [List.cons_append, closingQuote?_plain _ quote escape, ih more, Option.map_map]
    rfl

theorem isInside_of_hexValue? {c : Char} (h : (Text.hexValue? c).isSome = true) : IsInside c := by
  constructor <;> rintro rfl <;> cases h

theorem isInside_of_octalValue? {c : Char} (h : (Text.octalValue? c).isSome = true) :
    IsInside c := by
  constructor <;> rintro rfl <;> cases h

theorem takeDigits_inside {base : Nat} {value? : Char → Option Nat}
    (plain : ∀ c, (value? c).isSome = true → IsInside c) {count acc n : Nat}
    (h : Text.takeDigits base value? count acc cs = some (n, rest)) :
    ∃ ds, cs = ds ++ rest ∧ ∀ d ∈ ds, IsInside d := by
  obtain ⟨ds, same, known⟩ := Text.takeDigits_eq_some h
  exact ⟨ds, same, fun d mem => plain d (known d mem)⟩

theorem takeEscape_eq_some (h : Text.takeEscape cs = some (bs, rest)) :
    ∃ c ds, cs = c :: (ds ++ rest) ∧ ∀ d ∈ ds, IsInside d := by
  have hex := fun c => @isInside_of_hexValue? c
  have octal := fun c => @isInside_of_octalValue? c
  unfold Text.takeEscape at h
  split at h
  · cases h
  · rename_i cs
    obtain ⟨⟨n, left⟩, taken, last⟩ := Option.bind_eq_some_iff.mp h
    cases last
    obtain ⟨ds, rfl, inside⟩ := takeDigits_inside hex taken
    exact ⟨'x', ds, rfl, inside⟩
  · rename_i cs
    obtain ⟨⟨n, left⟩, taken, rest⟩ := Option.bind_eq_some_iff.mp h
    obtain ⟨c, _, last⟩ := Option.bind_eq_some_iff.mp rest
    cases last
    obtain ⟨ds, rfl, inside⟩ := takeDigits_inside hex taken
    exact ⟨'u', ds, rfl, inside⟩
  · rename_i cs
    obtain ⟨⟨n, left⟩, taken, rest⟩ := Option.bind_eq_some_iff.mp h
    obtain ⟨c, _, last⟩ := Option.bind_eq_some_iff.mp rest
    cases last
    obtain ⟨ds, rfl, inside⟩ := takeDigits_inside hex taken
    exact ⟨'U', ds, rfl, inside⟩
  · cases h
    exact ⟨'\\', [], rfl, nofun⟩
  · cases h
    exact ⟨'"', [], rfl, nofun⟩
  · rename_i c cs _ _ _ _ _
    split at h
    · cases h
      exact ⟨c, [], rfl, nofun⟩
    · obtain ⟨d, _, rest⟩ := Option.bind_eq_some_iff.mp h
      obtain ⟨⟨n, left⟩, taken, last⟩ := Option.bind_eq_some_iff.mp rest
      dsimp only at last
      split at last
      · cases last
        obtain ⟨ds, rfl, inside⟩ := takeDigits_inside octal taken
        exact ⟨c, ds, rfl, inside⟩
      · cases last

theorem closingQuote?_of_unquoteFuel {fuel : Nat} (h : Text.unquoteFuel fuel cs = some bs) :
    closingQuote? cs = some cs.length := by
  induction fuel generalizing cs bs with
  | zero => cases h
  | succ fuel ih =>
    cases cs with
    | nil => cases h
    | cons c cs =>
      rw [Text.unquoteFuel] at h
      split at h
      · rename_i quote
        obtain rfl := beq_iff_eq.mp quote
        split at h
        · rename_i nothing
          obtain rfl := List.isEmpty_iff.mp nothing
          rfl
        · cases h
      · rename_i quote
        split at h
        · cases h
        · split at h
          · rename_i escape
            obtain rfl := beq_iff_eq.mp escape
            obtain ⟨⟨bs, rest⟩, taken, more⟩ := Option.bind_eq_some_iff.mp h
            obtain ⟨_, inner, _⟩ := Option.bind_eq_some_iff.mp more
            obtain ⟨e, ds, rfl, inside⟩ := takeEscape_eq_some taken
            rw [closingQuote?, closingQuote?_inside inside, ih inner]
            simp
            omega
          · rename_i escape
            obtain ⟨_, inner, _⟩ := Option.bind_eq_some_iff.mp h
            have plain : c ≠ '"' ∧ c ≠ '\\' := by simpa using And.intro quote escape
            rw [closingQuote?_plain _ plain.1 plain.2, ih inner]
            rfl

theorem isWord_of_unquote? (h : Text.unquote? cs = some bs) : IsWord .string cs := by
  unfold Text.unquote? at h
  split at h
  · rename_i cs
    refine isWord_string (List.cons_ne_nil _ _) ?_
    rw [scanString, closingQuote?_of_unquoteFuel h]
    rfl
  · cases h

end Lexeme

namespace Value

theorem toInt_opposite {n : Int64} (negative : n.toInt < 0) (least : n ≠ Int64.minValue) :
    (-n).toInt = -n.toInt := by
  have low : -2 ^ 63 ≤ n.toInt := Int64.minValue_le_toInt n
  have other : n.toInt ≠ -2 ^ 63 := fun same => least (Int64.toInt_inj.mp same)
  rw [Int64.toInt_neg, Int.bmod_eq_of_le (by omega) (by omega)]

theorem text_negative {n : Int64} (negative : n.toInt < 0) (least : n ≠ Int64.minValue) :
    (Value.int n).text = "-" ++ (Value.int (-n)).text := by
  obtain ⟨m, same⟩ := Int.eq_negSucc_of_lt_zero negative
  rw [text, text, toInt_opposite negative least, same]
  rfl

theorem spelled_str {bytes : Text.Bytes}
    (h : Text.unquote? (Text.quote bytes).toList = some bytes) :
    (Value.str bytes).Spelled (Value.str bytes).text := by
  refine ⟨Lexeme.isWord_of_unquote? h, ?_⟩
  have quoted : (Text.quote bytes).toList = '"' ::
      ((String.join ((Text.pieces bytes).map Text.Piece.escape)).toList ++ ['"']) := by
    simp [Text.quote, String.toList_append]
  unfold Value.read
  rw [text, quoted, Text.trim_closed _ (by decide) (by decide)]
  rw [quoted] at h
  simp only [h]

/-- A literal that its text gives back: an integer that has an opposite; a real whose text is one
number, with a minus sign in front or not, that is read as this real; a string that quoting leaves
the same. -/
def Legible : Value → Prop
  | .int n => n ≠ Int64.minValue
  | .real x => ∃ (w : String) (y : Float), Lexeme.scanNumber w.toList = w.toList.length ∧
      Value.read w = .ok (.real y) ∧
      ((Value.real x).text = w ∧ y = x ∨ (Value.real x).text = "-" ++ w ∧ -y = x)
  | .str bytes => Text.unquote? (Text.quote bytes).toList = some bytes

inductive Written (v : Value) : Prop
  | plain (spelled : v.Spelled v.text)
  | signed {y : Value} {w : String} (spelled : y.Spelled w) (text : v.text = "-" ++ w)
    (opposite : foldUnary .neg y = .ok v)

theorem Legible.written {v : Value} (h : v.Legible) : v.Written := by
  cases v with
  | int n =>
    rcases lt_or_ge n.toInt 0 with negative | nonneg
    · have opposite := toInt_opposite negative h
      refine .signed (spelled_int (by omega)) (text_negative negative h) ?_
      rw [foldUnary, Int64.neg_neg]
    · exact .plain (spelled_int nonneg)
  | real x =>
    obtain ⟨w, y, number, read, written⟩ := h
    have filled : w.toList ≠ [] := by
      intro nothing
      obtain rfl := String.toList_eq_nil_iff.mp nothing
      cases read
    have spelled : (Value.real y).Spelled w := ⟨Lexeme.isWord_number filled number, read⟩
    rcases written with ⟨text, rfl⟩ | ⟨text, rfl⟩
    · exact .plain (by rw [text]; exact spelled)
    · exact .signed spelled text rfl
  | str bytes => exact .plain (spelled_str h)

theorem isSigned_plain {v : Value} (spelled : v.Spelled v.text) : Tree.isSigned v = false := by
  obtain ⟨c, head, other⟩ := spelled.word.starts
  rw [Tree.isSigned, head, beq_eq_false_iff_ne]
  rintro ⟨⟩
  exact other (by decide)

theorem isSigned_signed {v : Value} {w : String} (text : v.text = "-" ++ w) :
    Tree.isSigned v = true := by
  rw [Tree.isSigned, text, String.toList_append]
  rfl

end Value

end Analog
