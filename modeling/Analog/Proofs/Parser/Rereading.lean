import Analog.Proofs.Parser.Spelling

/-!
Integer literals are read from what they are written as. What the parser reads from a text with
integer literals only is therefore printed as a text that gives the same tokens.
-/
namespace Analog

namespace Decimal

theorem digitValue?_ten {c : Char} (digit : c.isDigit = true) :
    digitValue? 10 c = some (c.toNat - '0'.toNat) := by
  have bound : c.toNat ≤ 57 := (Char.isDigit_iff_toNat.mp digit).2
  have zero : '0'.toNat = 48 := rfl
  have range : ('0' ≤ c && c ≤ '9') = true := digit
  rw [digitValue?, if_pos range, if_pos (by omega)]

theorem digitsValue_toDigits (m : Nat) : digitsValue 10 (Nat.toDigits 10 m) = m := by
  conv_rhs => rw [← @Nat.ofDigitChars_ten_toDigits m]
  rw [Nat.ofDigitChars_eq_foldl, digitsValue]
  refine List.foldl_ext _ _ _ fun acc c mem => ?_
  rw [digitValue?_ten (Nat.isDigit_of_mem_toDigits (by decide) (by decide) mem),
    Option.getD_some, Nat.mul_comm]

theorem readInt?_toDigits {m : Nat} (small : m ≤ Int64.maxValue.toInt) :
    readInt? (Nat.toDigits 10 m) = some (Int64.ofInt m) := by
  have digits : ∀ c ∈ Nat.toDigits 10 m, c.isDigit = true :=
    fun c => Nat.isDigit_of_mem_toDigits (by decide) (by decide)
  have all : (Nat.toDigits 10 m).all (isDigit 10) = true := by
    rw [List.all_eq_true]
    intro c mem
    rw [isDigit, digitValue?_ten (digits c mem)]
    rfl
  have sign : takeSign (Nat.toDigits 10 m) = (false, Nat.toDigits 10 m) := by
    refine takeSign.eq_3 _ ?_ ?_
    · intro cs h
      cases digits '-' (by rw [h]; exact .head _)
    · intro cs h
      cases digits '+' (by rw [h]; exact .head _)
  simp only [readInt?, sign, all, digitsValue_toDigits]
  simp [small, Nat.toDigits_ne_nil]

theorem readInt?_nonneg {cs : List Char} {n : Int64} (h : readInt? cs = some n) (plain : '-' ∉ cs) :
    0 ≤ n.toInt := by
  have sign : (takeSign cs).1 = false := by
    fun_cases takeSign cs with
    | case1 cs => exact absurd (.head _) plain
    | case2 cs => rfl
    | case3 => rfl
  unfold readInt? at h
  simp only [sign] at h
  split at h
  · cases h
  · simp only [Bool.false_eq_true, if_false] at h
    split at h
    · rename_i range
      cases h
      obtain ⟨low, high⟩ := Bool.and_eq_true_iff.mp range
      have least : Int64.minValue.toInt = -2 ^ 63 := rfl
      have greatest : Int64.maxValue.toInt = 2 ^ 63 - 1 := rfl
      simp only [decide_eq_true_eq, least, greatest] at low high
      rw [Int64.toInt_ofInt_of_le low (by omega)]
      exact Int.natCast_nonneg _
    · cases h

end Decimal

namespace Text

theorem trim_of_forall {cs : List Char} (plain : ∀ c ∈ cs, isBlank c = false) : trim cs = cs := by
  have keep : ∀ ds : List Char, (∀ c ∈ ds, isBlank c = false) → ds.dropWhile isBlank = ds := by
    intro ds all
    cases ds with
    | nil => rfl
    | cons d ds => rw [List.dropWhile_cons, if_neg (by simp [all d (.head _)])]
  rw [trim, keep cs plain, keep cs.reverse (by simpa using plain), List.reverse_reverse]

theorem mem_trim {cs : List Char} {c : Char} (mem : c ∈ cs) (plain : isBlank c = false) :
    c ∈ trim cs := by
  have keep : ∀ ds : List Char, c ∈ ds → c ∈ ds.dropWhile isBlank := by
    intro ds mem
    rw [← List.takeWhile_append_dropWhile (p := isBlank) (l := ds)] at mem
    rcases List.mem_append.mp mem with front | rest
    · simp [List.mem_takeWhile_imp front] at plain
    · exact rest
  simpa [trim] using keep _ (by simpa using keep cs mem)

theorem mem_of_mem_trim {cs : List Char} {c : Char} (mem : c ∈ trim cs) : c ∈ cs := by
  rw [trim, List.mem_reverse] at mem
  exact (List.dropWhile_sublist _).mem (by simpa using (List.dropWhile_sublist _).mem mem)

theorem head?_trim {c : Char} (cs : List Char) (plain : isBlank c = false) :
    (trim (c :: cs)).head? = some c := by
  rw [trim, List.dropWhile_cons, if_neg (by simp [plain]), List.head?_reverse, List.reverse_cons,
    List.dropWhile_append]
  split <;> simp [plain]

end Text

namespace Value

theorem isBlank_digit {c : Char} (digit : c.isDigit = true) : Text.isBlank c = false := by
  have bounds := Char.isDigit_iff_toNat.mp digit
  have zero : '0'.toNat = 48 := rfl
  have nine : '9'.toNat = 57 := rfl
  simp [Text.isBlank]
  omega

theorem lookup_digit {c : Char} (digit : c.isDigit = true) : scaleLetters.lookup c = none := by
  rw [List.lookup_eq_none_iff]
  intro entry mem
  fin_cases mem <;> (rw [bne_iff_ne]; rintro rfl; cases digit)

theorem splitScale_digits {cs : List Char} (digits : ∀ c ∈ cs, c.isDigit = true) :
    splitScale cs = (cs, none) := by
  unfold splitScale
  split
  · rename_i last more rest reversed
    rw [lookup_digit (digits last (List.mem_reverse.mp (by rw [reversed]; exact .head _)))]
  · rfl

theorem readNumber?_digits {cs : List Char} (digits : ∀ c ∈ cs, c.isDigit = true) {n : Int64}
    (whole : Decimal.readInt? cs = some n) : readNumber? cs = some (.int n) := by
  have plain : cs.filter (· != '_') = cs := by
    rw [List.filter_eq_self]
    intro c mem
    rw [bne_iff_ne]
    rintro rfl
    cases digits _ mem
  have marks : cs.any ['.', 'e', 'E'].contains = false := by
    rw [List.any_eq_false]
    intro c mem mark
    have digit := digits c mem
    simp only [List.contains_iff_mem] at mark
    fin_cases mark <;> cases digit
  simp only [readNumber?, plain, splitScale_digits digits, marks, Bool.false_eq_true,
    if_false, whole]

theorem read_toDigits {m : Nat} (small : m ≤ Int64.maxValue.toInt) :
    Value.read (String.ofList (Nat.toDigits 10 m)) = .ok (.int (Int64.ofInt m)) := by
  have digits : ∀ c ∈ Nat.toDigits 10 m, c.isDigit = true :=
    fun c => Nat.isDigit_of_mem_toDigits (by decide) (by decide)
  unfold Value.read
  rw [String.toList_ofList, Text.trim_of_forall fun c mem => isBlank_digit (digits c mem)]
  dsimp only
  rw [readNumber?_digits digits (Decimal.readInt?_toDigits small)]
  split
  · rename_i text
    cases digits '"' (by rw [text]; exact .head _)
  · rfl

theorem read_quoted {cs ds : List Char} (quoted : cs = '"' :: ds) (n : Int64) :
    Value.read (String.ofList cs) ≠ .ok (.int n) := by
  obtain ⟨es, trimmed⟩ := List.head?_eq_some_iff.mp (Text.head?_trim ds (c := '"') (by decide))
  unfold Value.read
  rw [String.toList_ofList, quoted, trimmed]
  dsimp only
  split
  · cases Text.unquote? ('"' :: es) <;> simp
  · rename_i unquoted
    exact absurd rfl (unquoted es)

theorem readInt?_of_readNumber? {cs : List Char} {n : Int64} (h : readNumber? cs = some (.int n)) :
    Decimal.readInt? (cs.filter (· != '_')) = some n ∧ ∀ c ∈ cs, c ≠ 'e' ∧ c ≠ 'E' := by
  unfold readNumber? at h
  dsimp only at h
  split at h
  · obtain ⟨x, -, real⟩ := Option.map_eq_some_iff.mp h
    cases real
  · rename_i factor
    have unscaled : (splitScale (cs.filter (· != '_'))).1 = cs.filter (· != '_') := by
      revert factor
      fun_cases splitScale <;> simp
    rw [unscaled] at h
    split at h
    · rename_i n' found
      cases h
      split at found
      · cases found
      · rename_i marks
        refine ⟨found, fun c mem => ?_⟩
        rw [Bool.not_eq_true, List.any_eq_false] at marks
        constructor <;> rintro rfl <;>
          exact marks _ (List.mem_filter.mpr ⟨mem, by decide⟩) (by decide)
    · obtain ⟨x, -, real⟩ := Option.map_eq_some_iff.mp h
      cases real

theorem nonneg_of_read {cs : List Char} {n : Int64} (number : '-' ∈ cs → ∃ c ∈ cs, c = 'e' ∨
      c = 'E') (h : Value.read (String.ofList cs) = .ok (.int n)) : 0 ≤ n.toInt := by
  unfold Value.read at h
  rw [String.toList_ofList] at h
  dsimp only at h
  split at h
  · split at h <;> cases h
  · split at h
    · rename_i v found
      cases h
      obtain ⟨whole, plain⟩ := readInt?_of_readNumber? found
      refine Decimal.readInt?_nonneg whole fun minus => ?_
      obtain ⟨c, mem, mark⟩ := number (Text.mem_of_mem_trim (List.mem_of_mem_filter minus))
      have kept := plain c (Text.mem_trim mem (by rcases mark with rfl | rfl <;> decide))
      rcases mark with rfl | rfl
      · exact kept.1 rfl
      · exact kept.2 rfl
    · cases h

theorem scanNumber_digits {cs : List Char} (digits : ∀ c ∈ cs, c.isDigit = true) :
    Lexeme.scanNumber cs = cs.length := by
  have all : Lexeme.digitsLength cs = cs.length := by
    rw [Lexeme.digitsLength, List.takeWhile_eq_self_iff.mpr]
    intro c mem
    have digit : ('0' ≤ c && c ≤ '9') = true := digits c mem
    rw [Lexeme.isDigitLike, digit, Bool.or_true]
  unfold Lexeme.scanNumber
  rw [all]
  cases cs with
  | nil => rfl
  | cons c cs => simp [Lexeme.fractionLength, Lexeme.exponentLength, Lexeme.scaleLength]

theorem text_int {n : Int64} (nonneg : 0 ≤ n.toInt) :
    (Value.int n).text = String.ofList (Nat.toDigits 10 n.toInt.toNat) := by
  obtain ⟨m, same⟩ := Int.eq_ofNat_of_zero_le nonneg
  rw [text, same]
  exact Nat.repr_eq_ofList_toDigits

theorem spelled_int {n : Int64} (nonneg : 0 ≤ n.toInt) :
    (Value.int n).Spelled (Value.int n).text := by
  have size : ((n.toInt.toNat : Nat) : Int) = n.toInt := Int.toNat_of_nonneg nonneg
  have small : (n.toInt.toNat : Int) ≤ Int64.maxValue.toInt := by
    rw [size]
    exact Int64.le_iff_toInt_le.mp n.le_maxValue
  refine ⟨?_, ?_⟩
  · rw [text_int nonneg, String.toList_ofList]
    exact Lexeme.isWord_number Nat.toDigits_ne_nil (scanNumber_digits fun c =>
      Nat.isDigit_of_mem_toDigits (by decide) (by decide))
  · rw [text_int nonneg, read_toDigits small, size, Int64.ofInt_toInt]

end Value

namespace Lexeme

structure Known (w : Kind × String) : Prop where
  name : w.1 = .identifier → IsWord .identifier w.2.toList
  number : w.1 = .number → ∀ before after, w.2.toList = before ++ '-' :: after →
    ∃ c ∈ before, c = 'e' ∨ c = 'E'
  string : w.1 = .string → w.2.toList.head? = some '"'

theorem Known.nonneg {w : Lexeme} (known : Known w.word)
    (kind : w.kind = .number ∨ w.kind = .string)
    {n : Int64} (value : Value.read w.text = .ok (.int n)) : 0 ≤ n.toInt := by
  rw [← String.ofList_toList (s := w.text)] at value
  rcases kind with number | string
  · refine Value.nonneg_of_read (fun minus => ?_) value
    obtain ⟨before, after, parts⟩ := List.append_of_mem minus
    obtain ⟨c, mem, mark⟩ := known.number number before after parts
    exact ⟨c, by simp [parts, mem], mark⟩
  · obtain ⟨cs, quoted⟩ := List.head?_eq_some_iff.mp (known.string string)
    exact absurd value (Value.read_quoted quoted n)

theorem known_of_firstMatch? {items : List Char} {scan : Scanner Char} {kind : Kind} {n : Nat}
    (found : Lexer.firstMatch? rules items = some (⟨scan, some kind⟩, n)) :
    Known (kind, String.ofList (items.take n)) := by
  have positive := firstMatch?_pos found
  refine ⟨?_, ?_, ?_⟩ <;> rintro ⟨⟩ <;> rw [String.toList_ofList]
  · obtain _ | _ | ⟨number, here⟩ := finds_of_firstMatch? found (by simp)
    exact isWord_name (isName_of_finds positive number here)
  · obtain ⟨here⟩ := finds_of_firstMatch? found (by simp)
    subst here
    exact fun _ _ => minus_number
  · obtain _ | ⟨here⟩ := finds_of_firstMatch? found (by simp)
    subst here
    cases items with
    | nil => cases positive
    | cons c cs =>
      by_cases quote : c = '"'
      · obtain ⟨m, size⟩ := Nat.exists_eq_succ_of_ne_zero (Nat.ne_of_gt positive)
        rw [size, List.take_succ_cons, quote]
        rfl
      · rw [scanString.eq_2 _ (by rintro cs ⟨⟩; exact quote rfl)] at positive
        cases positive

theorem known_of_lexes {items : List Char} {ws : List (Kind × String)} (h : Lexes items ws) :
    ∀ w ∈ ws, Known w := by
  induction h with
  | finish =>
    rintro w (_ | ⟨_, ⟨⟩⟩)
    exact ⟨nofun, nofun, nofun⟩
  | @cut items ws scan tag n filled found more ih =>
    cases tag with
    | none => exact ih
    | some kind => exact List.forall_mem_cons.mpr ⟨known_of_firstMatch? found, ih⟩

end Lexeme

mutual

/-- All literals of a token are integers, at any depth. -/
def Token.integral : Token → Bool
  | .literal (.int _) => true
  | .literal _ => false
  | .ternary thn els => Raw.integral thn && Raw.integral els
  | _ => true

def Raw.integral : List Token → Bool
  | [] => true
  | t :: ts => t.integral && Raw.integral ts

end

theorem Raw.integral_append (r s : Raw) :
    Raw.integral (r ++ s) = (Raw.integral r && Raw.integral s) := by
  induction r with
  | nil => rfl
  | cons t r ih => rw [List.cons_append, integral, integral, ih, Bool.and_assoc]

namespace Phrase

mutual

theorem over_integral {literal : Value → String → Prop} {name : String → Prop} (p : Phrase)
    (known : p.Over literal name) (integral : Raw.integral p.raw = true) :
    p.Over (fun v text => literal v text ∧ ∃ n, v = .int n) name := by
  cases p with
  | literal v text =>
    cases v with
    | int n => exact ⟨known, n, rfl⟩
    | real x => simp [raw, Raw.integral, Token.integral] at integral
    | str bytes => simp [raw, Raw.integral, Token.integral] at integral
  | name x => exact known
  | call f args =>
    simp [raw, Raw.integral, Raw.integral_append, Token.integral] at integral
    exact ⟨known.1, overAll_integral args known.2 integral⟩
  | unary op x =>
    simp [raw, Raw.integral, Raw.integral_append, Token.integral] at integral
    exact over_integral x known integral
  | binary op l r =>
    simp [raw, Raw.integral, Raw.integral_append, Token.integral] at integral
    exact ⟨over_integral l known.1 integral.1, over_integral r known.2 integral.2⟩
  | ternary c t e =>
    simp [raw, Raw.integral, Raw.integral_append, Token.integral] at integral
    exact ⟨over_integral c known.1 integral.1, over_integral t known.2.1 integral.2.1,
      over_integral e known.2.2 integral.2.2⟩

theorem overAll_integral {literal : Value → String → Prop} {name : String → Prop} (ps : List Phrase)
    (known : OverAll literal name ps) (integral : Raw.integral (rawAll ps) = true) :
    OverAll (fun v text => literal v text ∧ ∃ n, v = .int n) name ps := by
  cases ps with
  | nil => trivial
  | cons p ps =>
    rw [rawAll, Raw.integral_append, Bool.and_eq_true] at integral
    exact ⟨over_integral p known.1 integral.1, overAll_integral ps known.2 integral.2⟩

end

end Phrase

namespace Raw

theorem phrase_of_ofText {s : SourceText} {r : Raw} (read : Raw.ofText s = .ok r) : ∃ p :
      Phrase, r = p.raw ∧ p.Over (fun v text => text = v.text ∧ ∃ w : Lexeme, Lexeme.Known w.word ∧
        (w.kind = .number ∨ w.kind = .string) ∧ Value.read w.text = .ok v)
        (fun x => Lexeme.IsWord .identifier x.toList) := by
  obtain ⟨ws, lexed, parsed⟩ := bind_eq_ok.mp read
  obtain ⟨⟨r', rest⟩, inner, finished⟩ := bind_eq_ok.mp parsed
  have known : ∀ w ∈ ws, Lexeme.Known w.word := fun w mem =>
    Lexeme.known_of_lexes (Lexeme.lexes_of_ofText lexed) w.word (List.mem_map_of_mem mem)
  obtain ⟨-, p, rfl, made⟩ := (read_eq_ok.mp inner).phrased known
  change (if Words.follows rest .finish then Except.ok p.raw else _) = Except.ok r at finished
  split at finished
  · cases finished
    refine ⟨p, rfl, Phrase.Over.imp (fun v text h => h) ?_ p made⟩
    rintro x ⟨w, known, identifier, rfl⟩
    exact known.name identifier
  · cases finished

/-- Without reals and strings, the source text of what is read is read as the same tokens, and every
expression in them has a source text. -/
theorem ofText_source_ofText {s : SourceText} {r : Raw} (read : Raw.ofText s = .ok r)
    (integral : Raw.integral r = true) (file : String) :
    Raw.ofText (.ofString file r.source) = .ok r ∧
      ∀ b ∈ r :: Raw.branches r, (printTokens? b .empty).bind (·.text?) = some b.source := by
  obtain ⟨p, rfl, made⟩ := phrase_of_ofText read
  have spelled : p.Spelled := by
    refine Phrase.Over.imp ?_ (fun x h => h) p (p.over_integral made integral)
    rintro v _ ⟨⟨rfl, w, known, kind, value⟩, n, rfl⟩
    exact Value.spelled_int (known.nonneg kind value)
  have plain : p.Plain := Phrase.Over.imp (fun v text h => h.1) (fun _ _ => trivial) p made
  refine ⟨by rw [Phrase.source_raw plain]; exact p.ofText_source spelled file, ?_⟩
  refine List.forall_mem_cons.mpr ⟨?_, fun b mem => ?_⟩
  · rw [Phrase.text?_raw plain, Phrase.source_raw plain]
  · obtain ⟨q, rfl, inner⟩ := p.phrase_of_branch plain b mem
    rw [Phrase.text?_raw inner, Phrase.source_raw inner]

def nestedChoice : SourceText := .ofString "choice" "-(a)**-b ?c ? 0_1: x:f (3,(x- (y - 4)))"

def nestedChoiceTokens : Raw :=
  [.identifier "a", .unary .neg, .identifier "b", .unary .neg, .binary .pow,
    .ternary [.identifier "c", .ternary [.literal (.int 1)] [.identifier "x"]]
      [.marker, .literal (.int 3), .identifier "x", .identifier "y",
        .literal (.int 4), .binary .sub, .binary .sub, .arguments, .identifier "f"]]

theorem ofText_source_ofText_nestedChoice :
    Raw.ofText nestedChoice = .ok nestedChoiceTokens ∧ Raw.integral nestedChoiceTokens = true ∧
      Raw.ofText (.ofString "again" nestedChoiceTokens.source) = .ok nestedChoiceTokens ∧
      ∀ b ∈ nestedChoiceTokens :: Raw.branches nestedChoiceTokens,
        (printTokens? b .empty).bind (·.text?) = some b.source := by
  have read : Raw.ofText nestedChoice = .ok nestedChoiceTokens := by rfl
  exact ⟨read, rfl, ofText_source_ofText read rfl "again"⟩

end Raw
end Analog
