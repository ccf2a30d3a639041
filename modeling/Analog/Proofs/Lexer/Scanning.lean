import Analog.Proofs.Lexer.Lexing

/-!
What the rules of the lexer find at the start of a text: signs, blanks, and words that end where a
character follows that no word has inside.
-/
namespace Analog

def BinaryOp.chars : BinaryOp → List Char
  | .add => ['+']
  | .sub => ['-']
  | .mul => ['*']
  | .div => ['/']
  | .mod => ['%']
  | .pow => ['*', '*']
  | .eq => ['=', '=']
  | .ne => ['!', '=']
  | .lt => ['<']
  | .le => ['<', '=']
  | .gt => ['>']
  | .ge => ['>', '=']
  | .and => ['&', '&']
  | .or => ['|', '|']

theorem BinaryOp.toList_symbol (op : BinaryOp) : op.symbol.toList = op.chars := by
  cases op <;> decide

namespace Lexeme

variable {c : Char} {cs items rest : List Char} {α τ : Type} {n : Nat} {p : Char → Bool}
  {r : Rule α τ} {rs : List (Rule α τ)}

open Lexer Pattern

theorem leadBytes_slashes : leadBytes 0 ['/', '/'] = [(0, 47), (1, 47)] := by decide

theorem toNat_beq_slash (c : Char) : (c.toNat == (47 : UInt8).toNat) = (c == '/') := by
  rw [Bool.eq_iff_iff, beq_iff_eq, beq_iff_eq]
  exact ⟨fun h => Char.toNat_inj.mp h, fun h => h ▸ rfl⟩

theorem scanBytes_slashes (c d : Char) (cs : List Char) :
    scanBytes ['/', '/'] (c :: d :: cs) = if c == '/' && d == '/' then 2 else 0 := by
  have size : (Text.encode ['/', '/']).length = 2 := by decide
  have fits : decide (2 ≤ (c :: d :: cs).length) = true := by simp
  simp only [scanBytes, size, fits, leadBytes_slashes, List.all_cons, List.all_nil, Bool.true_and,
    List.getElem?_cons_zero, List.getElem?_cons_succ, toNat_beq_slash, Bool.and_true]

theorem scan_lineComment (h : c = '/' → cs.head? ≠ some '/') :
    (Pattern.sequence [.bytes ['/', '/'], .upTo '\n']).scan (c :: cs) = 0 := by
  have none : scanBytes ['/', '/'] (c :: cs) = 0 := by
    cases cs with
    | nil => simp [scanBytes, show (Text.encode ['/', '/']).length = 2 by decide]
    | cons d cs =>
      rw [scanBytes_slashes]
      by_cases first : c = '/'
      · have second := h first
        simp_all
      · simp [first]
  simp [scan, scanAll, none]

theorem scan_blockComment (h : c = '/' → cs.head? ≠ some '*') :
    (Pattern.between ['/', '*'] ['*', '/']).scan (c :: cs) = 0 := by
  have none : scanUnit ['/', '*'] (c :: cs) = 0 := by
    cases cs with
    | nil => simp [scanUnit, List.isPrefixOf]
    | cons d cs =>
      by_cases first : c = '/'
      · have second : d ≠ '*' := by simpa using h first
        simp [scanUnit, List.isPrefixOf, first, Ne.symm second]
      · simp [scanUnit, List.isPrefixOf, Ne.symm first]
  change scanBetween _ _ _ = 0
  simp [scanBetween, none]

theorem scanMany_eq {one : List Char → Nat} (h : ∀ c cs, one (c :: cs) = if p c then 1 else 0)
    (items : List Char) : scanMany one items = (items.takeWhile p).length := by
  have all : ∀ fuel items, items.length ≤ fuel →
      scanManyFuel one fuel items = (items.takeWhile p).length := by
    intro fuel
    induction fuel with
    | zero =>
      intro items none
      obtain rfl := List.length_eq_zero_iff.mp (Nat.le_zero.mp none)
      rfl
    | succ fuel ih =>
      intro items enough
      cases items with
      | nil => rfl
      | cons c cs =>
        rw [scanManyFuel, h]
        by_cases here : p c = true
        · simp only [here, if_true, List.drop_zero, List.takeWhile_cons, List.length_cons]
          rw [ih cs (by simpa using enough)]
          omega
        · simp [here]
  exact all items.length items le_rfl

theorem scanFirst_cons {p : Pattern} {ps : List Pattern} {b b' : Bool}
    (first : p.scan items = if b then 1 else 0)
    (others : scanFirst ps items = if b' then 1 else 0) :
    scanFirst (p :: ps) items = if b || b' then 1 else 0 := by
  rw [scanFirst, first]
  cases b <;> simp [others]

theorem scanUnit_one (a c : Char) (cs : List Char) :
    scanUnit [a] (c :: cs) = if c == a then 1 else 0 := by
  by_cases same : c = a
  · simp [scanUnit, List.isPrefixOf, same]
  · simp [scanUnit, List.isPrefixOf, same, Ne.symm same]

def isGap (c : Char) : Bool := c == ' ' || c == '\t' || c == '\n' || c == '\r'

def gap : Pattern := .oneOf [.unit [' '], .unit ['\t'], .unit ['\n'], .unit ['\r']]

theorem scan_gap (c : Char) (cs : List Char) : gap.scan (c :: cs) = if isGap c then 1 else 0 := by
  rw [isGap, Bool.or_assoc, Bool.or_assoc, ← Bool.or_false (c == '\r')]
  exact scanFirst_cons (scanUnit_one ..) (scanFirst_cons (scanUnit_one ..)
    (scanFirst_cons (scanUnit_one ..) (scanFirst_cons (scanUnit_one ..) rfl)))

def isInner (c : Char) : Bool :=
  c == '_' || c == '$' || ('0' ≤ c && c ≤ '9') || ('a' ≤ c && c ≤ 'z') || ('A' ≤ c && c ≤ 'Z')

theorem scan_identifierRest (c : Char) (cs : List Char) :
    identifierRest.scan (c :: cs) = if isInner c then 1 else 0 := by
  rw [isInner, Bool.or_assoc, Bool.or_assoc, Bool.or_assoc, ← Bool.or_false ('A' ≤ c && c ≤ 'Z')]
  exact scanFirst_cons (scanUnit_one ..) (scanFirst_cons (scanUnit_one ..) (scanFirst_cons rfl
    (scanFirst_cons rfl (scanFirst_cons rfl rfl))))

theorem firstMatch?_skip {items : List α} (none : r.scan items = 0) :
    firstMatch? (r :: rs) items = firstMatch? rs items := by
  rw [firstMatch?, none]

theorem firstMatch?_take {items : List α} (found : r.scan items = n) (positive : 0 < n) :
    firstMatch? (r :: rs) items = some (r, n) := by
  obtain ⟨n, rfl⟩ := Nat.exists_eq_succ_of_ne_zero (Nat.ne_of_gt positive)
  rw [firstMatch?, found]

theorem firstMatch?_signs (apart : c = '/' → cs.head? ≠ some '/' ∧ cs.head? ≠ some '*') :
    firstMatch? rules (c :: cs) = firstMatch? (rules.drop 2) (c :: cs) :=
  (firstMatch?_skip (scan_lineComment fun h => (apart h).1)).trans
    (firstMatch?_skip (scan_blockComment fun h => (apart h).2))

theorem cut_binary (op : BinaryOp) (cs : List Char) :
      ∃ scan, firstMatch? rules (op.chars ++ ' ' :: cs) =
      some (⟨scan, some op.kind⟩, op.chars.length) := by
  cases op <;> exact ⟨_, (firstMatch?_signs (by simp)).trans rfl⟩

def loneSigns : List (Char × Kind) :=
  [('(', .leftParen), (')', .rightParen), (',', .comma), (':', .colon), ('?', .question),
    ('-', .minus)]

theorem cut_sign {kind : Kind} (lone : (c, kind) ∈ loneSigns) (cs : List Char) :
    ∃ scan, firstMatch? rules (c :: cs) = some (⟨scan, some kind⟩, 1) := by
  simp only [loneSigns, List.mem_cons, Prod.mk.injEq, List.not_mem_nil, or_false] at lone
  rcases lone with ⟨rfl, rfl⟩ | ⟨rfl, rfl⟩ | ⟨rfl, rfl⟩ | ⟨rfl, rfl⟩ | ⟨rfl, rfl⟩ | ⟨rfl, rfl⟩ <;>
    exact ⟨_, (firstMatch?_signs (by simp)).trans rfl⟩

theorem cut_bang (apart : cs.head? ≠ some '=') :
    ∃ scan, firstMatch? rules ('!' :: cs) = some (⟨scan, some .bang⟩, 1) := by
  have other : scanUnit ['!', '='] ('!' :: cs) = 0 := by
    cases cs with
    | nil => rfl
    | cons c cs =>
      have different : c ≠ '=' := by simpa using apart
      simp [scanUnit, List.isPrefixOf, different.symm]
  have reached : firstMatch? (rules.drop 2) ('!' :: cs) = firstMatch? (rules.drop 17) ('!' :: cs) :=
    rfl
  exact ⟨_, (firstMatch?_signs (by simp)).trans
    (reached.trans ((firstMatch?_skip other).trans rfl))⟩

theorem cut_blank (apart : ∀ c ∈ cs.head?, isGap c = false) :
    ∃ scan, firstMatch? rules (' ' :: cs) = some (⟨scan, none⟩, 1) := by
  have one : (Pattern.many gap).scan (' ' :: cs) = 1 := by
    rw [scan, scanMany_eq scan_gap]
    cases cs with
    | nil => rfl
    | cons c cs =>
      have none : isGap c = false := apart c rfl
      simp [none, show isGap ' ' = true from rfl]
  have reached : firstMatch? (rules.drop 2) (' ' :: cs) = firstMatch? (rules.drop 27) (' ' :: cs) :=
    rfl
  exact ⟨_, (firstMatch?_signs (by simp)).trans (reached.trans (firstMatch?_take one Nat.one_pos))⟩

def signChars : List Char :=
  ['/', '(', ')', '[', ']', ',', ';', ':', '?', '<', '>', '=', '!', '&', '|', '+', '-', '*', '%',
    ' ', '\t', '\n', '\r']

theorem scanUnit_ne {a : Char} (as cs : List Char) (other : c ≠ a) :
    scanUnit (a :: as) (c :: cs) = 0 := by
  simp [scanUnit, List.isPrefixOf, other.symm]

theorem firstMatch?_eq_none {items : List α} :
    firstMatch? rs items = none ↔ ∀ r ∈ rs, r.scan items = 0 := by
  induction rs with
  | nil => simp [firstMatch?]
  | cons r rs ih =>
    rw [firstMatch?, List.forall_mem_cons, ← ih]
    cases r.scan items <;> simp

theorem firstMatch?_append (rs ss : List (Rule α τ)) (items : List α) :
    firstMatch? (rs ++ ss) items = (firstMatch? rs items).or (firstMatch? ss items) := by
  induction rs with
  | nil => rfl
  | cons r rs ih =>
    rw [List.cons_append, firstMatch?, firstMatch?]
    split
    · exact ih
    · rfl

theorem rules_split : rules = rules.take 28 ++ rules.drop 28 :=
    (List.take_append_drop 28 rules).symm

theorem scan_signRules (cs : List Char) (plain : c ∉ signChars) :
    ∀ r ∈ rules.take 28, r.scan (c :: cs) = 0 := by
  have gaps : scanMany gap.scan (c :: cs) = 0 := by
    have none : isGap c = false := by simp_all [signChars, isGap]
    rw [scanMany_eq scan_gap, List.takeWhile_cons, if_neg (by simp [none]), List.length_nil]
  simp only [signChars, List.mem_cons, List.not_mem_nil, or_false, not_or] at plain
  have line : scan _ (c :: cs) = 0 := scan_lineComment fun h => absurd h plain.1
  have block : scan _ (c :: cs) = 0 := scan_blockComment fun h => absurd h plain.1
  simp only [gap, scan] at line block gaps
  simp [rules, sign, rule, skip, scan, scanUnit_ne, plain, line, block, gaps]

theorem firstMatch?_plain (cs : List Char) (plain : c ∉ signChars) :
    firstMatch? rules (c :: cs) = firstMatch? (rules.drop 28) (c :: cs) := by
  rw [rules_split, firstMatch?_append, firstMatch?_eq_none.mpr (scan_signRules cs plain)]
  rfl

def Apart (rest : List Char) : Prop := ∀ c ∈ rest.head?, c ∈ [' ', ')', ',', '(']

theorem apart_nil : Apart [] := nofun

theorem apart_cons (ends : c ∈ [' ', ')', ',', '(']) (rest : List Char) : Apart (c :: rest) := by
  rintro d ⟨⟩
  exact ends

structure IsWord (kind : Kind) (cs : List Char) : Prop where
  starts : ∃ c ∈ cs.head?, c ∉ signChars
  cut : ∀ rest, Apart rest →
    ∃ scan, firstMatch? rules (cs ++ rest) = some (⟨scan, some kind⟩, cs.length)

def Inside (p : Char → Bool) : Prop := ∀ c ∈ [' ', ')', ',', '('], p c = false

theorem takeWhile_append_apart (inside : Inside p) (cs : List Char) (apart : Apart rest) :
    (cs ++ rest).takeWhile p = cs.takeWhile p := by
  induction cs with
  | nil =>
    cases rest with
    | nil => rfl
    | cons c rest => simp [inside c (apart c rfl)]
  | cons c cs ih => simp [List.takeWhile_cons, ih]

theorem inside_digit : Inside isDigitLike := by
  intro c mem
  fin_cases mem <;> rfl

theorem inside_inner : Inside isInner := by
  intro c mem
  fin_cases mem <;> rfl

theorem digitsLength_append (cs : List Char) (apart : Apart rest) :
    digitsLength (cs ++ rest) = digitsLength cs := by
  rw [digitsLength, digitsLength, takeWhile_append_apart inside_digit cs apart]

theorem fractionLength_append (cs : List Char) (apart : Apart rest) :
    fractionLength (cs ++ rest) = fractionLength cs := by
  cases cs with
  | nil =>
    cases rest with
    | nil => rfl
    | cons c rest =>
      have other : c ≠ '.' := by
        rintro rfl
        exact absurd (apart _ rfl) (by decide)
      rw [List.nil_append, fractionLength.eq_2 _ (by rintro cs ⟨⟩; exact other rfl)]
      rfl
  | cons c cs =>
    by_cases point : c = '.'
    · subst point
      rw [List.cons_append, fractionLength, fractionLength, digitsLength_append cs apart]
    · rw [List.cons_append, fractionLength.eq_2 _ (by rintro cs ⟨⟩; exact point rfl),
        fractionLength.eq_2 _ (by rintro cs ⟨⟩; exact point rfl)]

theorem digitsLength_le (cs : List Char) : digitsLength cs ≤ cs.length :=
  (List.takeWhile_prefix _).length_le

theorem fractionLength_le (cs : List Char) : fractionLength cs ≤ cs.length := by
  fun_cases fractionLength cs with
  | case1 => exact Nat.zero_le _
  | case2 cs n found =>
    have := digitsLength_le cs
    simp only [List.length_cons]
    omega
  | case3 => exact Nat.zero_le _

theorem signLength_le (cs : List Char) : signLength cs ≤ cs.length := by
  cases cs with
  | nil => exact Nat.zero_le _
  | cons c cs =>
    rw [signLength]
    split <;> simp

theorem signLength_append (cs : List Char) (apart : Apart rest) :
    signLength (cs ++ rest) = signLength cs := by
  cases cs with
  | cons c cs => rfl
  | nil =>
    cases rest with
    | nil => rfl
    | cons c rest =>
      have ends := apart c rfl
      fin_cases ends <;> rfl

theorem exponentLength_append (cs : List Char) (apart : Apart rest) :
    exponentLength (cs ++ rest) = exponentLength cs := by
  cases cs with
  | cons c cs =>
    simp only [List.cons_append, exponentLength]
    rw [signLength_append cs apart, List.drop_append_of_le_length (signLength_le cs),
      digitsLength_append _ apart]
  | nil =>
    cases rest with
    | nil => rfl
    | cons c rest =>
      have ends := apart c rfl
      fin_cases ends <;> rfl

theorem scaleLength_append (cs : List Char) (apart : Apart rest) :
    scaleLength (cs ++ rest) = scaleLength cs := by
  cases cs with
  | cons c cs =>
    cases cs with
    | cons d cs => rfl
    | nil =>
      cases rest with
      | nil => rfl
      | cons d rest =>
        have stops : identifierRest.scan [d] = 0 := by
          rw [scan_identifierRest, inside_inner d (apart d rfl)]
          rfl
        have none : identifierRest.scan [] = 0 := rfl
        simp [scaleLength, stops, none]
  | nil =>
    cases rest with
    | nil => rfl
    | cons c rest =>
      have ends := apart c rfl
      fin_cases ends <;> rfl

theorem scanNumber_append (cs : List Char) (apart : Apart rest) :
    scanNumber (cs ++ rest) = scanNumber cs := by
  unfold scanNumber
  rw [digitsLength_append cs apart]
  split
  · rfl
  · rename_i whole digits
    have within : whole + 1 ≤ cs.length :=
      Nat.le_trans (Nat.le_of_eq digits.symm) (digitsLength_le cs)
    have fraction := fractionLength_le (cs.drop (whole + 1))
    rw [List.length_drop] at fraction
    simp only [List.drop_append_of_le_length within, fractionLength_append _ apart]
    rw [List.drop_append_of_le_length (by omega), exponentLength_append _ apart,
      scaleLength_append _ apart]

theorem closingQuote?_plain (cs : List Char) (quote : c ≠ '"') (escape : c ≠ '\\') :
    closingQuote? (c :: cs) = (closingQuote? cs).map (· + 1) :=
  closingQuote?.eq_5 c cs quote (fun h => absurd h escape) (fun _ _ h => absurd h escape)

theorem closingQuote?_append (h : closingQuote? cs = some n) (rest : List Char) :
    closingQuote? (cs ++ rest) = some n := by
  fun_induction closingQuote? cs generalizing n with
  | case1 => cases h
  | case2 cs => exact h
  | case3 => cases h
  | case4 c cs ih =>
    obtain ⟨m, inner, rfl⟩ := Option.map_eq_some_iff.mp h
    simp [closingQuote?, ih inner]
  | case5 c cs quote alone escape ih =>
    obtain ⟨m, inner, rfl⟩ := Option.map_eq_some_iff.mp h
    have plain : c ≠ '\\' := by
      rintro rfl
      cases cs with
      | nil => exact alone rfl rfl
      | cons d cs => exact escape d cs rfl rfl
    rw [List.cons_append, closingQuote?_plain _ quote plain, ih inner]
    rfl

theorem scanString_append (found : 0 < scanString cs) (rest : List Char) :
    scanString (cs ++ rest) = scanString cs := by
  fun_cases scanString cs with
  | case1 cs n closed =>
    rw [List.cons_append, scanString, closingQuote?_append closed]
  | case2 cs closed => simp [scanString, closed] at found
  | case3 cs other => simp [scanString] at found

theorem isWord_number (filled : cs ≠ []) (whole : scanNumber cs = cs.length) :
    IsWord .number cs := by
  obtain ⟨c, cs, rfl⟩ := List.exists_cons_of_ne_nil filled
  have digit : isDigitLike c = true := by
    by_contra other
    simp [scanNumber, digitsLength, other] at whole
  have plain : c ∉ signChars := by
    intro mem
    fin_cases mem <;> cases digit
  refine ⟨⟨c, rfl, plain⟩, fun rest apart => ⟨scanNumber, ?_⟩⟩
  rw [List.cons_append, firstMatch?_plain _ plain, ← List.cons_append]
  refine firstMatch?_take ?_ (by simp)
  exact (scanNumber_append _ apart).trans whole

theorem isWord_string (filled : cs ≠ []) (whole : scanString cs = cs.length) :
    IsWord .string cs := by
  obtain ⟨c, cs, rfl⟩ := List.exists_cons_of_ne_nil filled
  have quote : c = '"' := by
    by_contra other
    rw [scanString.eq_2 _ (by rintro cs ⟨⟩; exact other rfl)] at whole
    cases whole
  subst quote
  have plain : '"' ∉ signChars := by decide
  refine ⟨⟨'"', rfl, plain⟩, fun rest apart => ⟨scanString, ?_⟩⟩
  rw [List.cons_append, firstMatch?_plain _ plain, ← List.cons_append]
  refine (firstMatch?_skip rfl).trans (firstMatch?_take ?_ (by simp))
  exact (scanString_append (by simp [whole]) rest).trans whole

def isInitial (c : Char) : Bool := isInner c && !isDigitLike c

theorem scan_identifierStart (cs : List Char) (plain : isDigitLike c = false) :
    identifierStart.scan (c :: cs) = if isInitial c then 1 else 0 := by
  have start : identifierStart.scan (c :: cs) =
      if c == '_' || (c == '$' || ('a' ≤ c && c ≤ 'z' || ('A' ≤ c && c ≤ 'Z' || false)))
      then 1 else 0 := by
    rw [identifierStart, scan]
    exact scanFirst_cons (scanUnit_one ..) (scanFirst_cons (scanUnit_one ..) (scanFirst_cons rfl
      (scanFirst_cons rfl rfl)))
  rw [start, isInitial, plain, isInner]
  simp only [isDigitLike, Bool.or_eq_false_iff] at plain
  rw [plain.1, plain.2]
  simp [or_assoc]

def IsName : List Char → Prop
  | [] => False
  | c :: cs => isInitial c = true ∧ ∀ d ∈ cs, isInner d = true

theorem isWord_name (name : IsName cs) : IsWord .identifier cs := by
  cases cs with
  | nil => exact name.elim
  | cons c cs =>
    obtain ⟨initial, inner⟩ := name
    have digit : isDigitLike c = false := by simp_all [isInitial]
    have plain : c ∉ signChars := by
      intro mem
      fin_cases mem <;> cases initial
    have quote : c ≠ '"' := by
      rintro rfl
      cases initial
    refine ⟨⟨c, rfl, plain⟩,
      fun rest apart => ⟨(Pattern.leading identifierStart identifierRest).scan, ?_⟩⟩
    have number : scanNumber (c :: (cs ++ rest)) = 0 := by
      simp [scanNumber, digitsLength, digit]
    have string : scanString (c :: (cs ++ rest)) = 0 :=
      scanString.eq_2 _ (by rintro cs ⟨⟩; exact quote rfl)
    have found : scan (.leading identifierStart identifierRest) (c :: (cs ++ rest)) =
        (c :: cs).length := by
      rw [scan, scan_identifierStart _ digit, initial]
      simp only [if_true, List.drop_succ_cons, List.drop_zero]
      rw [scanMany_eq scan_identifierRest, takeWhile_append_apart inside_inner cs apart,
        List.takeWhile_eq_self_iff.mpr (by simpa using inner), List.length_cons]
      omega
    rw [List.cons_append, firstMatch?_plain _ plain]
    exact (firstMatch?_skip number).trans ((firstMatch?_skip string).trans
      (firstMatch?_take found (by simp)))

theorem mem_of_firstMatch? {items : List α} (h : firstMatch? rs items = some (r, n)) : r ∈ rs := by
  obtain ⟨before, after, rfl, -⟩ := firstMatch?_eq_some h
  exact List.mem_append_right _ (.head _)

theorem tag_signRules : ∀ r ∈ rules.take 28, ∀ kind ∈ [Kind.number, .string, .identifier],
    r.tag ≠ some kind := by
  decide

/-- A word is found by a rule of its own, after the rules before it have found nothing. -/
inductive Finds (items : List Char) (n : Nat) : Kind → Prop
  | number (found : scanNumber items = n) : Finds items n .number
  | string (found : scanString items = n) : Finds items n .string
  | identifier (number : scanNumber items = 0)
    (found : (Pattern.leading identifierStart identifierRest).scan items = n) :
    Finds items n .identifier

theorem finds_of_firstMatch? {scan : Scanner Char} {kind : Kind}
    (h : firstMatch? rules items = some (⟨scan, some kind⟩, n))
    (word : kind ∈ [Kind.number, .string, .identifier]) : Finds items n kind := by
  rw [rules_split, firstMatch?_append] at h
  cases signs : firstMatch? (rules.take 28) items with
  | some found =>
    rw [signs, Option.some_or, Option.some.injEq] at h
    subst h
    exact absurd rfl (tag_signRules _ (mem_of_firstMatch? signs) kind word)
  | none =>
    rw [signs, Option.none_or] at h
    change firstMatch? [⟨scanNumber, some .number⟩, ⟨scanString, some .string⟩,
      rule (.leading identifierStart identifierRest) .identifier, rule .finish .finish]
        items = _ at h
    unfold firstMatch? at h
    split at h
    · rename_i number
      unfold firstMatch? at h
      split at h
      · unfold firstMatch? at h
        split at h
        · unfold firstMatch? at h
          split at h
          · cases h
          · cases h
            simp at word
        · rename_i found
          cases h
          exact .identifier number found
      · rename_i found
        cases h
        exact .string found
    · rename_i found
      cases h
      exact .number found

theorem isDigitLike_of_scanNumber (none : scanNumber (c :: cs) = 0) : isDigitLike c = false := by
  by_contra other
  have digits : digitsLength (c :: cs) = digitsLength cs + 1 := by
    simp [digitsLength, Bool.eq_true_of_not_eq_false other]
  unfold scanNumber at none
  rw [digits] at none
  dsimp only at none
  split at none <;> omega

theorem isName_of_finds (positive : 0 < n) (number : scanNumber items = 0)
    (found : (Pattern.leading identifierStart identifierRest).scan items = n) :
    IsName (items.take n) := by
  subst found
  cases items with
  | nil => exact absurd positive (by decide)
  | cons c cs =>
    have digit := isDigitLike_of_scanNumber number
    rw [scan, scan_identifierStart _ digit] at positive ⊢
    cases initial : isInitial c with
    | false => simp [initial] at positive
    | true =>
      simp only [if_true, List.drop_succ_cons, List.drop_zero, scanMany_eq scan_identifierRest]
      rw [Nat.zero_add, Nat.add_comm, List.take_succ_cons]
      refine ⟨initial, fun d mem => ?_⟩
      rw [← List.prefix_iff_eq_take.mp (List.takeWhile_prefix isInner)] at mem
      exact List.mem_takeWhile_imp mem

theorem take_digitsLength (cs : List Char) : cs.take (digitsLength cs) = cs.takeWhile isDigitLike :=
  (List.prefix_iff_eq_take.mp (List.takeWhile_prefix isDigitLike)).symm

theorem minus_digits (cs : List Char) : '-' ∉ cs.take (digitsLength cs) := by
  rw [take_digitsLength]
  intro mem
  cases List.mem_takeWhile_imp mem

theorem minus_fraction (cs : List Char) : '-' ∉ cs.take (fractionLength cs) := by
  fun_cases fractionLength cs with
  | case1 => simp
  | case2 cs n digits =>
    rw [List.take_succ_cons, ← Nat.succ_eq_add_one n, ← digits]
    simpa using minus_digits cs
  | case3 => simp

theorem minus_scale (cs : List Char) : '-' ∉ cs.take (scaleLength cs) := by
  cases cs with
  | nil => simp
  | cons c cs =>
    rw [scaleLength]
    split
    · rename_i letter
      rintro (⟨⟩ | ⟨_, ⟨⟩⟩)
      cases (Bool.and_eq_true_iff.mp letter).1
    · simp

theorem exponent_head (found : exponentLength cs = n + 1) :
    ∃ c more, cs = c :: more ∧ (c = 'e' ∨ c = 'E') := by
  cases cs with
  | nil => cases found
  | cons c cs =>
    rw [exponentLength] at found
    split at found
    · rename_i mark
      exact ⟨c, cs, rfl, by simpa using mark⟩
    · cases found

theorem minus_number {before after : List Char}
    (h : cs.take (scanNumber cs) = before ++ '-' :: after) : ∃ c ∈ before, c = 'e' ∨ c = 'E' := by
  unfold scanNumber at h
  split at h
  · simp at h
  · rename_i whole digits
    dsimp only at h
    have mantissa : '-' ∉ cs.take (whole + 1 + fractionLength (cs.drop (whole + 1))) := by
      have first := minus_digits cs
      rw [digits] at first
      rw [List.take_add, List.mem_append]
      exact not_or.mpr ⟨first, minus_fraction _⟩
    generalize whole + 1 + fractionLength (cs.drop (whole + 1)) = n at h mantissa
    split at h
    · have minus : '-' ∈ cs.take (n + scaleLength (cs.drop n)) := h ▸ by simp
      rw [List.take_add, List.mem_append] at minus
      exact absurd minus (not_or.mpr ⟨mantissa, minus_scale _⟩)
    · rename_i e exponent
      obtain ⟨c, more, shape, mark⟩ := exponent_head exponent
      rw [Nat.add_assoc, List.take_add, shape, List.take_succ_cons] at h
      rcases List.append_eq_append_iff.mp h with
        ⟨_ | ⟨d, ds⟩, split, same⟩ | ⟨_ | ⟨d, ds⟩, split, same⟩
      · cases same
        simp at mark
      · obtain ⟨rfl, _⟩ := List.cons.inj same
        exact ⟨c, by simp [split], mark⟩
      · cases same
        simp at mark
      · cases same
        exact absurd (by simp [split]) mantissa

end Lexeme
end Analog
