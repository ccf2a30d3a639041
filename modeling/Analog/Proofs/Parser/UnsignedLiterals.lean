import Analog.Proofs.Design.Growth
import Analog.Proofs.Parser.Literals

/-!
The literals of an expression have no sign: a minus is a token of its own. An integer is read from
digits alone; a real is read from digits and multiplied with the factor of its letter, and neither
has the sign bit set. So none of them is written with a minus sign.
-/
namespace Analog

namespace Text

theorem exists_of_trim (cs : List Char) :
    ∃ front back, cs = front ++ (trim cs ++ back) ∧ ∀ c ∈ front, isBlank c = true := by
  refine ⟨cs.takeWhile isBlank, ((cs.dropWhile isBlank).reverse.takeWhile isBlank).reverse, ?_,
    fun c => List.mem_takeWhile_imp⟩
  rw [trim, ← List.reverse_append, List.takeWhile_append_dropWhile, List.reverse_reverse,
    List.takeWhile_append_dropWhile]

end Text

namespace Decimal

open Float.Model

section Signs

def Unsigned : UnpackedFloat → Prop
  | .notANumber => True
  | .infinity s | .zero s | .finite s _ _ _ => s = .positive

def topBit (b : BitVec 64) : BitVec 1 := @UnpackedFloat.unpackSign Format.binary64 b

theorem toNat_topBit (b : BitVec 64) : (topBit b).toNat = b.toNat / 2 ^ 63 := by
  have less : b.toNat / 2 ^ 63 < 2 := by
    have := b.isLt
    omega
  show (b.extractLsb 63 63).toNat = _
  rw [BitVec.extractLsb_toNat, Nat.shiftRight_eq_div_pow]
  exact Nat.mod_eq_of_lt less

theorem isNegative_iff (x : Float) : isNegative x = true ↔ topBit x.toBits.toBitVec ≠ 0#1 := by
  have less := x.toBits.toNat_lt
  rw [isNegative, beq_iff_eq, ← UInt64.toNat_inj, UInt64.toNat_shiftRight, ne_eq,
    ← BitVec.toNat_inj, toNat_topBit]
  simp [Nat.shiftRight_eq_div_pow]
  omega

theorem isNegative_pack {u : UnpackedFloat} (h : Unsigned u) : isNegative ⟨pack u⟩ = false := by
  have sign : topBit (UnpackedFloat.pack Format.binary64 u) = 0#1 := by
    cases u with
    | notANumber => exact UnpackedFloat.unpackSign_packComponents ..
    | infinity s | zero s =>
      cases h
      exact UnpackedFloat.unpackSign_packComponents ..
    | finite s m e pos =>
      cases h
      simp only [UnpackedFloat.pack]
      split_ifs <;> exact UnpackedFloat.unpackSign_packComponents ..
  exact eq_false_of_ne_true fun negative => (isNegative_iff _).mp negative sign

theorem unsigned_unpack {b : BitVec 64} (h : topBit b = 0#1) :
    Unsigned (UnpackedFloat.unpack Format.binary64 b) := by
  unfold topBit at h
  simp only [UnpackedFloat.unpack, h]
  split_ifs <;> trivial

theorem unsigned_mul {u w : UnpackedFloat} (hu : Unsigned u) (hw : Unsigned w) :
    Unsigned (UnpackedFloat.mul Format.binary64 u w) := by
  cases u <;> cases w <;> cases hu <;> cases hw <;> try trivial
  simp only [UnpackedFloat.mul, UnpackedFloat.roundWithAccuracy]
  split_ifs <;> rfl

theorem isNegative_mul {x y : Float} (hx : isNegative x = false) (hy : isNegative y = false) :
    isNegative (x * y) = false := by
  have unsigned {z : Float} (h : isNegative z = false) : Unsigned z.toModel.unpack :=
    unsigned_unpack (not_not.mp fun some => absurd ((isNegative_iff z).mpr some) (by simp [h]))
  exact isNegative_pack (unsigned_mul (unsigned hx) (unsigned hy))

theorem isNegative_withSign {bits : Nat} (small : bits < 2 ^ 63) :
    isNegative (withSign false bits) = false := by
  refine isNegative_pack (unsigned_unpack (BitVec.eq_of_toNat_eq ?_))
  rw [toNat_topBit]
  simp
  omega

end Signs

section Reading

variable {x : Float}

theorem isNegative_ofRatio? {num den : Nat} (h : ofRatio? false num den = some x) :
    isNegative x = false := by
  unfold ofRatio? at h
  split at h
  · cases h
    exact isNegative_withSign (by decide)
  · dsimp only at h
    split at h
    · rename_i small
      cases h
      exact isNegative_withSign (Nat.lt_trans small (by decide))
    · cases h

theorem isNegative_readDecimal? {cs : List Char} (h : readDecimal? false cs = some x) :
    isNegative x = false := by
  have read (m : Nat) (e : Int) (found : ofDecimal? false m e = some x) : isNegative x = false := by
    unfold ofDecimal? at found
    dsimp only at found
    split_ifs at found <;> exact isNegative_ofRatio? found
  unfold readDecimal? at h
  dsimp only at h
  split_ifs at h
  split at h
  · exact read _ _ h
  · split_ifs at h
    obtain ⟨e, _, found⟩ := Option.bind_eq_some_iff.mp h
    exact read _ _ found

theorem isNegative_readHex? {cs : List Char} (h : readHex? false cs = some x) :
    isNegative x = false := by
  unfold readHex? at h
  dsimp only at h
  split_ifs at h
  split at h
  · cases h
  · split_ifs at h
    obtain ⟨e, _, found⟩ := Option.bind_eq_some_iff.mp h
    unfold ofBinary? at found
    dsimp only at found
    split_ifs at found <;> exact isNegative_ofRatio? found

theorem isNegative_readReal? {cs : List Char} (h : readReal? cs = some x)
    (plain : cs.head? ≠ some '-') : isNegative x = false := by
  have sign : (takeSign cs).1 = false := by
    fun_cases takeSign cs with
    | case1 cs => exact absurd rfl plain
    | case2 cs => rfl
    | case3 => rfl
  unfold readReal? at h
  dsimp only at h
  rw [sign] at h
  split_ifs at h
  · cases h
    decide +kernel
  · cases h
    exact isNegative_withSign (by decide)
  · split at h
    · split_ifs at h
      · exact isNegative_readHex? h
      · exact isNegative_readDecimal? h
    · exact isNegative_readDecimal? h

end Reading

section Writing

theorem head_write (f : Format) (d : Digits) : (f.write d).toList.head? ≠ some '-' := by
  have digits : ∀ c ∈ dropZeros (Nat.toDigits 10 d.digits), c ≠ '-' := by
    rintro c mem rfl
    have there := List.mem_reverse.mp ((List.dropWhile_sublist _).mem (List.mem_reverse.mp mem))
    cases Nat.isDigit_of_mem_toDigits (by decide) (by decide) there
  simp only [Format.write]
  generalize dropZeros (Nat.toDigits 10 d.digits) = ds at digits ⊢
  split_ifs with empty exponent
  · decide
  · cases ds with
    | nil => simp at empty
    | cons c rest =>
      have first := digits c List.mem_cons_self
      cases rest <;> simp [Format.exponential, first]
  · simp only [positional]
    generalize shape : List.take _ _ = front
    have plain : '-' ∉ front := by
      intro mem
      rw [← shape] at mem
      rcases List.mem_append.mp (List.mem_of_mem_take mem) with mem | zero
      · rcases List.mem_append.mp mem with zero | digit
        · cases List.eq_of_mem_replicate zero
        · exact digits _ digit rfl
      · cases List.eq_of_mem_replicate zero
    cases front with
    | nil => simp
    | cons c rest =>
      have first : c ≠ '-' := fun same => plain (same ▸ List.mem_cons_self)
      simp [first]

theorem head_realText {x : Float} (h : isNegative x = false) :
    (realText x).toList.head? ≠ some '-' := by
  have head : (Format.real.float x).toList.head? ≠ some '-' := by
    unfold Format.float
    cases known : parts? x with
    | none => split_ifs <;> simp_all
    | some p =>
      have unsigned : p.negative = false := by
        simp only [parts?] at known
        split_ifs at known <;> cases known <;> exact h
      simpa [unsigned] using head_write _ _
  simp only [realText]
  split
  · exact head
  · cases chars : (Format.real.float x).toList with
    | nil => simp [chars]
    | cons c rest => simpa [chars] using head

end Writing

end Decimal

namespace Value

theorem splitScale_prefix (cs : List Char) : (splitScale cs).1 <+: cs := by
  unfold splitScale
  split
  · rename_i last more rest shape
    split
    · rw [← List.reverse_reverse cs, shape]
      exact List.reverse_prefix.mpr (List.suffix_cons _ _)
    · exact List.prefix_rfl
  · exact List.prefix_rfl

theorem isNegative_scale : ∀ letter ∈ scaleLetters, Decimal.isNegative letter.2 = false :=
    by decide +kernel

theorem splitScale_factor {cs : List Char} {factor : Float} (h : (splitScale cs).2 = some factor) :
    Decimal.isNegative factor = false := by
  unfold splitScale at h
  split at h
  · split at h
    · rename_i found
      cases h
      have plain := isNegative_scale _ (mem_of_lookup found)
      exact plain
    · cases h
  · cases h

theorem isNegative_readNumber? {cs : List Char} {x : Float} (h : readNumber? cs = some (.real x))
    (plain : (cs.filter (· != '_')).head? ≠ some '-') : Decimal.isNegative x = false := by
  have digits : (splitScale (cs.filter (· != '_'))).1.head? ≠ some '-' := by
    intro minus
    obtain ⟨rest, whole⟩ := splitScale_prefix (cs.filter (· != '_'))
    exact plain (by rw [← whole, List.head?_append, minus]; rfl)
  simp only [readNumber?] at h
  split at h
  · rename_i factor scaled
    obtain ⟨y, read, ⟨⟩⟩ := Option.map_eq_some_iff.mp h
    exact Decimal.isNegative_mul (Decimal.isNegative_readReal? read digits)
      (splitScale_factor scaled)
  · split at h
    · cases h
    · obtain ⟨y, read, ⟨⟩⟩ := Option.map_eq_some_iff.mp h
      exact Decimal.isNegative_readReal? read digits

theorem isSigned_of_read {w : Lexeme} {v : Value} (known : Lexeme.Known w.word)
    (kind : w.kind = .number ∨ w.kind = .string) (read : Value.read w.text = .ok v) :
    Tree.isSigned v = false := by
  cases v with
  | int n => exact isSigned_plain (spelled_int (known.nonneg kind read))
  | str bytes => exact beq_eq_false_iff_ne.mpr (by simp [text, Text.quote])
  | real x =>
    refine beq_eq_false_iff_ne.mpr (Decimal.head_realText ?_)
    unfold Value.read at read
    dsimp only at read
    split at read
    · split at read <;> cases read
    · rename_i unquoted
      split at read
      · rename_i found
        cases read
        refine isNegative_readNumber? found fun minus => ?_
        have number : w.kind = .number := kind.resolve_right fun string => by
          obtain ⟨cs, quoted⟩ := List.head?_eq_some_iff.mp (known.string string)
          obtain ⟨ds, trimmed⟩ :=
            List.head?_eq_some_iff.mp (Text.head?_trim cs (c := '"') (by decide))
          exact unquoted ds (quoted ▸ trimmed)
        -- before the sign stand blanks and underscores alone, and no mark of an exponent
        obtain ⟨rest, shape⟩ := List.head?_eq_some_iff.mp minus
        obtain ⟨before, after, parts, skipped, _⟩ := List.filter_eq_cons_iff.mp shape
        obtain ⟨front, back, whole, blanks⟩ := Text.exists_of_trim w.text.toList
        obtain ⟨c, mem, mark⟩ := known.number number (front ++ before) (after ++ back) (by
          rw [Lexeme.word, whole, parts]
          simp)
        rcases List.mem_append.mp mem with blank | skip
        · have := blanks c blank
          rcases mark with rfl | rfl <;> cases this
        · have := skipped c skip
          rcases mark with rfl | rfl <;> exact this rfl
      · cases read

end Value
end Analog
