import Mathlib
import Analog.Guarded.Evaluate
import Analog.Proofs.Guarded.Scanning

/-!
Patterns evaluated by loops over positions, which take the items of the input from a position on. To
take them from behind its end is a crash, and a loop that goes on for ever has no result. A pattern
that does not ask for the end of the input meets neither, and comes to a length that the input has.
-/
namespace Analog.Pattern

namespace Run

variable {items : List Char} {i : Nat}

theorem tail_eq (inside : i ≤ items.length) : tail items i = pure (items.drop i) := if_pos inside

theorem loop_stop {round : Nat → Run (Nat × Bool)} {j : Nat} (stops : round i = pure (j, false)) :
    loop round i = pure j := by
  refine Part.eq_some_iff.mpr (PFun.fix_stop ?_)
  rw [stops]
  exact Part.mem_some _

theorem loop_next {round : Nat → Run (Nat × Bool)} {j : Nat} (goes : round i = pure (j, true)) :
    loop round i = loop round j := by
  refine PFun.fix_fwd_eq ?_
  rw [goes]
  exact Part.mem_some _

theorem many_eq {one : List Char → Run Nat} {plain : List Char → Nat}
    (same : ∀ items, one items = pure (plain items)) (within : ∀ items, plain items ≤ items.length)
    {fuel : Nat} (inside : i ≤ items.length) (enough : items.length ≤ i + fuel) :
    many one items i = pure (i + scanManyFuel plain fuel (items.drop i)) := by
  induction fuel generalizing i with
  | zero =>
    rw [many, loop_stop (if_neg (by omega))]
    rfl
  | succ fuel ih =>
    by_cases more : i < items.length
    · have bound := within (items.drop i)
      have cut := List.drop_eq_getElem_cons more
      rw [cut, scanManyFuel, ← cut]
      cases found : plain (items.drop i) with
      | zero =>
        rw [many, loop_stop (j := i) (by simp [more, tail_eq inside, same, found])]
        rfl
      | succ n =>
        rw [found, List.length_drop] at bound
        have goes : many one items i = many one items (i + (n + 1)) :=
          loop_next (by simp [more, tail_eq inside, same, found])
        rw [goes, ih (by omega) (by omega), Nat.add_assoc]
        dsimp only
        rw [List.drop_drop, show i + 1 + n = i + (n + 1) by omega]
    · rw [many, loop_stop (if_neg more), List.drop_eq_nil_of_le (Nat.le_of_not_lt more)]
      rfl

theorem upTo_eq (c : Char) (inside : i ≤ items.length) :
    upTo c items i = pure (i + ((items.drop i).takeWhile (· != c)).length) := by
  induction rest : items.length - i generalizing i with
  | zero =>
    rw [upTo, loop_stop (if_neg (by omega)), List.drop_eq_nil_of_le (by omega)]
    rfl
  | succ n ih =>
    have more : i < items.length := by omega
    have cut := List.drop_eq_getElem_cons more
    by_cases here : items[i] = c
    · rw [upTo, loop_stop (j := i) (by simp [more, tail_eq inside, here]), cut]
      simp [here]
    · have goes : upTo c items i = upTo c items (i + 1) :=
        loop_next (by simp [more, tail_eq inside, here])
      rw [goes, ih (by omega) (by omega), cut, List.takeWhile_cons_of_pos (by simpa using here)]
      exact congrArg pure (Nat.add_right_comm i 1 _)

theorem close_eq (closing : List Char) (inside : i ≤ items.length) :
    close closing items i =
    pure (((closing? closing (items.drop i)).map (i + ·)).getD items.length) := by
  induction rest : items.length - i generalizing i with
  | zero =>
    rw [close, loop_stop (if_neg (by omega)), List.drop_eq_nil_of_le (by omega)]
    exact congrArg pure (show i = items.length by omega)
  | succ n ih =>
    have more : i < items.length := by omega
    have cut := List.drop_eq_getElem_cons more
    cases found : scanUnit closing (items.drop i) with
    | succ k =>
      rw [close, loop_stop (j := i + (k + 1)) (by simp [more, tail_eq inside, found]), cut,
        closing?, ← cut, found]
      rfl
    | zero =>
      have goes : close closing items i = close closing items (i + 1) :=
        loop_next (by simp [more, tail_eq inside, found])
      rw [goes, ih (by omega) (by omega), cut, closing?, ← cut, found]
      cases closing? closing (items.drop (i + 1)) with
      | none => rfl
      | some k => exact congrArg pure (Nat.add_right_comm i 1 k)

end Run

mutual

theorem eval_eq (p : Pattern) (inner : Crash.inner p = true) (items : List Char) :
    p.eval items = pure (p.scan items) := by
  cases p with
  | unit _ | bytes _ | within _ _ => simp only [eval, scan]
  | many p =>
    rw [eval, scan, Run.many_eq (eval_eq p inner)
      (fun items => (Crash.measures_scan p inner items).within)
      (Nat.zero_le _) (Nat.le_add_left ..), Nat.zero_add]
    rfl
  | upTo c =>
    rw [eval, scan, Run.upTo_eq c (Nat.zero_le _), Nat.zero_add]
    rfl
  | finish => cases inner
  | oneOf ps => rw [eval, scan, evalFirst_eq ps inner items]
  | sequence ps =>
    rw [eval, scan, evalAll_eq ps inner (Nat.zero_le _)]
    rfl
  | leading first rest =>
    rw [Crash.inner, Bool.and_eq_true] at inner
    have inside := (Crash.measures_scan first inner.1 items).within
    rw [eval, scan, eval_eq first inner.1 items, pure_bind]
    cases found : first.scan items with
    | zero => rfl
    | succ n =>
      rw [found] at inside
      rw [if_neg (Nat.succ_ne_zero n), Run.tail_eq inside, pure_bind,
        Run.many_eq (eval_eq rest inner.2)
        (fun items => (Crash.measures_scan rest inner.2 items).within) (Nat.zero_le _)
          (Nat.le_add_left ..)]
      simp [scanMany]
  | between opening closing =>
    have whole := Crash.scanUnit_le opening items
    rw [eval, scan, scanBetween]
    cases found : scanUnit opening items with
    | zero => rfl
    | succ n =>
      have size : opening.length = n + 1 := by grind [scanUnit]
      rw [if_neg (Nat.succ_ne_zero n), size, Run.close_eq closing (found ▸ whole)]
      dsimp only
      cases closing? closing (items.drop (n + 1)) <;> rfl

theorem evalFirst_eq (ps : List Pattern) (inner : Crash.innerAll ps = true) (items : List Char) :
    evalFirst ps items = pure (scanFirst ps items) := by
  cases ps with
  | nil => rfl
  | cons p ps =>
    rw [Crash.innerAll, Bool.and_eq_true] at inner
    rw [evalFirst, scanFirst, eval_eq p inner.1 items, pure_bind, evalFirst_eq ps inner.2 items]
    cases p.scan items <;> rfl

theorem evalAll_eq (ps : List Pattern) (inner : Crash.innerAll ps = true) {items : List Char}
    {n : Nat}
    (inside : n ≤ items.length) : evalAll ps items n = pure (scanAll ps n (items.drop n)) := by
  cases ps with
  | nil => rfl
  | cons p ps =>
    rw [Crash.innerAll, Bool.and_eq_true] at inner
    have bound := (Crash.measures_scan p inner.1 (items.drop n)).within
    rw [List.length_drop] at bound
    rw [evalAll, scanAll]
    by_cases ended : n = items.length
    · simp [ended]
    · have some : (items.drop n).isEmpty = false := by
        rw [List.isEmpty_eq_false_iff, ne_eq, List.drop_eq_nil_iff]
        omega
      simp only [if_neg ended, Run.tail_eq inside, pure_bind, eval_eq p inner.1, some]
      cases found : p.scan (items.drop n) with
      | zero => cases ps <;> rfl
      | succ m =>
        rw [found] at bound
        rw [if_neg (Nat.succ_ne_zero m), evalAll_eq ps inner.2 (by omega), ← List.drop_drop]
        cases ps <;> rfl

end

/-- Evaluation ends without a crash, with the length that scanning gives, and the input has that
many items. -/
theorem eval_ends_inside (p : Pattern) (inner : Crash.inner p = true) (items : List Char) :
    (p.eval items).run = Part.some (.ok (p.scan items)) ∧ p.scan items ≤ items.length :=
  ⟨eval_eq p inner items, (Crash.measures_scan p inner items).within⟩

/-- A text of two bytes, repeated stretches of which one overlaps the next, and an opening that
never closes. -/
def nested : Pattern :=
  .sequence [.bytes ['é'],
    .leading (.within 'a' 'c') (.oneOf [.unit ['a', 'b'], .many (.unit ['b'])]),
    .upTo '<', .between ['<', '!'] ['!', '>']]

theorem eval_ends_inside_nested : Crash.inner nested = true ∧
    (nested.eval "Ã_cabbb.<!>".toList).run = Part.some (.ok 11) ∧
    11 ≤ "Ã_cabbb.<!>".toList.length := by
  have inner : Crash.inner nested = true := by decide
  have found : nested.scan "Ã_cabbb.<!>".toList = 11 := by decide
  exact ⟨inner, found ▸ eval_ends_inside nested inner _⟩

end Analog.Pattern
