import Analog.Guarded.Program
import Analog.Proofs.Guarded.Reading

/-!
Programs, read with a guard on every step. The readers of statements and declarations are guarded
like those of expressions; what they give is what the plain readers give, and they meet no crash.
-/
namespace Analog.Guarded

variable {ws : Words} {limit : Nat}

theorem agrees_semicolon (clauses : List Clause) (ended : ws.Ended) (less : ws.length ≤ limit + 1) :
    Agrees limit (semicolon clauses ws) (Clause.readSemicolon clauses ws) :=
  (agrees_require ended (by decide) _ less).bind fun _ _ ended less => .pure ended clauses less

theorem agrees_init (ended : ws.Ended) (less : ws.length ≤ limit) :
    Agrees limit (init ws) (Clause.readInit ws) := by
  rw [init, Clause.readInit, follows_eq ended, pure_bind]
  refine .ite (fun seen => ?_) fun _ => .pure ended none less
  obtain ⟨text, span, ws, rfl, inner⟩ := ended.cons_of_follows seen (by decide)
  rw [pass_cons inner, pure_bind]
  exact (agrees_read inner (Nat.le_succ_of_le (Nat.le_of_succ_le less))).bind
    fun value after ended less => .pure ended (some value) less

theorem agrees_declarations (type : DataType) (fuel : Nat) (before : List Clause) (ended : ws.Ended)
    (enough : ws.length ≤ fuel) (less : ws.length ≤ limit) :
    Agrees limit (declarations type fuel before ws) (Clause.readVariables type fuel before ws) := by
  induction fuel generalizing ws before with
  | zero => cases ended <;> cases enough
  | succ fuel ih =>
    rw [declarations, Clause.readVariables]
    refine (agrees_require ended (by decide) _ (Nat.le_succ _)).bind fun name ws₁ ended₁ less₁ => ?_
    refine (agrees_init ended₁ less₁).bind fun value ws₂ ended₂ less₂ => ?_
    refine .ite (fun _ => ⟨rfl, fun _ _ run => by cases run⟩) fun _ => ?_
    rw [follows_eq ended₂, pure_bind]
    refine .ite (fun comma => ?_) fun _ => agrees_semicolon _ ended₂ (by omega)
    obtain ⟨text, span, ws₃, rfl, inner⟩ := ended₂.cons_of_follows comma (by decide)
    rw [List.length_cons] at less₂
    rw [pass_cons inner, pure_bind, advance_eq (by omega), pure_bind]
    exact ih _ inner (by omega) (by omega)

theorem startsAssignment_eq (ended : ws.Ended) :
    startsAssignment ws = pure (Words.isAssignment ws) := by
  rw [startsAssignment, look_eq ended, pure_bind]
  congr 1
  unfold Words.isAssignment
  split
  · rfl
  · rename_i other
    rw [Bool.eq_false_iff]
    intro both
    obtain ⟨name, sign⟩ := Bool.and_eq_true_iff.mp both
    obtain ⟨text, span, rest, rfl⟩ := Words.eq_cons_of_follows name (by decide)
    obtain ⟨text₁, span₁, rest₁, rfl⟩ : ∃ text span rest₁,
      rest = ⟨.assign, text, span⟩ :: rest₁ := by
      cases rest with
      | nil => cases sign
      | cons w rest => exact ⟨w.text, w.span, rest, by rw [← beq_iff_eq.mp sign]; rfl⟩
    exact other _ _ _ _ _ rfl

theorem agrees_assignment (before : List Clause) (starts : Words.isAssignment ws = true)
    (ended : ws.Ended) (less : ws.length ≤ limit + 1) :
    Agrees limit (assignment before ws) (Clause.readAssignment before ws) := by
  unfold Words.isAssignment at starts
  split at starts
  · rename_i text span text₁ span₁ ws
    have inner := ended.of_cons Kind.noConfusion
    have inner₁ := inner.of_cons Kind.noConfusion
    simp only [List.length_cons] at less
    rw [assignment, look_eq ended, pure_bind, expect_cons inner, pure_bind,
      expect_cons inner₁, pure_bind]
    exact (agrees_read inner₁ (show ws.length ≤ limit + 1 by omega)).bind
      fun value after ended less => agrees_semicolon _ ended (by omega)
  · cases starts

theorem agrees_contribution (before : List Clause) (ended : ws.Ended)
    (less : ws.length ≤ limit + 1) :
    Agrees limit (contribution before ws) (Clause.readContribution before ws) := by
  refine (agrees_read ended less).bind fun target ws₁ ended₁ less₁ => ?_
  refine (agrees_require ended₁ (by decide) _ (Nat.le_succ_of_le less₁)).bind fun _ ws₂
    ended₂ less₂ => ?_
  refine (agrees_read ended₂ (Nat.le_succ_of_le less₂)).bind fun value ws₃ ended₃ less₃ => ?_
  exact agrees_semicolon _ ended₃ (Nat.le_succ_of_le less₃)

theorem agrees_condition (ended : ws.Ended) (less : ws.length ≤ limit + 1) :
    Agrees limit (condition ws) (Clause.readCondition ws) := by
  refine (agrees_require ended (by decide) _ less).bind fun _ ws₁ ended₁ less₁ => ?_
  refine (agrees_read ended₁ (Nat.le_succ_of_le less₁)).bind fun cond ws₂ ended₂ less₂ => ?_
  exact (agrees_require ended₂ (by decide) _ (Nat.le_succ_of_le less₂)).bind
    fun _ ws₃ ended₃ less₃ => .pure ended₃ cond less₃

theorem agrees_blockName {α : Type} {k : Unit × Words → Guarded (α × Words)}
    {f : Words → Except Diagnostic (α × Words)} (ended : ws.Ended)
    (next : ∀ after, after.Ended → after.length ≤ ws.length →
      Agrees limit (k ((), after)) (f after)) :
    Agrees limit (blockName ws >>= k) (Clause.skipBlockName ws >>= f) := by
  rw [blockName, Clause.skipBlockName, follows_eq ended, pure_bind]
  by_cases colon : Words.follows ws .colon = true
  · obtain ⟨text, span, ws, rfl, inner⟩ := ended.cons_of_follows colon (by decide)
    rw [if_pos colon, if_pos colon, pass_cons inner, pure_bind, bind_assoc, bind_assoc]
    exact (agrees_require inner (by decide) _ (Nat.le_succ ws.length)).bind
      fun _ after ended less => next after ended (Nat.le_succ_of_le less)
  · rw [if_neg colon, if_neg colon]
    exact next ws ended (Nat.le_refl _)

structure Blocks (fuel : Nat) : Prop where
  body : ∀ ws limit, ws.Ended → 3 * ws.length + 2 ≤ fuel → ws.length ≤ limit + 1 →
    Agrees limit (body fuel ws) (Clause.readBodyFuel fuel ws)
  block : ∀ ws limit, ws.Ended → Words.followsKeyword ws "begin" = true → 3 * ws.length ≤ fuel →
    ws.length ≤ limit + 1 → Agrees limit (Guarded.body fuel ws) (Clause.readBodyFuel fuel ws)
  sequence : ∀ before ws limit, ws.Ended → 3 * ws.length + 2 ≤ fuel → ws.length ≤ limit + 1 →
    Agrees limit (sequence fuel before ws) (Clause.readSequence fuel before ws)
  statement : ∀ before ws limit, ws.Ended → 3 * ws.length + 1 ≤ fuel → ws.length ≤ limit + 1 →
    Agrees limit (statement fuel before ws) (Clause.readStatement fuel before ws)

namespace Blocks

variable {fuel : Nat}

theorem block_succ (ih : Blocks fuel) (ended : ws.Ended)
    (begins : Words.followsKeyword ws "begin" = true)
    (enough : 3 * ws.length ≤ fuel + 1) (less : ws.length ≤ limit + 1) :
    Agrees limit (Guarded.body (fuel + 1) ws) (Clause.readBodyFuel (fuel + 1) ws) := by
  rw [Guarded.body, Clause.readBodyFuel, followsKeyword_eq ended, pure_bind, if_pos begins,
    if_pos begins]
  obtain ⟨text, span, ws, rfl, inner⟩ := ended.cons_of_followsKeyword begins
  rw [List.length_cons] at enough less
  rw [pass_cons inner, pure_bind]
  exact agrees_blockName inner fun after ended₁ less₁ =>
    ih.sequence [] after limit ended₁ (by omega) (by omega)

theorem body_succ (ih : Blocks fuel) (ended : ws.Ended) (enough : 3 * ws.length + 2 ≤ fuel + 1)
    (less : ws.length ≤ limit + 1) :
    Agrees limit (Guarded.body (fuel + 1) ws) (Clause.readBodyFuel (fuel + 1) ws) := by
  by_cases begins : Words.followsKeyword ws "begin" = true
  · exact ih.block_succ ended begins (by omega) less
  · rw [Guarded.body, Clause.readBodyFuel, followsKeyword_eq ended, pure_bind, if_neg begins,
      if_neg begins]
    exact ih.statement [] ws limit ended (by omega) less

theorem sequence_succ (ih : Blocks fuel) (before : List Clause) (ended : ws.Ended)
    (enough : 3 * ws.length + 2 ≤ fuel + 1) (less : ws.length ≤ limit + 1) :
    Agrees limit (Guarded.sequence (fuel + 1) before ws)
    (Clause.readSequence (fuel + 1) before ws) := by
  rw [Guarded.sequence, Clause.readSequence]
  simp only [followsKeyword_eq ended, follows_eq ended, pure_bind]
  refine .ite (fun ends => ?_) fun _ => .ite (fun _ => agrees_refuse ended _ limit) fun _ => ?_
  · obtain ⟨text, span, ws, rfl, inner⟩ := ended.cons_of_followsKeyword ends
    rw [pass_cons inner, pure_bind]
    exact .pure inner before (Nat.le_of_succ_le_succ less)
  · refine (ih.statement before ws (ws.length - 1) ended (by omega) (by omega)).bind fun clauses ws₁
      ended₁ less₁ => ?_
    have positive : 0 < ws.length := by cases ended <;> exact Nat.succ_pos _
    dsimp only
    rw [advance_eq (by omega), pure_bind]
    exact ih.sequence clauses ws₁ limit ended₁ (by omega) (by omega)

theorem statement_succ (ih : Blocks fuel) (before : List Clause) (ended : ws.Ended)
    (enough : 3 * ws.length + 1 ≤ fuel + 1) (less : ws.length ≤ limit + 1) :
    Agrees limit (Guarded.statement (fuel + 1) before ws)
    (Clause.readStatement (fuel + 1) before ws) := by
  have declares (type : DataType) {keyword : String}
      (seen : Words.followsKeyword ws keyword = true) :
      Agrees limit (pass ws >>= declarations type ws.length before)
        (Clause.readVariables type ws.length before ws.tail) := by
    obtain ⟨text, span, ws, rfl, inner⟩ := ended.cons_of_followsKeyword seen
    rw [pass_cons inner, pure_bind]
    exact agrees_declarations type _ before inner (Nat.le_succ _) (Nat.le_of_succ_le_succ less)
  rw [Guarded.statement, Clause.readStatement]
  simp only [followsKeyword_eq ended, follows_eq ended, startsAssignment_eq ended, pure_bind]
  refine .ite (fun empty => ?_) fun _ => .ite (fun begins => ?_) fun _ =>
    .ite (fun chooses => ?_) fun _ =>
    .ite (declares .real) fun _ => .ite (declares .integer) fun _ =>
    .ite (fun starts => agrees_assignment before starts ended less) fun _ =>
      agrees_contribution before ended less
  · obtain ⟨text, span, ws, rfl, inner⟩ := ended.cons_of_follows empty (by decide)
    rw [pass_cons inner, pure_bind]
    exact .pure inner before (Nat.le_of_succ_le_succ less)
  · exact (ih.block ws limit ended begins (by omega) less).bind fun inner after ended less =>
      .pure ended _ less
  · obtain ⟨text, span, ws, rfl, inner⟩ := ended.cons_of_followsKeyword chooses
    rw [List.length_cons] at enough less
    rw [pass_cons inner, pure_bind]
    refine (agrees_condition inner (Nat.le_succ_of_le (Nat.le_refl _))).bind fun cond ws₁
      ended₁ less₁ => ?_
    refine (ih.body ws₁ ws₁.length ended₁ (by omega) (by omega)).bind fun thn ws₂ ended₂ less₂ => ?_
    dsimp only
    rw [followsKeyword_eq ended₂, pure_bind]
    refine .ite (fun otherwise => ?_) fun _ => .pure ended₂ _ (by omega)
    obtain ⟨text, span, ws₃, rfl, inner₂⟩ := ended₂.cons_of_followsKeyword otherwise
    rw [List.length_cons] at less₂
    rw [pass_cons inner₂, pure_bind]
    exact (ih.body ws₃ limit inner₂ (by omega) (by omega)).bind fun els after ended less =>
      .pure ended _ less

theorem all (fuel : Nat) : Blocks fuel := by
  induction fuel with
  | zero =>
    refine ⟨?_, ?_, ?_, ?_⟩
    · intro ws limit _ enough
      omega
    · intro ws limit ended _ enough
      cases ended <;> cases enough
    · intro before ws limit _ enough
      omega
    · intro before ws limit _ enough
      omega
  | succ fuel ih =>
    exact ⟨fun _ _ => ih.body_succ, fun _ _ => ih.block_succ,
      fun before _ _ => ih.sequence_succ before, fun before _ _ => ih.statement_succ before⟩

end Blocks

/-- A reading meets no crash and emits what the plain one emits. It leaves words that end as they
should, and no more than `limit` of them. -/
structure Emits (limit : Nat) (m : Emitting Words) (e : Emitted) : Prop where
  same : ∀ before, m.run before = .ok (e.next, before ++ e.items)
  rest : ∀ ws, e.next = .ok ws → ws.Ended ∧ ws.length ≤ limit

namespace Emits

variable {α : Type} {g : Guarded α} {k : α → Emitting Words} {e : Emitted}

theorem failed {d : Diagnostic} (same : g = sure (.error d)) :
    Emits limit ((g : Emitting α) >>= k) (.ofWords (.error d)) := by
  subst same
  exact ⟨fun before => by rw [Emitted.ofWords, List.append_nil]; rfl, fun _ run => by cases run⟩

theorem found {a : α} (same : g = sure (.ok a)) (next : Emits limit (k a) e) :
    Emits limit ((g : Emitting α) >>= k) e := by
  subst same
  exact next

theorem ite {b : Bool} {g : Guarded Bool} {m m' : Emitting Words} {e' : Emitted}
    (same : g = Pure.pure b)
    (yes : b = true → Emits limit m e) (no : b = false → Emits limit m' e') :
    Emits limit (do if ← g then m else m') (if b then e else e') := by
  refine .found same ?_
  cases b with
  | true => exact yes rfl
  | false => exact no rfl

theorem emit {item : ProgramItem} {m : Emitting Words} (h : Emits limit m e) :
    Emits limit (Guarded.emit item >>= fun _ => m) ⟨item :: e.items, e.next⟩ :=
  ⟨fun before => by
    have step := h.same (before ++ [item])
    rw [List.append_assoc, List.singleton_append] at step
    exact step, h.rest⟩

theorem pure (ended : ws.Ended) (less : ws.length ≤ limit) :
    Emits limit (Pure.pure ws) (.ofWords (.ok ws)) :=
  ⟨fun before
    => by rw [Emitted.ofWords, List.append_nil]; rfl, fun _ run =>
    by cases run; exact ⟨ended, less⟩⟩

theorem andThen {within : Nat} {m : Emitting Words} {k : Words → Emitting Words}
    {f : Words → Emitted}
    (first : Emits within m e) (next : ∀ after, after.Ended → after.length ≤ within →
      Emits limit (k after) (f after)) :
    Emits limit (m >>= k) (e.andThen f) := by
  obtain ⟨items, outcome⟩ := e
  cases outcome with
  | error d =>
    refine ⟨fun before => ?_, fun _ run => by cases run⟩
    show ((m.run before : Except Crash _) >>= _) = _
    rw [first.same before]
    rfl
  | ok after =>
    obtain ⟨ended, less⟩ := first.rest after rfl
    obtain ⟨same, rest⟩ := next after ended less
    refine ⟨fun before => ?_, rest⟩
    show ((m.run before : Except Crash _) >>= _) = _
    rw [first.same before]
    refine (same (before ++ items)).trans ?_
    rw [List.append_assoc]
    rfl

end Emits

theorem emits_require {kind : Kind} (message : String) (ended : ws.Ended) (inner : kind ≠ .finish)
    (less : ws.length ≤ limit + 1) :
    Emits limit (do return (← require ws kind message).2)
    (.ofWords ((Words.require ws kind message).map (·.2))) := by
  obtain ⟨same, rest⟩ := agrees_require ended inner message less
  cases found : Words.require ws kind message with
  | error d => exact .failed (same.trans (by rw [found]))
  | ok x =>
    obtain ⟨ended, less⟩ := rest x.1 x.2 found
    exact .found (same.trans (by rw [found])) (.pure ended less)

theorem emits_semicolon (ended : ws.Ended) (less : ws.length ≤ limit + 1) :
    Emits limit (endItem ws) (.ofWords (ProgramItem.semicolon ws)) := by
  have required := emits_require "expected ';'" ended (by decide : Kind.semicolon ≠ .finish) less
  unfold endItem ProgramItem.semicolon semicolon
  rw [(agrees_require ended (by decide) _ less).same] at required ⊢
  generalize Words.require ws .semicolon "expected ';'" = x at required ⊢
  cases x <;> exact required

theorem emits_close (ended : ws.Ended) (less : ws.length ≤ limit) :
    Emits limit (do if ← follows ws .rightParen then return ws else endItem ws)
      ⟨[], if Words.follows ws .rightParen then .ok ws else ProgramItem.semicolon ws⟩ := by
  refine .found (follows_eq ended _) ?_
  cases Words.follows ws .rightParen with
  | true => exact .pure ended less
  | false => exact emits_semicolon ended (Nat.le_succ_of_le less)

theorem emits_names (make : Lexeme → ProgramItem) (fuel : Nat) (ended : ws.Ended)
    (enough : ws.length ≤ fuel) (less : ws.length ≤ limit + 1) :
    Emits limit (names make fuel ws) (ProgramItem.readNames make ws) := by
  induction fuel generalizing ws with
  | zero => cases ended <;> cases enough
  | succ fuel ih =>
    have required := (agrees_require ended (by decide : Kind.identifier ≠ .finish)
      "expected identifier" less).same
    cases ws with
    | nil => cases ended
    | cons w ws =>
      rw [names]
      unfold ProgramItem.readNames
      by_cases name : w.kind = .identifier
      · have inner := ended.of_cons (name ▸ Kind.noConfusion)
        have first : Words.require (w :: ws) .identifier "expected identifier" = .ok (w, ws) := by
          simp [Words.require, name]
        rw [List.length_cons] at enough less
        rw [first] at required
        rw [if_neg (by simp [name])]
        refine .found required ?_
        dsimp only
        by_cases comma : Words.follows ws .comma = true
        · obtain ⟨text, span, ws, rfl, inner₁⟩ := inner.cons_of_follows comma (by decide)
          rw [List.length_cons] at enough less
          refine .emit (.found (follows_eq inner _) ?_)
          rw [if_pos comma]
          refine .found (pass_cons inner₁)
            (.found (advance_eq (by simp only [List.length_cons]; omega)) ?_)
          exact ih inner₁ (by omega) (by omega)
        · split
          · exact absurd rfl comma
          · refine Emits.emit (e := ⟨[], if Words.follows ws .rightParen then .ok ws
              else ProgramItem.semicolon ws⟩)
              (.found (follows_eq inner _) ?_)
            rw [if_neg comma]
            exact emits_close inner (by omega)
      · have first : Words.require (w :: ws) .identifier "expected identifier" = Words.fail
            (w :: ws) "expected identifier" := by
          simp [Words.require, name]
        rw [first] at required
        rw [if_pos (by simpa using name)]
        exact .failed required

theorem skipRange_eq (fuel : Nat) (depth : Int) (ended : ws.Ended) (enough : ws.length ≤ fuel) :
    skipRange fuel depth ws = pure (ProgramItem.skipRange depth ws) ∧
      (ProgramItem.skipRange depth ws).Ended ∧ (ProgramItem.skipRange depth ws).length ≤ ws.length ∧
      (Words.next (ProgramItem.skipRange depth ws)).kind ≠ .identifier := by
  induction fuel generalizing depth ws with
  | zero => cases ended <;> cases enough
  | succ fuel ih =>
    cases ended with
    | @finish w last =>
      have seen : (w.kind == .finish) = true := beq_iff_eq.mpr last
      have stops : ProgramItem.skipRange depth [w] = [w] := by
        rw [ProgramItem.skipRange, if_pos seen]
      rw [stops, skipRange, look_eq (.finish last), pure_bind]
      exact ⟨if_pos seen, .finish last, Nat.le_refl _, by simp [Words.next, last]⟩
    | @cons w ws own inner =>
      have other : ¬ (w.kind == .finish) = true := by simpa using own
      rw [skipRange, look_eq (.cons own inner), pure_bind, ProgramItem.skipRange, Words.next,
        List.headD_cons, if_neg other, if_neg other]
      by_cases stops : (decide (depth ≤ 0) && (w.kind == .comma || w.kind == .semicolon)) = true
      · rw [if_pos stops, if_pos stops]
        refine ⟨rfl, .cons own inner, Nat.le_refl _, fun name => ?_⟩
        have seen := (Bool.and_eq_true_iff.mp stops).2
        rw [Words.next, List.headD_cons] at name
        rw [name] at seen
        cases seen
      · rw [if_neg stops, if_neg stops, pass_cons inner, pure_bind]
        obtain ⟨same, ended, less, apart⟩ := ih (depth + ProgramItem.depthChange w.kind) inner
          (Nat.le_of_succ_le_succ enough)
        exact ⟨same, ended, Nat.le_succ_of_le less, apart⟩

theorem skipRanges_eq (ended : ws.Ended) :
      skipRanges ws.length ws = pure (ProgramItem.skipRanges ws) ∧
      (ProgramItem.skipRanges ws).Ended ∧ (ProgramItem.skipRanges ws).length ≤ ws.length := by
  have plain {ws : Words} (fuel : Nat) (ended : ws.Ended)
      (apart : (Words.next ws).kind ≠ .identifier) :
      skipRanges (fuel + 1) ws = pure ws := by
    have none (keyword : String) : Words.followsKeyword ws keyword = false := by
      simp [Words.followsKeyword, apart]
    rw [skipRanges, followsKeyword_eq ended, pure_bind, followsKeyword_eq ended,
      pure_bind, none, none]
    rfl
  obtain ⟨fuel, size⟩ : ∃ fuel, ws.length = fuel + 1 := by cases ended <;> exact ⟨_, rfl⟩
  rw [size, skipRanges, ProgramItem.skipRanges, followsKeyword_eq ended, pure_bind,
    followsKeyword_eq ended, pure_bind]
  by_cases ranged : (Words.followsKeyword ws "from" || Words.followsKeyword ws "exclude") = true
  · obtain ⟨text, span, ws, rfl⟩ : ∃ text span rest, ws = ⟨.identifier, text, span⟩ :: rest := by
      rcases Bool.or_eq_true_iff.mp ranged with seen | seen <;>
        exact Words.eq_cons_of_followsKeyword seen
    have inner := ended.of_cons Kind.noConfusion
    obtain ⟨same, ended₁, less₁, apart⟩ := skipRange_eq (ws.length + 1) 0 inner (Nat.le_succ _)
    obtain rfl : ws.length = fuel := Nat.succ.inj size
    rw [if_pos ranged, if_pos ranged, pass_cons inner, pure_bind, List.length_cons, same, pure_bind,
      advance_eq (Nat.lt_succ_of_le less₁), pure_bind]
    refine ⟨?_, ended₁, Nat.le_succ_of_le less₁⟩
    cases inner <;> exact plain _ ended₁ apart
  · rw [if_neg ranged, if_neg ranged]
    exact ⟨rfl, ended, Nat.le_of_eq size⟩

theorem agrees_default (ended : ws.Ended) (less : ws.length ≤ limit + 1) :
    Agrees limit (default ws)
    ((fun x => ((x.1, x.2.1), x.2.2)) <$> ProgramItem.readDefault ws) := by
  unfold default ProgramItem.readDefault
  simp only [map_bind]
  refine (agrees_require ended (by decide) _ less).bind fun name ws₁ ended₁ less₁ => ?_
  refine (agrees_require ended₁ (by decide) _ (Nat.le_succ_of_le less₁)).bind fun _ ws₂
    ended₂ less₂ => ?_
  refine (agrees_read ended₂ (Nat.le_succ_of_le less₂)).bind fun value ws₃ ended₃ less₃ => ?_
  obtain ⟨same, ended₄, less₄⟩ := skipRanges_eq ended₃
  dsimp only
  rw [same, pure_bind]
  exact .pure ended₄ (name, value) (Nat.le_trans less₄ less₃)

theorem agrees_type (ended : ws.Ended) (less : ws.length ≤ limit) :
    Agrees limit (type ws) (.ok (Words.typeOrReal ws)) := by
  have passed (t : DataType) {keyword : String} (seen : Words.followsKeyword ws keyword = true) :
      Agrees limit (pass ws >>= fun ws => return (t, ws)) (.ok (t, ws.tail)) := by
    obtain ⟨text, span, ws, rfl, inner⟩ := ended.cons_of_followsKeyword seen
    rw [pass_cons inner, pure_bind]
    exact .pure inner t (Nat.le_of_succ_le less)
  rw [type]
  unfold Words.typeOrReal Words.type?
  simp only [followsKeyword_eq ended, pure_bind]
  cases real : Words.followsKeyword ws "real" with
  | true => exact passed .real real
  | false =>
    cases integer : Words.followsKeyword ws "integer" with
    | true => exact passed .integer integer
    | false =>
      cases string : Words.followsKeyword ws "string" with
      | true => exact passed .string string
      | false => exact .pure ended DataType.real less

theorem agrees_nodes (ended : ws.Ended) (less : ws.length ≤ limit + 1) :
    Agrees limit (nodes ws) ((fun x => ((x.1, x.2.1), x.2.2)) <$> ProgramItem.readNodes ws) := by
  unfold nodes ProgramItem.readNodes
  simp only [map_bind]
  refine (agrees_require ended (by decide) _ less).bind fun _ ws₁ ended₁ less₁ => ?_
  refine (agrees_require ended₁ (by decide) _ (Nat.le_succ_of_le less₁)).bind fun p ws₂
    ended₂ less₂ => ?_
  dsimp only
  rw [follows_eq ended₂, pure_bind]
  by_cases comma : Words.follows ws₂ .comma = true
  · obtain ⟨text, span, ws₃, rfl, inner⟩ := ended₂.cons_of_follows comma (by decide)
    rw [List.length_cons] at less₂
    rw [if_pos comma, if_pos comma, pass_cons inner, pure_bind]
    simp only [map_bind]
    refine (agrees_require inner (by decide) _ (show ws₃.length ≤ limit + 1 by omega)).bind fun n
      ws₄ ended₄ less₄ => ?_
    exact (agrees_require ended₄ (by decide) _ (Nat.le_succ_of_le less₄)).bind
      fun _ ws₅ ended₅ less₅ => .pure ended₅ (p.text, some n.text) less₅
  · rw [if_neg comma, if_neg comma]
    simp only [map_bind]
    exact (agrees_require ended₂ (by decide) _ (Nat.le_succ_of_le less₂)).bind
      fun _ ws₃ ended₃ less₃ => .pure ended₃ (p.text, none) less₃

theorem emits_parameters (type : DataType) (isLocal : Bool) (fuel : Nat) (ended : ws.Ended)
    (enough : ws.length ≤ fuel) (less : ws.length ≤ limit + 1) :
    Emits limit (parameters type isLocal fuel ws)
    (ProgramItem.readParametersFuel type isLocal fuel ws) := by
  induction fuel generalizing ws with
  | zero => cases ended <;> cases enough
  | succ fuel ih =>
    obtain ⟨same, rest⟩ := agrees_default ended (show ws.length ≤ ws.length - 1 + 1 by omega)
    rw [parameters, ProgramItem.readParametersFuel]
    cases found : ProgramItem.readDefault ws with
    | error d => exact .failed (same.trans (by rw [found]; rfl))
    | ok x =>
      obtain ⟨name, value, after⟩ := x
      rw [found] at same rest
      obtain ⟨ended₁, less₁⟩ := rest (name, value) after rfl
      refine .found same ?_
      dsimp only
      by_cases comma : Words.follows after .comma = true
      · obtain ⟨text, span, ws₁, rfl, inner⟩ := ended₁.cons_of_follows comma (by decide)
        rw [List.length_cons] at less₁
        rw [if_pos comma]
        refine .emit (.found (follows_eq ended₁ _) ?_)
        rw [if_pos comma]
        refine .found (pass_cons inner) (.found (advance_eq (by omega)) ?_)
        exact ih inner (by omega) (by omega)
      · rw [if_neg comma]
        refine Emits.emit (e := ⟨[], ProgramItem.semicolon after⟩) (.found (follows_eq ended₁ _) ?_)
        rw [if_neg comma]
        exact emits_semicolon ended₁ (by omega)

theorem emits_refuse (ended : ws.Ended) (message : String) :
    Emits limit (refuse ws message : Guarded Words) (.ofWords (Words.fail ws message)) := by
  refine ⟨fun before => ?_, fun _ run => by cases run⟩
  rw [refuse, look_eq ended, Emitted.ofWords, List.append_nil]
  rfl

/-- The words that start an item. -/
def starters : List String :=
  ["input", "output", "inout", "electrical", "parameter", "localparam", "real", "integer",
    "branch", "analog"]

theorem read_unknown {text : String} (unknown : text ∉ starters) (span : Span) (ws : Words) :
    ProgramItem.read (⟨.identifier, text, span⟩ :: ws) =
      .ofWords (Words.fail (⟨.identifier, text, span⟩ :: ws) "unknown declaration") := by
  simp only [starters, List.mem_cons, List.not_mem_nil, or_false, not_or] at unknown
  simp only [ProgramItem.read, Words.next, List.headD_cons, bne_self_eq_false,
    Bool.false_eq_true, if_false]
  split
  case h_11 => rfl
  all_goals simp at unknown

theorem emits_item (ended : ws.Ended) (less : ws.length ≤ limit + 1) :
    Emits limit (item ws) (ProgramItem.read ws) := by
  unfold item
  refine .found (look_eq ended) ?_
  by_cases name : Words.follows ws .identifier = true
  · obtain ⟨text, span, ws, rfl, inner⟩ := ended.cons_of_follows name (by decide)
    rw [List.length_cons] at less
    have expected : expect (⟨.identifier, text, span⟩ :: ws) .identifier = pure ws :=
      expect_cons inner
    have listed (make : Lexeme → ProgramItem) := Emits.found expected
      (emits_names make (ws.length + 1) inner (Nat.le_succ _) (Nat.le_of_succ_le less))
    have typed (isLocal : Bool) : Emits limit
        (type ws >>= fun x => parameters x.1 isLocal x.2.length x.2 : Emitting Words)
        (ProgramItem.readParameters isLocal ws) := by
      obtain ⟨same, rest⟩ := agrees_type inner (Nat.le_refl _)
      obtain ⟨ended, fewer⟩ := rest (Words.typeOrReal ws).1 (Words.typeOrReal ws).2 rfl
      exact .found same (emits_parameters _ isLocal _ ended (Nat.le_refl _) (by omega))
    simp only [Words.next, List.headD_cons, bne_self_eq_false, Bool.false_eq_true, if_false]
    split
    case h_1 | h_2 | h_3 | h_4 | h_7 | h_8 => exact listed _
    case h_5 => exact .found expected (typed false)
    case h_6 => exact .found expected (typed true)
    case h_9 =>
      refine .found expected ?_
      obtain ⟨same, rest⟩ := agrees_nodes inner (show ws.length ≤ limit + 1 by omega)
      change Emits limit _ (ProgramItem.readBranches ws)
      unfold ProgramItem.readBranches
      cases found : ProgramItem.readNodes ws with
      | error d => exact .failed (same.trans (by rw [found]; rfl))
      | ok x =>
        rw [found] at same rest
        obtain ⟨ended, fewer⟩ := rest _ _ rfl
        exact .found same (emits_names _ _ ended (Nat.le_refl _) (Nat.le_succ_of_le fewer))
    case h_10 =>
      refine .found expected ?_
      obtain ⟨same, rest⟩ := (Blocks.all (3 * ws.length + 3)).body ws limit inner
        (Nat.le_succ _) (by omega)
      change Emits limit _ (ProgramItem.readAnalog ⟨.identifier, "analog", span⟩ ws)
      unfold ProgramItem.readAnalog Clause.readBody
      cases found : Clause.readBodyFuel (3 * ws.length + 3) ws with
      | error d => exact .failed (same.trans (by rw [found]))
      | ok x =>
        rw [found] at same rest
        obtain ⟨ended, fewer⟩ := rest _ _ rfl
        exact .found same (.emit (.pure ended fewer))
    case h_11 =>
      have unknown : text ∉ starters := by
        simp only [starters, List.mem_cons, List.not_mem_nil, or_false, not_or]
        tauto
      rw [read_unknown unknown]
      exact emits_refuse ended _
  · have other : ((Words.next ws).kind != .identifier) = true := by simpa [Words.follows] using name
    simp only [ProgramItem.read, other, if_true]
    exact emits_refuse ended _

theorem emits_items (fuel : Nat) (ended : ws.Ended) (enough : ws.length ≤ fuel)
    (less : ws.length ≤ limit + 1) : Emits limit (items fuel ws) (ProgramItem.readAll fuel ws) := by
  induction fuel generalizing ws with
  | zero => cases ended <;> cases enough
  | succ fuel ih =>
    rw [items, ProgramItem.readAll]
    refine .ite (followsKeyword_eq ended _) (fun ends => ?_) fun _ =>
      .ite (follows_eq ended _) (fun _ => emits_refuse ended _) fun _ => ?_
    · obtain ⟨text, span, ws, rfl, inner⟩ := ended.cons_of_followsKeyword ends
      rw [pass_cons inner]
      exact .pure inner (Nat.le_of_succ_le_succ less)
    have positive : 0 < ws.length := by cases ended <;> exact Nat.succ_pos _
    refine (emits_item ended (show ws.length ≤ ws.length - 1 + 1 by omega)).andThen fun rest
      ended₁ less₁ => ?_
    exact .found (advance_eq (by omega)) (ih ended₁ (by omega) (by omega))

theorem emits_ports (ended : ws.Ended) (less : ws.length ≤ limit) :
    Emits limit (ports ws) (ProgramItem.readPorts ws) := by
  have close {ws : Words} (ended : ws.Ended) (less : ws.length ≤ limit) :=
    emits_require "expected ')'" ended (by decide : Kind.rightParen ≠ .finish)
      (Nat.le_succ_of_le less)
  unfold ports ProgramItem.readPorts
  refine .ite (follows_eq ended _) (fun opens => ?_) fun _ => .pure ended less
  obtain ⟨text, span, ws, rfl, inner⟩ := ended.cons_of_follows opens (by decide)
  rw [List.length_cons] at less
  refine .found (pass_cons inner) (.found (follows_eq inner _) ?_)
  cases closed : Words.follows ws .rightParen with
  | true =>
    simp only [List.tail_cons, closed, if_true]
    exact (Emits.pure inner (Nat.le_of_succ_le less)).andThen fun after ended less =>
      close ended less
  | false =>
    simp only [List.tail_cons, closed, Bool.false_eq_true, if_false]
    exact (emits_names .port _ inner (Nat.le_refl _) (by omega)).andThen fun after ended less =>
      close ended less

theorem emits_device (ended : ws.Ended) (less : ws.length ≤ limit + 1) :
    Emits limit (device ws) (ProgramItem.readDevice ws) := by
  unfold device ProgramItem.readDevice
  refine .ite (followsKeyword_eq ended _) (fun starts => ?_) fun _ => emits_refuse ended _
  obtain ⟨text, span, ws, rfl, inner⟩ := ended.cons_of_followsKeyword starts
  rw [List.length_cons] at less
  obtain ⟨same, rest⟩ := agrees_require inner (by decide : Kind.identifier ≠ .finish)
    "expected module name" (show ws.length ≤ limit + 1 by omega)
  refine .found (pass_cons inner) ?_
  dsimp only [List.tail_cons]
  cases found : Words.require ws .identifier "expected module name" with
  | error d => exact .failed (same.trans (by rw [found]))
  | ok x =>
    obtain ⟨name, ws₁⟩ := x
    obtain ⟨ended₁, less₁⟩ := rest name ws₁ found
    refine .found (same.trans (by rw [found])) ?_
    dsimp only
    rw [← bind_assoc, ← bind_assoc]
    refine ((Emits.emit (emits_ports ended₁ less₁)).andThen fun ws₂ ended₂ less₂ =>
      emits_semicolon ended₂ (Nat.le_succ_of_le less₂)).andThen fun ws₃ ended₃ less₃ => ?_
    exact emits_items _ ended₃ (Nat.le_refl _) (Nat.le_succ_of_le less₃)

theorem emits_devices (fuel : Nat) (ended : ws.Ended) (enough : ws.length ≤ fuel)
    (less : ws.length ≤ limit) :
    Emits limit (devices fuel ws) (ProgramItem.readDevices fuel ws) := by
  induction fuel generalizing ws with
  | zero => cases ended <;> cases enough
  | succ fuel ih =>
    rw [devices, ProgramItem.readDevices]
    refine .ite (follows_eq ended _) (fun _ => .pure ended less) fun _ => ?_
    have positive : 0 < ws.length := by cases ended <;> exact Nat.succ_pos _
    refine (emits_device ended (show ws.length ≤ ws.length - 1 + 1 by omega)).andThen fun rest
      ended₁ less₁ => ?_
    exact .found (advance_eq (by omega)) (ih ended₁ (by omega) (by omega))

/-- From words that end as they should, the guarded reader of programs is the plain one. -/
theorem program_eq (ended : ws.Ended) : program ws = .ok (Program.ofWords ws) := by
  have same := (emits_devices ws.length ended (Nat.le_refl _) (Nat.le_refl _)).same []
  rw [program, same, Program.ofWords]
  cases (ProgramItem.readDevices ws.length ws).next <;> rfl

end Analog.Guarded
