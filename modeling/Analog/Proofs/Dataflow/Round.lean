import Analog.Proofs.Dataflow.Renewal

/-!
A round of updates over the statements of a block. The works of a statement stay known as long as
the reach of its scopes is kept, and an update touches only the reach of the blocks inside. So a
block that was updated does the same works when it is updated again.
-/
namespace Analog

theorem Design.reach_congr {d e : Design} (ext : d.Extends e) {s : ScopeId}
    (same : ∀ x ∈ d.chain s, e.reachOf x = d.reachOf x) : e.reach s = d.reach s := by
  have chain : e.chain s = d.chain s := by rw [chain, chain, ext.enclosing]
  have folded : ∀ d : Design, d.reach s = ((d.chain s).map d.reachOf).foldl Reach.join .always := by
    intro d
    rw [List.foldl_map]
    rfl
  rw [folded, folded, chain, List.map_congr_left same]

theorem Design.Extends.chain {d e : Design} (ext : d.Extends e) (s : ScopeId) :
    e.chain s = d.chain s := by
  rw [Design.chain, Design.chain, ext.enclosing]

namespace Statement

variable {outer x : ScopeId} {s : Statement} {r : Resolver} {d e : Design}

theorem fits_of_extends (ext : d.Extends e) : s.Fits e outer ↔ s.Fits d outer := by
  cases s with
  | declare s | assign s => rw [Fits, Fits, ext.vars]
  | contribute s => rfl
  | conditional c thnScope thn elsScope els =>
    rw [Fits, Fits, ext.chain, ext.enclosing, ext.enclosing]
  | block inner body => rw [Fits, Fits, ext.chain, ext.enclosing]

theorem everyAll_fits (ext : d.Extends e) {ss : List Statement} (h : EveryAll (Fits d) outer ss) :
    EveryAll (Fits e) outer ss := by
  have weaken : ∀ outer s, True → Fits d outer s → Fits e outer s :=
    fun _ _ _ fits => (fits_of_extends ext).mpr fits
  exact EveryAll.mono weaken (fun _ _ _ _ _ => trivial) trivial ss h

theorem every_fits (ext : d.Extends e) (h : s.Every (Fits d) outer) : s.Every (Fits e) outer := by
  have alone : EveryAll (Fits d) outer [s] := ⟨h, trivial⟩
  exact (everyAll_fits ext alone).1

theorem everyAll_fits_back (ext : d.Extends e) {ss : List Statement}
    (h : EveryAll (Fits e) outer ss) : EveryAll (Fits d) outer ss := by
  have weaken : ∀ outer s, True → Fits e outer s → Fits d outer s :=
    fun _ _ _ fits => (fits_of_extends ext).mp fits
  exact EveryAll.mono weaken (fun _ _ _ _ _ => trivial) trivial ss h

theorem mem_chain_ownScope (fits : s.Fits d outer) (mem : x ∈ d.chain (s.ownScope outer)) :
    x ∈ d.chain outer ∨ ∃ body, s = .block x body := by
  cases s with
  | block inner body =>
    rw [ownScope, Design.chain, show (d.scopeOf inner).enclosing = d.chain outer from fits] at mem
    rcases List.mem_cons.mp mem with rfl | around
    · exact .inr ⟨body, rfl⟩
    · exact .inl around
  | declare s | assign s | contribute s | conditional c thnScope thn elsScope els => exact .inl mem

theorem reach_ownScope (ext : d.Extends e) (fits : s.Fits d outer)
    (around : ∀ x ∈ d.chain outer, e.reachOf x = d.reachOf x)
    (own : ∀ x body, s = .block x body → e.reachOf x = d.reachOf x) :
    e.reach (s.ownScope outer) = d.reach (s.ownScope outer) := by
  refine Design.reach_congr ext fun x mem => ?_
  obtain outside | ⟨body, block⟩ := mem_chain_ownScope fits mem
  · exact around x outside
  · exact own x body block

theorem mem_scopes_of_own (mem : x ∈ s.ownScopes) : x ∈ s.scopes := by
  cases s with
  | declare s | assign s | contribute s => exact mem
  | conditional c thnScope thn elsScope els =>
    exact List.mem_append_left _ (List.mem_append_left _ mem)
  | block inner body => exact List.mem_append_left _ mem

theorem around_inner {inner : ScopeId} (fits : (d.scopeOf inner).enclosing = d.chain outer)
    (around : ∀ x ∈ d.chain outer, e.reachOf x = d.reachOf x)
    (own : e.reachOf inner = d.reachOf inner) :
    ∀ x ∈ d.chain inner, e.reachOf x = d.reachOf x := by
  intro x mem
  rw [Design.chain, fits] at mem
  rcases List.mem_cons.mp mem with rfl | outside
  · exact own
  · exact around x outside

theorem mem_scopes_thn {c : Condition} {thnScope elsScope : ScopeId} {thn els : List Statement}
    (mem : x ∈ scopesAll thn) : x ∈ scopes (.conditional c thnScope thn elsScope els) :=
  List.mem_append_left _ (List.mem_append_right _ mem)

theorem mem_scopes_els {c : Condition} {thnScope elsScope : ScopeId} {thn els : List Statement}
    (mem : x ∈ scopesAll els) : x ∈ scopes (.conditional c thnScope thn elsScope els) :=
  List.mem_append_right _ mem

mutual

theorem Carries.mono (ext : d.Extends e) (s : Statement) {outer : ScopeId} {ws : List Work}
    (fits : s.Every (Fits d) outer) (around : ∀ x ∈ d.chain outer, e.reachOf x = d.reachOf x)
    (within : ∀ x ∈ s.scopes, e.reachOf x = d.reachOf x) (h : s.Carries r d outer ws) :
    s.Carries r e outer ws := by
  cases s with
  | declare s =>
    simp only [Carries] at h ⊢
    split at h
    · exact h
    · obtain ⟨t, fixed, works⟩ := h
      exact ⟨t, fixed.mono ext, works⟩
  | assign s =>
    obtain ⟨v, t, named, fixed, works⟩ := h
    exact ⟨v, t, named, fixed.mono ext, works⟩
  | contribute s =>
    obtain ⟨t, fixed, works⟩ := h
    exact ⟨t, fixed.mono ext, works⟩
  | conditional c thnScope thn elsScope els =>
    obtain ⟨t, us, vs, fixed, arms, thnCarries, elsCarries, works⟩ := h
    obtain ⟨⟨thnFits, elsFits⟩, thnEvery, elsEvery⟩ := fits
    have thnOwn := within thnScope (mem_scopes_of_own (by simp [ownScopes]))
    have elsOwn := within elsScope (mem_scopes_of_own (by simp [ownScopes]))
    refine ⟨t, us, vs, fixed.mono ext, ?_, ?_, ?_, works⟩
    · rw [thnOwn, elsOwn]
      exact arms
    · exact CarriesAll.mono ext thn thnEvery (around_inner thnFits around thnOwn)
        (fun x mem => within x (mem_scopes_thn mem)) thnCarries
    · exact CarriesAll.mono ext els elsEvery (around_inner elsFits around elsOwn)
        (fun x mem => within x (mem_scopes_els mem)) elsCarries
  | block inner body =>
    obtain ⟨own, every⟩ := fits
    have same := within inner (mem_scopes_of_own (List.mem_singleton_self inner))
    exact CarriesAll.mono ext body every (around_inner own around same)
      (fun x mem => within x (List.mem_append_right _ mem)) h

theorem CarriesAll.mono (ext : d.Extends e) (ss : List Statement) {outer : ScopeId} {ws : List Work}
    (fits : EveryAll (Fits d) outer ss) (around : ∀ x ∈ d.chain outer, e.reachOf x = d.reachOf x)
    (within : ∀ x ∈ scopesAll ss, e.reachOf x = d.reachOf x) (h : CarriesAll r d outer ss ws) :
    CarriesAll r e outer ss ws := by
  cases ss with
  | nil => exact h
  | cons s ss =>
    have first : ∀ x ∈ s.scopes, e.reachOf x = d.reachOf x :=
      fun x mem => within x (List.mem_append_left _ mem)
    have rest : ∀ x ∈ scopesAll ss, e.reachOf x = d.reachOf x :=
      fun x mem => within x (List.mem_append_right _ mem)
    have reach := reach_ownScope ext fits.1.own around fun x _ block =>
      first x (block ▸ List.mem_cons_self)
    simp only [CarriesAll, reach] at h ⊢
    split
    · rename_i never
      rw [if_pos never] at h
      exact CarriesAll.mono ext ss fits.2 around rest h
    · rename_i reached
      rw [if_neg reached] at h
      obtain ⟨us, vs, head, tail, works⟩ := h
      exact ⟨us, vs, Carries.mono ext s fits.1 around first head,
        CarriesAll.mono ext ss fits.2 around rest tail, works⟩

end

end Statement

namespace Rounded

variable {d d₁ d₂ : Design} {a b : Bool} {touched touched₁ touched₂ : List ScopeId}
  {count n m : Nat} {before before₁ before₂ after after₁ after₂ : Design → List Work → Prop}

theorem mono (h : Rounded d d₁ a touched₁ n before₁ after₁) (touches : ∀ x ∈ touched₁, x ∈ touched)
    (counts : n ≤ count) (start : ∀ ws, before d ws → before₁ d ws)
    (finish : ∀ ws, after₁ d₁ ws → after d₁ ws) : Rounded d d₁ a touched count before after := by
  obtain ⟨us, ws, length, swept, carried, known⟩ := h.flow
  refine ⟨h.grown, h.wellFormed, fun x out => h.outside x fun mem => out (touches x mem), us,
    ws, ?_, swept, finish ws carried, fun ws known' => known ws (start ws known')⟩
  exact Nat.le_trans length counts

/-- Works of which the first are as `first` has it, and the rest as `second` has it. -/
def Both (first second : Design → List Work → Prop) (d : Design) (ws : List Work) : Prop :=
  ∃ us vs, first d us ∧ second d vs ∧ ws = us ++ vs

/-- One round of works after another. What the first leaves is still known after the second, and
what the second starts from is known before the first if that changes no reach. -/
theorem trans (first : Rounded d d₁ a touched₁ n before₁ after₁)
    (second : Rounded d₁ d₂ b touched₂ m before₂ after₂) (keep : ∀ ws, after₁ d₁ ws → after₁ d₂ ws)
    (know : (∀ x, d₁.reachOf x = d.reachOf x) → ∀ ws, before₂ d ws → before₂ d₁ ws) :
    Rounded d d₂ (a || b) (touched₁ ++ touched₂) (n + m) (Both before₁ before₂)
    (Both after₁ after₂) := by
  obtain ⟨us₁, ws₁, length₁, swept₁, carried₁, known₁⟩ := first.flow
  obtain ⟨us₂, ws₂, length₂, swept₂, carried₂, known₂⟩ := second.flow
  refine ⟨first.grown.trans second.grown, second.wellFormed, ?_, us₁ ++ us₂, ws₁ ++ ws₂, ?_, ?_,
    ⟨ws₁, ws₂, keep ws₁ carried₁, carried₂, rfl⟩, ?_⟩
  · intro x out
    simp only [List.mem_append, not_or] at out
    rw [second.outside x out.2, first.outside x out.1]
  · rw [List.length_append]
    omega
  · rw [sweep_append, swept₁, swept₂]
  · rintro ws ⟨us, vs, head, tail, rfl⟩
    obtain ⟨reach₁, same₁⟩ := known₁ us head
    obtain ⟨reach₂, same₂⟩ := known₂ vs (know reach₁ vs tail)
    exact ⟨fun x => (reach₂ x).trans (reach₁ x), List.rel_append same₁ same₂⟩

end Rounded

namespace Statement

variable {ss : List Statement} {s : Statement} {r : Resolver} {d e : Design} {outer : ScopeId}

/-- A statement whose blocks have a scope each, nested as the design has it. -/
structure Nested (d : Design) (outer : ScopeId) (s : Statement) : Prop where
  fits : s.Every (Fits d) outer
  distinct : s.scopes.Nodup
  apart : ∀ x ∈ s.scopes, x ∉ d.chain outer

structure NestedAll (d : Design) (outer : ScopeId) (ss : List Statement) : Prop where
  fits : EveryAll (Fits d) outer ss
  distinct : (scopesAll ss).Nodup
  apart : ∀ x ∈ scopesAll ss, x ∉ d.chain outer

theorem NestedAll.extends (ext : d.Extends e) (h : NestedAll d outer ss) :
    NestedAll e outer ss := by
  refine ⟨everyAll_fits ext h.fits, h.distinct, ?_⟩
  rw [ext.chain]
  exact h.apart

theorem NestedAll.head (h : NestedAll d outer (s :: ss)) : s.Nested d outer :=
  ⟨h.fits.1, (List.nodup_append.mp h.distinct).1,
    fun x mem => h.apart x (List.mem_append_left _ mem)⟩

theorem NestedAll.tail (h : NestedAll d outer (s :: ss)) : NestedAll d outer ss :=
  ⟨h.fits.2, (List.nodup_append.mp h.distinct).2.1,
    fun x mem => h.apart x (List.mem_append_right _ mem)⟩

def touched : Statement → List ScopeId
  | .block _ body => scopesAll body
  | s => s.scopes

theorem NestedAll.inner {inner : ScopeId} {body : List Statement}
    (fits : (d.scopeOf inner).enclosing = d.chain outer) (every : EveryAll (Fits d) inner body)
    (distinct : (inner :: scopesAll body).Nodup) (apart : ∀ x ∈ scopesAll body, x ∉ d.chain outer) :
    NestedAll d inner body := by
  refine ⟨every, distinct.of_cons, ?_⟩
  rw [Design.chain, fits]
  intro x mem around
  rcases List.mem_cons.mp around with rfl | outside
  · exact (List.nodup_cons.mp distinct).1 mem
  · exact apart x mem outside

theorem Nested.body {inner : ScopeId} {body : List Statement}
    (h : Nested d outer (.block inner body)) : NestedAll d inner body :=
  .inner h.fits.1 h.fits.2 h.distinct fun x mem => h.apart x (List.mem_cons_of_mem inner mem)

section Arms

variable {c : Condition} {thnScope elsScope : ScopeId} {thn els : List Statement}

theorem Nested.distinct_arms (h : Nested d outer (.conditional c thnScope thn elsScope els)) :
    (thnScope :: scopesAll thn).Nodup ∧ (elsScope :: scopesAll els).Nodup ∧
      List.Disjoint (thnScope :: scopesAll thn) (elsScope :: scopesAll els) := by
  have rotated : (scopes (.conditional c thnScope thn elsScope els)).Perm
      ((thnScope :: scopesAll thn) ++ (elsScope :: scopesAll els)) := by
    show (thnScope :: elsScope :: (scopesAll thn ++ scopesAll els)).Perm _
    exact List.Perm.cons thnScope List.perm_middle.symm
  obtain ⟨first, second, apart⟩ := List.nodup_append.mp (rotated.nodup_iff.mp h.distinct)
  exact ⟨first, second, fun x left right => apart x left x right rfl⟩

theorem Nested.arms_ne (h : Nested d outer (.conditional c thnScope thn elsScope els)) :
    thnScope ≠ elsScope :=
  fun same => h.distinct_arms.2.2 List.mem_cons_self (same ▸ List.mem_cons_self)

theorem Nested.arms_apart (h : Nested d outer (.conditional c thnScope thn elsScope els)) :
    ∀ x ∈ [thnScope, elsScope], x ∉ scopesAll thn ++ scopesAll els := by
  have distinct : ([thnScope, elsScope] ++ scopesAll thn ++ scopesAll els).Nodup := h.distinct
  rw [List.append_assoc, List.nodup_append] at distinct
  exact fun x own inside => distinct.2.2 x own x inside rfl

theorem Nested.blocks_apart (h : Nested d outer (.conditional c thnScope thn elsScope els)) :
    ∀ x ∈ scopesAll thn, x ∉ scopesAll els :=
  fun _ first second => h.distinct_arms.2.2 (List.mem_cons_of_mem _ first)
    (List.mem_cons_of_mem _ second)

theorem Nested.thnBody (h : Nested d outer (.conditional c thnScope thn elsScope els)) :
    NestedAll d thnScope thn :=
  .inner h.fits.1.1 h.fits.2.1 h.distinct_arms.1 fun x mem => h.apart x (mem_scopes_thn mem)

theorem Nested.elsBody (h : Nested d outer (.conditional c thnScope thn elsScope els)) :
    NestedAll d elsScope els :=
  .inner h.fits.1.2 h.fits.2.2 h.distinct_arms.2.1 fun x mem => h.apart x (mem_scopes_els mem)

theorem Nested.around_thn (h : Nested d outer (.conditional c thnScope thn elsScope els)) :
    ∀ x ∈ d.chain thnScope, x ∉ scopesAll els := by
  intro x mem inside
  rw [Design.chain, h.fits.1.1] at mem
  rcases List.mem_cons.mp mem with rfl | outside
  · exact h.distinct_arms.2.2 List.mem_cons_self (List.mem_cons_of_mem _ inside)
  · exact h.apart x (mem_scopes_els inside) outside

end Arms

/-- The statements around a statement tell whether it runs, and so does the scope of a block; an
update inside of it changes neither. -/
theorem Nested.reach_kept (h : s.Nested d outer) (ext : d.Extends e) {changed : List ScopeId}
    (outside : ∀ x, x ∉ changed → e.reachOf x = d.reachOf x)
    (around : ∀ x ∈ d.chain outer, x ∉ changed) (own : ∀ x body, s = .block x body → x ∉ changed) :
    e.reach (s.ownScope outer) = d.reach (s.ownScope outer) :=
  reach_ownScope ext h.fits.own (fun x mem => outside x (around x mem)) fun x body block =>
    outside x (own x body block)

theorem touched_subset {x : ScopeId} (mem : x ∈ s.touched) : x ∈ s.scopes := by
  cases s with
  | block inner body => exact List.mem_cons_of_mem inner mem
  | _ => exact mem

structure Round (r : Resolver) (outer : ScopeId) (s : Statement) (d : Design) (a : Bool)
    (s' : Statement) (d' : Design) : Prop where
  fits : s'.Every (Fits d) outer
  scopes : s'.scopes = s.scopes
  own : s'.ownScope outer = s.ownScope outer
  rounded : Rounded d d' a s.touched s.count (fun e => s.Carries r e outer)
    (fun e => s'.Carries r e outer)

structure RoundAll (r : Resolver) (outer : ScopeId) (ss : List Statement) (d : Design) (a : Bool)
    (ss' : List Statement) (d' : Design) : Prop where
  fits : EveryAll (Fits d) outer ss'
  scopes : scopesAll ss' = scopesAll ss
  rounded : Rounded d d' a (scopesAll ss) (countAll ss) (fun e => CarriesAll r e outer ss)
    (fun e => CarriesAll r e outer ss')

theorem NestedAll.around_tail (h : NestedAll d outer (s :: ss)) :
    ∀ x ∈ d.chain outer, x ∉ scopesAll ss :=
  fun x mem inside => h.tail.apart x inside mem

theorem NestedAll.own_tail (h : NestedAll d outer (s :: ss)) : ∀ x ∈ s.scopes, x ∉ scopesAll ss :=
  fun x mem inside => (List.nodup_append.mp h.distinct).2.2 x mem x inside rfl

theorem RoundAll.skip {ss' : List Statement} {d' : Design} {b : Bool}
    (nested : NestedAll d outer (s :: ss))
    (skipped : (d.reach (s.ownScope outer) == .never) = true) (h : RoundAll r outer ss d b ss' d') :
    RoundAll r outer (s :: ss) d b (s :: ss') d' := by
  refine ⟨⟨nested.fits.1, h.fits⟩, congrArg (s.scopes ++ ·) h.scopes, h.rounded.mono ?_ ?_ ?_ ?_⟩
  · exact fun x mem => List.mem_append_right _ mem
  · exact Nat.le_add_left _ _
  · intro ws known
    simp only [CarriesAll, skipped, ↓reduceIte] at known
    exact known
  · intro ws carried
    have reach := nested.head.reach_kept h.rounded.grown h.rounded.outside nested.around_tail
      fun x _ block => nested.own_tail x (block ▸ List.mem_cons_self)
    simp only [CarriesAll, reach, skipped, ↓reduceIte]
    exact carried

theorem RoundAll.cons {s' : Statement} {ss' : List Statement} {d₁ d₂ : Design} {a b : Bool}
    (nested : NestedAll d outer (s :: ss))
    (reached : ¬(d.reach (s.ownScope outer) == .never) = true)
    (first : s.Round r outer d a s' d₁) (second : RoundAll r outer ss d₁ b ss' d₂) :
    RoundAll r outer (s :: ss) d (a || b) (s' :: ss') d₂ := by
  have keep : ∀ ws, s'.Carries r d₁ outer ws → s'.Carries r d₂ outer ws := by
    intro ws
    refine Carries.mono second.rounded.grown s' (every_fits first.rounded.grown first.fits) ?_ ?_
    · rw [first.rounded.grown.chain]
      exact fun x mem => second.rounded.outside x (nested.around_tail x mem)
    · rw [first.scopes]
      exact fun x mem => second.rounded.outside x (nested.own_tail x mem)
  have know : (∀ x, d₁.reachOf x = d.reachOf x) → ∀ ws, CarriesAll r d outer ss ws →
      CarriesAll r d₁ outer ss ws :=
    fun same ws => CarriesAll.mono first.rounded.grown ss nested.fits.2 (fun x _ => same x)
      fun x _ => same x
  have round := first.rounded.trans second.rounded keep know
  -- Neither round touches what decides whether the statement itself runs.
  have reach : d₂.reach (s'.ownScope outer) = d.reach (s.ownScope outer) := by
    rw [first.own]
    refine nested.head.reach_kept round.grown round.outside ?_ ?_
    · intro x mem changed
      rcases List.mem_append.mp changed with inside | inside
      · exact nested.head.apart x (touched_subset inside) mem
      · exact nested.around_tail x mem inside
    · rintro x body rfl changed
      rcases List.mem_append.mp changed with inside | inside
      · exact (List.nodup_cons.mp nested.head.distinct).1 inside
      · exact nested.own_tail x List.mem_cons_self inside
  refine ⟨⟨first.fits, everyAll_fits_back first.rounded.grown second.fits⟩,
    congrArg₂ (· ++ ·) first.scopes second.scopes, round.mono ?_ (Nat.le_refl _) ?_ ?_⟩
  · intro x mem
    rcases List.mem_append.mp mem with inside | inside
    · exact List.mem_append_left _ (touched_subset inside)
    · exact List.mem_append_right _ inside
  · intro ws known
    simp only [CarriesAll, reached, Bool.false_eq_true, ↓reduceIte] at known
    exact known
  · intro ws carried
    simp only [CarriesAll, reach, reached, Bool.false_eq_true, ↓reduceIte]
    exact carried

theorem Round.conditional {c c' : Condition} {thnScope elsScope : ScopeId}
    {thn thn' els els' : List Statement} {d₁ d₂ d₃ : Design} {a b₁ b₂ : Bool}
    (nested : Nested d outer (.conditional c thnScope thn elsScope els))
    (first : Rounded d d₁ a [thnScope, elsScope] 1 (c.Carries r outer thnScope elsScope)
      (c'.Carries r outer thnScope elsScope)) (second : RoundAll r thnScope thn d₁ b₁ thn' d₂)
    (third : RoundAll r elsScope els d₂ b₂ els' d₃) :
    Round r outer (.conditional c thnScope thn elsScope els) d (a || b₁ || b₂)
      (.conditional c' thnScope thn' elsScope els') d₃ := by
  have grown₂ := first.grown.trans second.rounded.grown
  have keepThn : ∀ ws, CarriesAll r d₂ thnScope thn' ws → CarriesAll r d₃ thnScope thn' ws := by
    intro ws
    refine CarriesAll.mono third.rounded.grown thn'
      (everyAll_fits second.rounded.grown second.fits) ?_ ?_
    · rw [grown₂.chain]
      exact fun x mem => third.rounded.outside x (nested.around_thn x mem)
    · rw [second.scopes]
      exact fun x mem => third.rounded.outside x (nested.blocks_apart x mem)
  have knowEls : (∀ x, d₂.reachOf x = d₁.reachOf x) → ∀ ws, CarriesAll r d₁ elsScope els ws →
      CarriesAll r d₂ elsScope els ws :=
    fun same ws => CarriesAll.mono second.rounded.grown els
      (everyAll_fits first.grown nested.fits.2.2) (fun x _ => same x) fun x _ => same x
  have blocks := second.rounded.trans third.rounded keepThn knowEls
  have keep : ∀ ws, c'.Carries r outer thnScope elsScope d₁ ws →
      c'.Carries r outer thnScope elsScope d₃ ws := by
    rintro ws ⟨t, fixed, arms, works⟩
    refine ⟨t, fixed.mono blocks.grown, ?_, works⟩
    rw [blocks.outside _ (nested.arms_apart _ (.head _)),
      blocks.outside _ (nested.arms_apart _ (.tail _ (.head _)))]
    exact arms
  have know : (∀ x, d₁.reachOf x = d.reachOf x) → ∀ ws,
      Rounded.Both (fun e => CarriesAll r e thnScope thn) (fun e => CarriesAll r e elsScope els)
        d ws →
      Rounded.Both (fun e => CarriesAll r e thnScope thn) (fun e => CarriesAll r e elsScope els) d₁
        ws := by
    rintro same ws ⟨us, vs, thnCarries, elsCarries, works⟩
    exact ⟨us, vs,
      CarriesAll.mono first.grown thn nested.fits.2.1 (fun x _ => same x)
        (fun x _ => same x) thnCarries,
      CarriesAll.mono first.grown els nested.fits.2.2 (fun x _ => same x)
        (fun x _ => same x) elsCarries,
      works⟩
  have round := first.trans blocks keep know
  rw [Bool.or_assoc]
  refine ⟨⟨nested.fits.1, everyAll_fits_back first.grown second.fits,
    everyAll_fits_back grown₂ third.fits⟩, ?_, rfl, round.mono ?_ ?_ ?_ ?_⟩
  · show [thnScope, elsScope] ++ scopesAll thn' ++ scopesAll els' = _
    rw [second.scopes, third.scopes]
    rfl
  · intro x mem
    rw [← List.append_assoc] at mem
    exact mem
  · simp only [count]
    omega
  · intro ws known
    simp only [Carries] at known
    obtain ⟨t, us, vs, fixed, arms, thnCarries, elsCarries, works⟩ := known
    exact ⟨_, _, ⟨t, fixed, arms, rfl⟩, ⟨us, vs, thnCarries, elsCarries, rfl⟩, works⟩
  · rintro ws ⟨_, _, ⟨t, fixed, arms, rfl⟩, ⟨us, vs, thnCarries, elsCarries, rfl⟩, works⟩
    simp only [Carries]
    exact ⟨t, us, vs, fixed, arms, thnCarries, elsCarries, works⟩

mutual

theorem update_rounds (r : Resolver) {outer : ScopeId} {d : Design} (wf : d.WellFormed)
    (s : Statement) (nested : s.Nested d outer) : (s.update r outer d).Yields fun a s' d' =>
    s.Round r outer d a s' d' := by
  cases s with
  | declare s =>
    obtain ⟨f, failed, admissible⟩ | ⟨a, done, round⟩ := (s.rounds r outer wf nested.fits).cases
    · exact .failed failed admissible
    · refine .returned done ⟨?_, rfl, rfl, round⟩
      show (s.update r outer d).value.symbol.id < d.vars.size
      rw [s.symbol_update]
      exact nested.fits
  | assign s =>
    obtain ⟨f, failed, admissible⟩ | ⟨a, done, round⟩ := (s.rounds r outer wf nested.fits).cases
    · exact .failed failed admissible
    · exact .returned done ⟨Assignment.symbol_update r outer wf nested.fits, rfl, rfl, round⟩
  | contribute s =>
    obtain ⟨f, failed, admissible⟩ | ⟨a, done, round⟩ := (s.rounds r outer wf).cases
    · exact .failed failed admissible
    · exact .returned done ⟨trivial, rfl, rfl, round⟩
  | conditional c thnScope thn elsScope els =>
    have condition := c.rounds r outer wf (scope_lt nested.fits.1.1) (scope_lt nested.fits.1.2)
      nested.arms_ne
    simp only [update]
    obtain ⟨f, failed, admissible⟩ | ⟨a, done, first⟩ := condition.cases
    · simp only [failed]
      exact .failed rfl admissible
    simp only [done]
    obtain ⟨f, failed, admissible⟩ | ⟨b, thnDone, second⟩ :=
      (updateAll_rounds r first.wellFormed thn (nested.thnBody.extends first.grown)).cases
    · simp only [failed]
      exact .failed rfl admissible
    simp only [thnDone]
    have grown := first.grown.trans second.rounded.grown
    obtain ⟨f, failed, admissible⟩ | ⟨b', elsDone, third⟩ :=
      (updateAll_rounds r second.rounded.wellFormed els (nested.elsBody.extends grown)).cases
    · simp only [failed]
      exact .failed rfl admissible
    · simp only [elsDone]
      exact .returned rfl (.conditional nested first second third)
  | block inner body =>
    obtain ⟨f, failed, admissible⟩ | ⟨a, done, round⟩ :=
      (updateAll_rounds r wf body nested.body).cases
    · exact .failed failed admissible
    · exact .returned done
        ⟨⟨nested.fits.1, round.fits⟩, congrArg (inner :: ·) round.scopes, rfl, round.rounded⟩

theorem updateAll_rounds (r : Resolver) {outer : ScopeId} {d : Design} (wf : d.WellFormed)
    (ss : List Statement) (nested : NestedAll d outer ss) :
    (updateAll r outer ss d).Yields fun a ss' d' => RoundAll r outer ss d a ss' d' := by
  cases ss with
  | nil =>
    refine .returned rfl ⟨trivial, rfl, .refl d, wf, fun _ _ => rfl, [], [],
      Nat.le_refl 0, rfl, rfl, ?_⟩
    rintro ws rfl
    exact ⟨fun _ => rfl, .nil⟩
  | cons s ss =>
    by_cases skipped : (d.reach (s.ownScope outer) == .never) = true
    · simp only [updateAll, skipped, ↓reduceIte]
      obtain ⟨f, failed, admissible⟩ | ⟨a, done, round⟩ :=
        (updateAll_rounds r wf ss nested.tail).cases
      · exact .failed failed admissible
      · exact .returned done (.skip nested skipped round)
    · simp only [updateAll, skipped, Bool.false_eq_true, ↓reduceIte]
      obtain ⟨f, failed, admissible⟩ | ⟨a, done, first⟩ := (update_rounds r wf s nested.head).cases
      · simp only [failed]
        exact .failed rfl admissible
      simp only [done]
      obtain ⟨f, failed, admissible⟩ | ⟨b, tailDone, second⟩ := (updateAll_rounds r
        first.rounded.wellFormed ss (nested.tail.extends first.rounded.grown)).cases
      · simp only [failed]
        exact .failed rfl admissible
      · simp only [tailDone]
        exact .returned rfl (.cons nested skipped first second)

end

end Statement
end Analog
