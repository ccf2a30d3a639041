import Analog.Proofs.Resolver.Repeatability

/-!
The internal branches of filters. Each call site gets a branch that no other one has, and it keeps
it. The filters of a resolved tree stand at different places of its expression, so each of them has
a branch of its own, which no filter of another expression has.
-/
namespace Analog

namespace Tree

mutual

/-- The internal branches of the filters of a tree. -/
def filters : Tree → List BranchId
  | .declaration _ init => init.filters
  | .unary _ x _ => x.filters
  | .binary _ l r _ => l.filters ++ r.filters
  | .ternary c t e _ => c.filters ++ t.filters ++ e.filters
  | .call _ args b _ => b.toList ++ filtersAll args
  | .arguments items => filtersAll items
  | _ => []

def filtersAll : List Tree → List BranchId
  | [] => []
  | t :: ts => t.filters ++ filtersAll ts

end

def driven? (x : BranchId × Usage) : Option BranchId := if x.2 = .flowSource then some x.1 else none

mutual

theorem filters_eq (t : Tree) : t.filters = t.uses.filterMap driven? := by
  cases t with
  | literal | parameter | «variable» | node | port | marker | deferred => rfl
  | access q => cases known : q.probe.access <;> simp [filters, uses, driven?, known, Access.probe]
  | declaration v init => simp only [filters, uses, filters_eq init]
  | unary op x s => simp only [filters, uses, filters_eq x]
  | binary op l r s => simp only [filters, uses, filters_eq l, filters_eq r, List.filterMap_append]
  | ternary c t e s =>
    simp only [filters, uses, filters_eq c, filters_eq t, filters_eq e, List.filterMap_append]
  | call f args b s =>
    cases b with
    | none => simp [filters, uses, filtersAll_eq args]
    | some b => simp [filters, uses, filtersAll_eq args, driven?]
  | arguments items => simp only [filters, uses, filtersAll_eq items]

theorem filtersAll_eq (ts : List Tree) : filtersAll ts = (allUses ts).filterMap driven? := by
  cases ts with
  | nil => rfl
  | cons t ts =>
    simp only [filtersAll, allUses, filters_eq t, filtersAll_eq ts, List.filterMap_append]

end

theorem filters_of_no_uses {t : Tree} (h : t.uses = []) :
    t.filters = [] := by rw [filters_eq, h]; rfl

theorem filters_unary (op : UnaryOp) (x : Tree) : (Simplify.unary op x).filters = x.filters := by
  rw [filters_eq, filters_eq, Simplify.uses_unary]

theorem count_filters_binary (op : BinaryOp) (l r : Tree) (b : BranchId) :
    (Simplify.binary op l r).tree.filters.count b ≤ l.filters.count b + r.filters.count b := by
  have whole := congrArg (fun us => (us.filterMap driven?).count b) (Simplify.uses_binary op l r)
  simp only [Simplify.Simplified.uses, List.filterMap_append, List.count_append,
    ← filters_eq] at whole
  omega

theorem count_filters_popped {items args : List Tree} {below : Stack Tree}
    (popped : Stack.popUntil? ⟨items⟩ isMarker = some (args, below)) (b : BranchId) :
    (filtersAll (.arguments args :: below.items)).count b = (filtersAll items).count b := by
  unfold Stack.popUntil? at popped
  split at popped
  · rename_i top rest cut
    cases popped
    have marker : top.filters = [] := by
      have first := List.head?_dropWhile_not (fun t => !isMarker t) items
      rw [cut] at first
      cases top <;> simp_all [isMarker, filters]
    have whole : items = items.takeWhile (fun t => !isMarker t) ++ top :: rest := by
      rw [← cut, List.takeWhile_append_dropWhile]
    have above := allUses_perm (List.reverse_perm (items.takeWhile fun t => !isMarker t))
    have same := (above.filterMap driven?).count_eq b
    rw [← filtersAll_eq, ← filtersAll_eq] at same
    conv_rhs => rw [whole, filtersAll_eq, allUses_append, List.filterMap_append, ← filtersAll_eq,
      ← filtersAll_eq]
    simp only [filtersAll, filters, marker, List.nil_append, List.count_append, same]
  · cases popped

end Tree

/-- No two call sites have the same branch. -/
def Design.FiltersApart (d : Design) :
    Prop := ∀ x ∈ d.filters, ∀ y ∈ d.filters, x.2 = y.2 → x.1 = y.1

/-- What resolving keeps: a well-formed design, and branches of their own for call sites. -/
structure Design.Allotted (d : Design) : Prop where
  wellFormed : d.WellFormed
  apart : d.FiltersApart

theorem Design.upheld_allotted : Upheld (fun _ => True) fun d e => d.Allotted → e.Allotted where
  refl _ h := h
  trans ab bc h := bc (ab h)
  recount same h :=
    ⟨h.wellFormed.withCircuit (Circuit.extends_of_uncounted same)
      (h.wellFormed.circuit.of_uncounted same), h.apart⟩
  connect made h :=
    ⟨h.wellFormed.withCircuit (Circuit.connect_extends made) (h.wellFormed.circuit.connect made),
      h.apart⟩
  filter {d site} _ _ stem h := by
    refine ⟨h.wellFormed.addFilter site stem, ?_⟩
    have new : (d.circuit.addFilter stem).1 = d.circuit.branches.size := by
      rw [Circuit.addFilter_eq]
    -- The new branch has the next number, and those before it have smaller ones.
    have old : ∀ x ∈ d.filters, x.2 ≠ (d.circuit.addFilter stem).1 := by
      intro x mem
      rw [new]
      exact Nat.ne_of_lt (h.wellFormed.filters x mem).1
    intro x memX y memY same
    rcases List.mem_cons.mp memX with rfl | memX
    · rcases List.mem_cons.mp memY with rfl | memY
      · rfl
      · exact absurd same.symm (old y memY)
    · rcases List.mem_cons.mp memY with rfl | memY
      · exact absurd same (old x memX)
      · exact h.apart x memX y memY same

namespace Resolve

open DesignM

variable {r : Resolver} {scope : ScopeId} {key : Nat} {d d₁ : Design} {p q : List Nat → Prop}
  {bs cs : List BranchId}

/-- Different branches, allotted to call sites of one expression whose paths satisfy `p`. -/
structure Sited (r : Resolver) (key : Nat) (d : Design) (p : List Nat → Prop) (bs : List BranchId) :
    Prop where
  single : ∀ b, bs.count b ≤ 1
  known : ∀ b ∈ bs, ∃ path, p path ∧ d.filters.lookup ⟨r.tag, key, path⟩ = some b

namespace Sited

theorem nil : Sited r key d p [] := ⟨fun _ => by simp, List.forall_mem_nil _⟩

theorem mono (h : Sited r key d p bs) (grown : d.Extends d₁) (imp : ∀ path, p path → q path)
    (fewer : ∀ b, cs.count b ≤ bs.count b) : Sited r key d₁ q cs where
  single b := (fewer b).trans (h.single b)
  known b mem := by
    have there : b ∈ bs :=
      List.count_pos_iff.mp (Nat.lt_of_lt_of_le (List.count_pos_iff.mpr mem) (fewer b))
    obtain ⟨path, holds, found⟩ := h.known b there
    exact ⟨path, imp path holds, grown.filters _ _ found⟩

theorem append (apart : d.FiltersApart) (first : Sited r key d p bs) (second : Sited r key d q cs)
    (disjoint : ∀ path, p path → ¬ q path) :
    Sited r key d (fun path => p path ∨ q path) (bs ++ cs) where
  single b := by
    rw [List.count_append]
    by_cases left : b ∈ bs
    · by_cases right : b ∈ cs
      · obtain ⟨path, holds, found⟩ := first.known b left
        obtain ⟨path', holds', found'⟩ := second.known b right
        have same := apart _ (mem_of_lookup found) _ (mem_of_lookup found') rfl
        cases same
        exact absurd holds' (disjoint path holds)
      · rw [List.count_eq_zero_of_not_mem right]
        exact first.single b
    · rw [List.count_eq_zero_of_not_mem left, Nat.zero_add]
      exact second.single b
  known b mem := by
    rcases List.mem_append.mp mem with left | right
    · obtain ⟨path, holds, found⟩ := first.known b left
      exact ⟨path, .inl holds, found⟩
    · obtain ⟨path, holds, found⟩ := second.known b right
      exact ⟨path, .inr holds, found⟩

end Sited

/-- The paths to tokens before the `k`-th one of a run, and to what is nested in them. -/
def Before (site : List Nat) (k : Nat) (path : List Nat) : Prop := ∃ j < k, (j :: site) <:+ path

theorem Before.mono {site : List Nat} {k l : Nat} (le : k ≤ l) {path : List Nat}
    (h : Before site k path) : Before site l path := by
  obtain ⟨j, less, tail⟩ := h
  exact ⟨j, Nat.lt_of_lt_of_le less le, tail⟩

theorem eq_of_suffixes {i j : Nat} {site path : List Nat} (first : (i :: site) <:+ path)
    (second : (j :: site) <:+ path) : i = j := by
  have same := List.suffix_or_suffix_of_suffix first second
  have equal : i :: site = j :: site := by
    rcases same with h | h
    · exact h.eq_of_length rfl
    · exact (h.eq_of_length rfl).symm
  exact (List.cons.inj equal).1

theorem not_before_self {site path : List Nat} {k : Nat} (h : Before site k path) :
    ¬ (k :: site) <:+ path := by
  intro later
  obtain ⟨j, less, tail⟩ := h
  have same := eq_of_suffixes tail later
  omega

theorem called_sited {site : List Nat} {k : Nat} {name : String} {args below : List Tree} {t : Tree}
    (allotted : d.Allotted) (run : call r scope ⟨r.tag, key, k :: site⟩ name args d = .ok t d₁)
    (h : Sited r key d (Before site k) (Tree.filtersAll args ++ Tree.filtersAll below)) :
    Sited r key d₁ (Before site (k + 1)) (t.filters ++ Tree.filtersAll below) := by
  have calm : r.config.filters name = true → True := fun _ => trivial
  have grown := (Design.upheld_extends.pervades.call r ⟨r.tag, key, k :: site⟩ calm args d).ok run
  have apart := ((Design.upheld_allotted.pervades.call r ⟨r.tag, key, k :: site⟩ calm args d).ok run
    allotted).apart
  have less : ∀ path, Before site k path → Before site (k + 1) path := fun _ =>
    .mono (Nat.le_succ k)
  cases called_of_call run with
  | value v => exact h.mono grown less fun b => by simp [Tree.ofValue, Tree.filters]
  | access known inside | given found role single asks | function found role values =>
    exact h.mono grown less fun b => by simp [Tree.filters]
  | filter found role values known =>
    rename_i b s
    have old := h.mono (q := Before site k) grown (fun _ => id) fun _ => Nat.le_refl _
    have new : Sited r key d₁ ((k :: site) <:+ ·) [b] := by
      refine ⟨fun a => (List.count_le_length).trans (Nat.le_of_eq rfl), ?_⟩
      intro a mem
      rw [List.mem_singleton.mp mem]
      exact ⟨k :: site, List.suffix_refl _, known⟩
    refine (old.append apart new fun _ => not_before_self).mono (.refl d₁) ?_ ?_
    · rintro path (before | here)
      · exact less path before
      · exact ⟨k, Nat.lt_succ_self k, here⟩
    · intro a
      simp only [Tree.filters, Option.toList_some, List.count_append, List.count_cons,
        List.count_nil]
      omega

structure Sites (r : Resolver) (key : Nat) (site : List Nat) (act : DesignM (Stack Tree)) :
    Prop where
  grows : ∀ d, Stays Design.Extends act d
  keeps : ∀ d, Stays (fun d e => d.Allotted → e.Allotted) act d
  sited : ∀ {stack d d₁}, d.Allotted → act d = .ok stack d₁ →
    Sited r key d₁ (site <:+ ·) (Tree.filtersAll stack.items)

theorem Sites.arm {site : List Nat} {act : DesignM (Stack Tree)} (h : Sites r key site act)
    {raw : Raw} {t : Tree} (allotted : d.Allotted) (run : (act >>= single raw) d = .ok t d₁) :
    d.Extends d₁ ∧ d₁.Allotted ∧ Sited r key d₁ (site <:+ ·) t.filters := by
  obtain ⟨stack, d', worked, rest⟩ := bind_eq_ok.mp run
  obtain ⟨items, _, rfl⟩ := single_eq_ok.mp rest
  have sited := h.sited allotted worked
  rw [items, Tree.filtersAll, Tree.filtersAll, List.append_nil] at sited
  exact ⟨(h.grows d).ok worked, (h.keeps d).ok worked allotted, sited⟩

theorem choice_sited {site : List Nat} {k : Nat} {c t : Tree} {thn els : Raw} {below : List Tree}
    {first second : DesignM (Stack Tree)} (one : Sites r key (0 :: k :: site) first)
    (two : Sites r key (1 :: k :: site) second) (allotted : d.Allotted)
    (run : choice r c thn els first second d = .ok t d₁)
    (h : Sited r key d (Before site k) (c.filters ++ Tree.filtersAll below)) :
    Sited r key d₁ (Before site (k + 1)) (t.filters ++ Tree.filtersAll below) := by
  have inner {i : Nat} {path : List Nat} (tail : (i :: k :: site) <:+ path) :
    (k :: site) <:+ path :=
    (List.suffix_cons i (k :: site)).trans tail
  have later {i : Nat} : ∀ path, Before site k path → ¬ (i :: k :: site) <:+ path :=
    fun path before tail => not_before_self before (inner tail)
  have all {i : Nat} : ∀ path, Before site k path ∨ (i :: k :: site) <:+ path →
      Before site (k + 1) path := by
    rintro path (before | tail)
    · exact before.mono (Nat.le_succ k)
    · exact ⟨k, Nat.lt_succ_self k, inner tail⟩
  -- One arm alone: the condition was a literal.
  have chosen {i : Nat} {u : Tree} (grown : d.Extends d₁) (kept : d₁.Allotted)
      (arm : Sited r key d₁ ((i :: k :: site) <:+ ·) u.filters) :
      Sited r key d₁ (Before site (k + 1)) (u.filters ++ Tree.filtersAll below) := by
    have old : Sited r key d₁ (Before site k) (Tree.filtersAll below) :=
      h.mono grown (fun _ => id) fun b => by
      rw [List.count_append]
      omega
    refine (old.append kept.apart arm later).mono (.refl d₁) all fun b => ?_
    simp only [List.count_append]
    omega
  obtain ⟨_, ⟨_, arm⟩ | ⟨_, arm⟩ | ⟨_, u, v, d', thnRun, elsRun, rfl⟩⟩ := choice_of_ok run
  · obtain ⟨grown, kept, arm⟩ := one.arm allotted arm
    exact chosen grown kept arm
  · obtain ⟨grown, kept, arm⟩ := two.arm allotted arm
    exact chosen grown kept arm
  · obtain ⟨grown, kept, left⟩ := one.arm allotted thnRun
    obtain ⟨grown', kept', right⟩ := two.arm kept elsRun
    have old := h.mono (q := Before site k) (grown.trans grown') (fun _ => id) fun _
      => Nat.le_refl _
    have arms := (left.mono grown' (fun _ => id) fun _ => Nat.le_refl _).append kept'.apart right
      fun path first second => Nat.zero_ne_one (eq_of_suffixes first second)
    refine (old.append kept'.apart arms ?_).mono (.refl _) ?_ ?_
    · rintro path before (tail | tail)
      · exact later path before tail
      · exact later path before tail
    · rintro path (before | tail | tail)
      · exact before.mono (Nat.le_succ k)
      · exact all path (.inr tail)
      · exact all path (.inr tail)
    · intro b
      simp only [Tree.filters, List.count_append]
      omega

theorem stepped_sited {site : List Nat} {k : Nat} {stack stack₁ : Stack Tree} {t : Token}
    (allotted : d.Allotted) (arms : ∀ thn els, t = .ternary thn els →
      Sites r key (0 :: k :: site) (steps r scope key (0 :: k :: site) 0 .empty thn) ∧
      Sites r key (1 :: k :: site) (steps r scope key (1 :: k :: site) 0 .empty els))
    (run : step r scope key (k :: site) stack t d = .ok stack₁ d₁)
    (h : Sited r key d (Before site k) (Tree.filtersAll stack.items)) :
    Sited r key d₁ (Before site (k + 1)) (Tree.filtersAll stack₁.items) := by
  have less : ∀ path, Before site k path → Before site (k + 1) path := fun _ =>
    .mono (Nat.le_succ k)
  obtain ⟨items⟩ := stack
  obtain ⟨items₁⟩ := stack₁
  cases stepped_of_step run with
  | literal =>
    exact h.mono (.refl d) less fun b => by simp [Tree.filtersAll, Tree.ofValue, Tree.filters]
  | marker => exact h.mono (.refl d) less fun b => by simp [Tree.filtersAll, Tree.filters]
  | arguments popped =>
    exact h.mono (.refl d) less fun b => Nat.le_of_eq (Tree.count_filters_popped popped b)
  | called made => exact called_sited allotted made h
  | named plain =>
    rename_i name
    have none := Tree.filters_of_no_uses (uses_identifier d scope name)
    exact h.mono (.refl d) less fun b => by rw [Tree.filtersAll, none, List.nil_append]
  | unary made =>
    rename_i op x t below
    have grown := (Design.upheld_extends.pervades.unary r op x d).ok made
    refine h.mono grown less fun b => Nat.le_of_eq ?_
    obtain ⟨_, _, rfl⟩ := (unary_ensures r d op x).of_ok made
    cases r.config.simplify with
    | true => simp only [↓reduceIte, Tree.filtersAll, Tree.filters_unary]
    | false => rfl
  | binary made =>
    rename_i op x y t below
    have grown := (Design.upheld_extends.pervades.binary r op x y d).ok made
    refine h.mono grown less fun b => ?_
    have fewer : t.filters.count b ≤ x.filters.count b + y.filters.count b := by
      obtain ⟨_, _, result⟩ := (binary_ensures r d op x y).of_ok made
      split at result
      · rw [result]
        exact Tree.count_filters_binary op x y b
      · rw [result.2]
        exact Nat.le_of_eq (List.count_append ..)
    simp only [Tree.filtersAll, List.count_append]
    omega
  | ternary made =>
    rename_i thn els c t below
    exact choice_sited (arms thn els rfl).1 (arms thn els rfl).2 allotted made h

theorem sites_of_run {site : List Nat} {ts : List Token}
    (sited : ∀ {stack₁ d d₁}, d.Allotted → steps r scope key site 0 .empty ts d = .ok stack₁ d₁ →
      Sited r key d₁ (Before site (0 + ts.length)) (Tree.filtersAll stack₁.items)) :
    Sites r key site (steps r scope key site 0 .empty ts) where
  grows := Design.upheld_extends.pervades.steps r scope key site 0 .empty ts fun _ _ _ _ => trivial
  keeps := Design.upheld_allotted.pervades.steps r scope key site 0 .empty ts fun _ _ _ _ => trivial
  sited allotted run := by
    refine (sited allotted run).mono (.refl _) ?_ fun _ => Nat.le_refl _
    rintro path ⟨j, _, tail⟩
    exact (List.suffix_cons j site).trans tail

mutual

theorem step_sited (site : List Nat) (k : Nat) (stack : Stack Tree) (t : Token)
    {stack₁ : Stack Tree} {d d₁ : Design} (allotted : d.Allotted)
    (run : step r scope key (k :: site) stack t d = .ok stack₁ d₁)
    (h : Sited r key d (Before site k) (Tree.filtersAll stack.items)) :
    Sited r key d₁ (Before site (k + 1)) (Tree.filtersAll stack₁.items) := by
  refine stepped_sited allotted ?_ run h
  cases t with
  | ternary thn els =>
    rintro _ _ ⟨⟩
    exact ⟨sites_of_run fun kept worked => steps_sited (0 :: k :: site) 0 .empty thn
      kept worked .nil,
      sites_of_run fun kept worked => steps_sited (1 :: k :: site) 0 .empty els kept worked .nil⟩
  | _ => rintro _ _ ⟨⟩

theorem steps_sited (site : List Nat) (k : Nat) (stack : Stack Tree) (ts : List Token)
    {stack₁ : Stack Tree} {d d₁ : Design} (allotted : d.Allotted)
    (run : steps r scope key site k stack ts d = .ok stack₁ d₁)
    (h : Sited r key d (Before site k) (Tree.filtersAll stack.items)) :
    Sited r key d₁ (Before site (k + ts.length)) (Tree.filtersAll stack₁.items) := by
  cases ts with
  | nil =>
    rw [steps] at run
    cases run
    exact h
  | cons t ts =>
    rw [steps] at run
    obtain ⟨stack', d', first, rest⟩ := bind_eq_ok.mp run
    have kept := (Design.upheld_allotted.pervades.step r scope key (k :: site) stack t
      (fun _ _ _ _ => trivial) d).ok
      first allotted
    have sited := steps_sited site (k + 1) stack' ts kept rest
      (step_sited site k stack t allotted first h)
    rw [List.length_cons, Nat.add_comm ts.length, ← Nat.add_assoc]
    exact sited

end

end Resolve

namespace Source

variable {r : Resolver} {s : Source} {scope : ScopeId} {d : Design}

theorem resolve_allotted (allotted : d.Allotted) :
    DesignM.Stays (fun _ e => e.Allotted) (s.resolve r scope) d := by
  have stays := resolve_stays Design.upheld_allotted (r := r) (s := s)
    (fun _ _ _ _ => trivial) scope d
  exact Meets.mono stays (fun _ _ h => h allotted) fun _ _ h => h allotted

theorem resolve_sited (allotted : d.Allotted) {t : Tree} {d₁ : Design}
    (run : s.resolve r scope d = .ok t d₁) :
    t.filters.Nodup ∧ ∀ b ∈ t.filters, ∃ path, d₁.filters.lookup ⟨r.tag, s.key, path⟩ = some b := by
  have sites : Resolve.Sites r s.key [] (Resolve.steps r scope s.key [] 0 .empty s.raw) :=
    Resolve.sites_of_run fun kept worked => Resolve.steps_sited [] 0 .empty s.raw kept worked .nil
  obtain ⟨_, _, sited⟩ := sites.arm allotted run
  refine ⟨List.nodup_iff_count_le_one.mpr sited.single, fun b mem => ?_⟩
  obtain ⟨path, _, found⟩ := sited.known b mem
  exact ⟨path, found⟩

end Source
end Analog
