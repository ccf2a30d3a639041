import Analog.Proofs.Resolver.PrintedRoundTrip
import Analog.Proofs.Resolver.SimplifiedValue
import Analog.Proofs.Tree.Constancy

/-!
Simplification sharpens summaries. An operation that is simplified mentions no more than the
operation as it is written, and has an offset only where that has one. This rests on integers: a
product of integers is not zero only if no factor is, also where it wraps around. So a tree that was
simplified tells more precisely what it depends on, whatever arms of choices it leaves out.
-/
namespace Analog

def Mention.Agrees (same : Probe → Probe → Prop) : Mention → Mention → Prop
  | .probe q, .probe q' => same q q'
  | .variable v, .variable v' => v = v'
  | _, _ => False

theorem Mention.agrees_eq {x y : Mention} : x.Agrees Eq y ↔ x = y := by
  cases x <;> cases y <;> simp [Agrees]

theorem Mention.Agrees.mono {same same' : Probe → Probe → Prop}
    (le : ∀ {q q'}, same q q' → same' q q')
    {x y : Mention} (h : x.Agrees same y) : x.Agrees same' y := by
  cases x <;> cases y <;> first | exact le h | exact h

namespace Summary

/-- `s'` mentions no more than `s`, and has no offset unless `s` has one. -/
structure Sharper (same : Probe → Probe → Prop) (s s' : Summary) : Prop where
  mentions : ∀ x', s'.Mentions x' → ∃ x, s.Mentions x ∧ x.Agrees same x'
  offset : s'.offset = true → s.offset = true

section Operations

variable {same : Probe → Probe → Prop} {a b c a' b' c' s s' s'' : Summary}

theorem Sharper.ofEq (mentions : ∀ x, s'.Mentions x → s.Mentions x)
    (offset : s'.offset = true → s.offset = true) :
    Sharper Eq s s' := ⟨fun x known => ⟨x, mentions x known, Mention.agrees_eq.mpr rfl⟩, offset⟩

theorem Sharper.keeps (h : Sharper Eq s s') {x : Mention} (known : s'.Mentions x) :
    s.Mentions x := by
  obtain ⟨y, there, one⟩ := h.mentions x known
  rwa [Mention.agrees_eq.mp one] at there

theorem Sharper.refl (s : Summary) : Sharper Eq s s := .ofEq (fun _ => id) id

theorem Sharper.trans (h : Sharper same s s') (h' : Sharper Eq s' s'') : Sharper same s s'' :=
  ⟨fun x known => h.mentions x (h'.keeps known), fun offset => h.offset (h'.offset offset)⟩

theorem Sharper.mono {same' : Probe → Probe → Prop} (le : ∀ {q q'}, same q q' → same' q q')
    (h : Sharper same s s') : Sharper same' s s' := by
  refine ⟨fun x known => ?_, h.offset⟩
  obtain ⟨y, there, one⟩ := h.mentions x known
  exact ⟨y, there, one.mono le⟩

theorem sharper_fixed (s : Summary) : Sharper same s (fixed false) :=
  ⟨fun _ known => absurd known (mentions_fixed false), fun offset => by cases offset⟩

theorem offset_combine_iff {ss : List Summary} :
    (combine ss).offset = true ↔ ∃ s ∈ ss, s.offset = true := by
  have folded : ∀ (flags : List Bool) (start : Bool),
      flags.foldl (· || ·) start = true ↔ start = true ∨ ∃ f ∈ flags, f = true := by
    intro flags
    induction flags with
    | nil => simp
    | cons f flags ih =>
      intro start
      rw [List.foldl_cons, ih, Bool.or_eq_true, List.exists_mem_cons_iff, or_assoc]
  rw [offset_combine, folded]
  simp

theorem mentions_of_forall₂ {ss ss' : List Summary} (each : List.Forall₂ (Sharper same) ss ss')
    {x' : Mention}
    (known : ∃ s' ∈ ss', s'.Mentions x') : ∃ x, (∃ s ∈ ss, s.Mentions x) ∧ x.Agrees same x' := by
  induction each with
  | nil =>
    obtain ⟨_, none, -⟩ := known
    cases none
  | cons head _ ih =>
    obtain ⟨s', mem, there⟩ := known
    rcases List.mem_cons.mp mem with rfl | later
    · obtain ⟨x, here, one⟩ := head.mentions x' there
      exact ⟨x, ⟨_, List.mem_cons_self, here⟩, one⟩
    · obtain ⟨x, ⟨s, mem, here⟩, one⟩ := ih ⟨s', later, there⟩
      exact ⟨x, ⟨s, List.mem_cons_of_mem _ mem, here⟩, one⟩

theorem sharper_combine {ss ss' : List Summary} (each : List.Forall₂ (Sharper same) ss ss') :
    Sharper same (combine ss) (combine ss') := by
  refine ⟨fun x known => ?_, fun offset => ?_⟩
  · simp only [mentions_combine] at known ⊢
    exact mentions_of_forall₂ each known
  · rw [offset_combine_iff] at offset ⊢
    induction each with
    | nil => simp at offset
    | cons head _ ih =>
      rw [List.exists_mem_cons_iff] at offset ⊢
      exact offset.imp head.offset ih

theorem sharper_uniform (o : Order) {ss ss' : List Summary}
    (each : List.Forall₂ (Sharper same) ss ss') : Sharper same (uniform o ss) (uniform o ss') := by
  refine ⟨fun x known => ?_, fun _ => offset_uniform o ss⟩
  simp only [mentions_uniform] at known ⊢
  exact mentions_of_forall₂ each known

theorem sharper_select (cond : Sharper same c c') (thn : Sharper same a a')
    (els : Sharper same b b') : Sharper same (select c a b) (select c' a' b') := by
  refine ⟨fun x known => ?_, fun offset => ?_⟩
  · simp only [mentions_select] at known ⊢
    rcases known with known | known | known
    · exact (cond.mentions x known).imp fun y here => ⟨.inl here.1, here.2⟩
    · exact (thn.mentions x known).imp fun y here => ⟨.inr (.inl here.1), here.2⟩
    · exact (els.mentions x known).imp fun y here => ⟨.inr (.inr here.1), here.2⟩
  · have either : a'.offset = true ∨ b'.offset = true := Bool.or_eq_true _ _ ▸ offset
    exact Bool.or_eq_true _ _ ▸ either.imp thn.offset els.offset

theorem sharper_arm (c : Summary) (arm : Sharper same a s') (b : Summary) :
    Sharper same (select c a b) s' ∧ Sharper same (select c b a) s' := by
  have offset {left right : Summary} (either : left.offset = true ∨ right.offset = true) :
      (select c left right).offset = true := Bool.or_eq_true _ _ ▸ either
  refine ⟨⟨fun x known => ?_, fun known => offset (.inl (arm.offset known))⟩,
    fun x known => ?_, fun known => offset (.inr (arm.offset known))⟩
  · exact (arm.mentions x known).imp fun y here =>
      ⟨mentions_select.mpr (.inr (.inl here.1)), here.2⟩
  · exact (arm.mentions x known).imp fun y here =>
      ⟨mentions_select.mpr (.inr (.inr here.1)), here.2⟩

theorem sharper_ofUnary (op : UnaryOp) (only : Sharper same a a') :
    Sharper same (ofUnary op a) (ofUnary op a') := by
  cases op with
  | neg => exact sharper_combine (.cons only .nil)
  | not => exact sharper_uniform .none (.cons only .nil)

theorem offset_ofBinary (op : BinaryOp) (a b : Summary) : (ofBinary op a b).offset =
    match op with
    | .add | .sub => a.offset || b.offset
    | .mul => a.offset && b.offset
    | .div => a.offset
    | _ => true := by
  cases op <;> rfl

theorem sharper_ofBinary (op : BinaryOp) (left : Sharper same a a') (right : Sharper same b b') :
    Sharper same (ofBinary op a b) (ofBinary op a' b') := by
  refine ⟨fun x known => ?_, fun offset => ?_⟩
  · simp only [mentions_ofBinary] at known ⊢
    rcases known with known | known
    · exact (left.mentions x known).imp fun y here => ⟨.inl here.1, here.2⟩
    · exact (right.mentions x known).imp fun y here => ⟨.inr here.1, here.2⟩
  · rw [offset_ofBinary] at offset ⊢
    have := left.offset
    have := right.offset
    cases op <;> simp_all <;> tauto

theorem sharper_ofFilter {f f' : BranchId} (one : same ⟨f, .potential⟩ ⟨f', .potential⟩)
    {ss ss' : List Summary} (each : List.Forall₂ (Sharper same) ss ss') :
    Sharper same (ofFilter f ss) (ofFilter f' ss') := by
  refine ⟨fun x known => ?_, fun offset => by cases offset⟩
  simp only [mentions_ofFilter] at known ⊢
  rcases known with rfl | known
  · exact ⟨.probe ⟨f, .potential⟩, .inl rfl, one⟩
  · exact (mentions_of_forall₂ each known).imp fun y here => ⟨.inr here.1, here.2⟩

end Operations
end Summary

/-- An operator under which integers stay integers. -/
def BinaryOp.isWhole (op : BinaryOp) : Bool := op.isAdditive || op == .mul || op.isLogical

def Tree.Integral : Tree → Prop
  | .literal v _ => ∃ n, v = .int n
  | .unary _ x _ => x.Integral
  | .binary _ l r _ => l.Integral ∧ r.Integral
  | _ => True

namespace Integer

theorem binary?_of_isWhole {op : BinaryOp} (whole : op.isWhole = true) (l r : Int64) :
    ∃ n, binary? op l r = some n := by
  cases op with
  | div | mod | pow => cases whole
  | _ => exact ⟨_, rfl⟩

end Integer

namespace Simplify

open Summary

/-- Only operands that are not zero lead to something that is not, as far as a summary tells. -/
theorem offset_of_folded {op : BinaryOp} {l r n : Int64} (folded : Integer.binary? op l r = some n)
    (whole : op.isWhole = true) (nonzero : n ≠ 0) :
    (ofBinary op (fixed (l != 0)) (fixed (r != 0))).offset = true := by
  rw [offset_ofBinary]
  cases op with
  | add =>
    by_contra zero
    obtain ⟨rfl, rfl⟩ : l = 0 ∧ r = 0 := by simpa [fixed, plain] using zero
    cases folded
    exact nonzero rfl
  | sub =>
    by_contra zero
    obtain ⟨rfl, rfl⟩ : l = 0 ∧ r = 0 := by simpa [fixed, plain] using zero
    cases folded
    exact nonzero rfl
  | mul =>
    simp only [Integer.binary?, Int64.ofInt_mul, Int64.ofInt_toInt, Option.some.injEq] at folded
    have left : l ≠ 0 := by
      rintro rfl
      exact nonzero (folded.symm.trans Int64.zero_mul)
    have right : r ≠ 0 := by
      rintro rfl
      exact nonzero (folded.symm.trans Int64.mul_zero)
    simp [fixed, plain, left, right]
  | div | mod | pow => cases whole
  | _ => rfl

theorem fold_whole {op : BinaryOp} (whole : op.isWhole = true) (l r : Int64) :
    ∃ n, Integer.binary? op l r = some n ∧ Value.fold op (.int l) (.int r) = .ok (.int n) := by
  obtain ⟨n, folded⟩ := Integer.binary?_of_isWhole whole l r
  exact ⟨n, folded, Integer.fold_int folded⟩

theorem sharper_folded {op : BinaryOp} {l r n : Int64} (folded : Integer.binary? op l r = some n)
    (whole : op.isWhole = true) :
    Sharper Eq (ofBinary op (fixed (l != 0)) (fixed (r != 0))) (fixed (n != 0)) :=
  .ofEq (fun _ known => absurd known (mentions_fixed _)) fun offset =>
    offset_of_folded folded whole (by simpa [fixed, plain] using offset)

theorem sharper_identity? {op : BinaryOp} {x : Tree} {k : Int64} {o : Option Symbol}
    {t : Simplified} (found : identity? op x (.int k) o = some t) :
    Sharper Eq (ofBinary op x.summary (fixed (k != 0))) t.tree.summary := by
  unfold identity? at found
  split at found
  · rename_i zero
    simp only [Value.isZero, Bool.and_eq_true, beq_iff_eq] at zero
    obtain ⟨-, rfl⟩ := zero
    cases found
    exact sharper_fixed _
  split at found
  · cases found
    exact sharper_fixed _
  split at found
  · rename_i one
    simp only [BinaryOp.isMultiplicative, Bool.and_eq_true, Bool.or_eq_true, beq_iff_eq,
      Value.isOne] at one
    obtain ⟨kind, rfl⟩ := one
    cases found
    refine .ofEq (fun y known => (mentions_ofBinary op).mpr (.inl known)) fun offset => ?_
    rw [offset_ofBinary]
    rcases kind with rfl | rfl
    · exact Bool.and_eq_true _ _ ▸ ⟨offset, rfl⟩
    · exact offset
  split at found
  · rename_i sum
    simp only [BinaryOp.isAdditive, Bool.and_eq_true, Bool.or_eq_true, beq_iff_eq] at sum
    cases found
    refine .ofEq (fun y known => (mentions_ofBinary op).mpr (.inl known)) fun offset => ?_
    rw [offset_ofBinary]
    rcases sum.1 with rfl | rfl
    · exact Bool.or_eq_true _ _ ▸ .inl offset
    · exact Bool.or_eq_true _ _ ▸ .inl offset
  · cases found

theorem integral_identity? {op : BinaryOp} {x : Tree} {k : Int64} {o : Option Symbol}
    {t : Simplified}
    (found : identity? op x (.int k) o = some t) (integral : x.Integral) : t.tree.Integral := by
  unfold identity? at found
  split at found
  · cases found
    exact ⟨k, rfl⟩
  split at found
  · cases found
    exact ⟨0, rfl⟩
  split at found
  · cases found
    exact integral
  split at found
  · cases found
    exact integral
  · cases found

theorem isWhole_of_gather? {outer inner joint : BinaryOp} {k₁ k₂ : Int64}
    (found : gather? outer inner (.int k₁) (.int k₂) = some joint) : joint.isWhole = true := by
  unfold gather? at found
  split at found
  · cases found
    split <;> rfl
  split at found
  · rename_i multiplicative
    simp only [BinaryOp.isMultiplicative, Bool.and_eq_true, Bool.or_eq_true, beq_iff_eq]
      at multiplicative
    obtain ⟨rfl | rfl, rfl | rfl⟩ := multiplicative <;> cases found
    rfl
  · cases found

theorem sharper_gathered {outer inner joint : BinaryOp} {k₁ k₂ k : Int64} (s : Summary)
    (found : gather? outer inner (.int k₁) (.int k₂) = some joint)
    (folded : Integer.binary? joint k₁ k₂ = some k) :
    inner.isWhole = true ∧
      Sharper Eq (ofBinary outer (ofBinary inner s (fixed (k₁ != 0))) (fixed (k₂ != 0)))
      (ofBinary inner s (fixed (k != 0))) := by
  have quiet {flag : Bool} {x : Mention} (known : s.Mentions x ∨ (fixed flag).Mentions x) :
    s.Mentions x :=
    known.resolve_right (mentions_fixed flag)
  have mentions (x : Mention) (known : (ofBinary inner s (fixed (k != 0))).Mentions x) :
      (ofBinary outer (ofBinary inner s (fixed (k₁ != 0))) (fixed (k₂ != 0))).Mentions x := by
    rw [mentions_ofBinary] at known
    rw [mentions_ofBinary, mentions_ofBinary]
    exact .inl (.inl (quiet known))
  unfold gather? at found
  split at found
  · rename_i additive
    simp only [BinaryOp.isAdditive, Bool.and_eq_true, Bool.or_eq_true, beq_iff_eq] at additive
    refine ⟨by obtain ⟨-, rfl | rfl⟩ := additive <;> rfl, .ofEq mentions fun offset => ?_⟩
    have joined : joint = .add ∨ joint = .sub := by
      cases found
      split
      · exact .inl rfl
      · exact .inr rfl
    have part (nonzero : k ≠ 0) : k₁ ≠ 0 ∨ k₂ ≠ 0 := by
      by_contra zero
      obtain ⟨rfl, rfl⟩ : k₁ = 0 ∧ k₂ = 0 := by simpa using zero
      rcases joined with rfl | rfl <;> cases folded <;> exact nonzero rfl
    obtain ⟨rfl | rfl, rfl | rfl⟩ := additive
    all_goals
      simp only [offset_ofBinary, Bool.or_eq_true, fixed, plain, bne_iff_ne] at offset ⊢
      rcases offset with offset | nonzero
      · exact .inl (.inl offset)
      · exact (part nonzero).elim (fun first => .inl (.inr first)) .inr
  split at found
  · rename_i multiplicative
    simp only [BinaryOp.isMultiplicative, Bool.and_eq_true, Bool.or_eq_true, beq_iff_eq]
      at multiplicative
    obtain ⟨rfl | rfl, rfl | rfl⟩ := multiplicative
    · cases found
      refine ⟨rfl, .ofEq mentions fun offset => ?_⟩
      simp only [offset_ofBinary, Bool.and_eq_true] at offset ⊢
      have joint : Integer.binary? .mul k₁ k₂ = some k := folded
      have both := offset_of_folded joint rfl (by simpa [fixed, plain] using offset.2)
      simp only [offset_ofBinary, Bool.and_eq_true] at both
      exact ⟨⟨offset.1, both.1⟩, both.2⟩
    -- A quotient is never gathered between integers.
    · cases found
    · cases found
    · cases found
  · cases found

variable {read : VariableId → Summary} {nodes : Nat}

theorem sharper_rightLiteral (op : BinaryOp) (x : Tree) (v : Value) (o : Option Symbol)
    (whole : op.isWhole = true) (integral : x.Integral) (built : x.Built read nodes) {k : Int64}
    (int : v = .int k) :
    Sharper Eq (ofBinary op x.summary (fixed (k != 0))) (rightLiteral op x v o).tree.summary ∧
      (rightLiteral op x v o).tree.Integral := by
  fun_induction rightLiteral op x v o generalizing k with
  | case1 op c o v p =>
    obtain ⟨n, rfl⟩ := integral
    cases int
    obtain ⟨m, folded, same⟩ := fold_whole whole n k
    rw [literals, same]
    exact ⟨sharper_folded folded whole, m, rfl⟩
  | case2 op c o inner y c₁ o₁ s outer t found =>
    cases int
    exact ⟨sharper_identity? found, integral_identity? found integral⟩
  | case3 | case5 =>
    cases int
    exact ⟨.refl _, integral, k, rfl⟩
  | case4 op c o inner y c₁ o₁ s outer _ joint gathered folded fold ih =>
    cases int
    obtain ⟨left, k₁, rfl⟩ := integral
    obtain ⟨inside, -, rfl⟩ := built
    obtain ⟨n, joined, same⟩ := fold_whole (isWhole_of_gather? gathered) k₁ k
    cases same.symm.trans fold
    obtain ⟨inner, sharper⟩ := sharper_gathered y.summary gathered joined
    obtain ⟨more, integral⟩ := ih inner left inside rfl
    exact ⟨sharper.trans more, integral⟩
  | case6 op c o x =>
    cases int
    cases found : identity? op x (.int k) o with
    | none => exact ⟨.refl _, integral, k, rfl⟩
    | some t => exact ⟨sharper_identity? found, integral_identity? found integral⟩

theorem sharper_swapped {op : BinaryOp} (free : op.isCommutative = true) (a b : Summary) :
    Sharper Eq (ofBinary op a b) (ofBinary op b a) := by
  refine .ofEq (fun x known => ?_) fun offset => ?_
  · exact (mentions_ofBinary op).mpr ((mentions_ofBinary op).mp known).symm
  · rw [offset_ofBinary] at offset ⊢
    cases op with
    | add => exact (Bool.or_comm _ _).trans offset
    | mul => exact (Bool.and_comm _ _).trans offset
    | sub | div => cases free
    | _ => rfl

theorem sharper_binary {op : BinaryOp} (whole : op.isWhole = true) {l r : Tree} (left : l.Integral)
    (right : r.Integral) (leftBuilt : l.Built read nodes) (rightBuilt : r.Built read nodes) :
    Sharper Eq (ofBinary op l.summary r.summary) (binary op l r).tree.summary ∧
    (binary op l r).tree.Integral := by
  unfold binary
  split
  · obtain ⟨k, rfl⟩ := right
    exact sharper_rightLiteral op l _ _ whole left leftBuilt rfl
  · obtain ⟨k, rfl⟩ := left
    split
    · rename_i free
      obtain ⟨sharper, integral⟩ := sharper_rightLiteral op r (.int k) _ whole right rightBuilt rfl
      exact ⟨(sharper_swapped free _ _).trans sharper, integral⟩
    · exact ⟨.refl _, ⟨k, rfl⟩, right⟩
  · exact ⟨.refl _, left, right⟩

theorem sharper_unary (op : UnaryOp) {x : Tree} (integral : x.Integral)
    (built : x.Built read nodes) :
    Sharper Eq (ofUnary op x.summary) (unary op x).summary ∧ (unary op x).Integral := by
  unfold unary
  split
  · obtain ⟨n, rfl⟩ := integral
    simp only [Integer.foldUnary_int]
    refine ⟨.ofEq (fun _ known => absurd known (mentions_fixed _)) fun offset => ?_, _, rfl⟩
    cases op with
    | not => rfl
    | neg =>
      by_contra zero
      obtain rfl : n = 0 := by
        simpa [ofUnary, Tree.summary, offset_combine_iff, fixed, plain, Value.isZero] using zero
      cases offset
  · obtain ⟨-, rfl⟩ := built
    refine ⟨.ofEq (fun _ known => ?_) fun offset => ?_, integral⟩
    · exact (mentions_ofUnary .neg).mpr ((mentions_ofUnary .neg).mpr known)
    · simp only [Tree.summary, ofUnary, offset_combine_iff, List.mem_singleton, exists_eq_left]
      exact offset
  · exact ⟨.refl _, integral⟩

end Simplify

mutual

/-- A token that leads to integers only, and calls no mathematical function. A name is `applied` if
it follows an argument list. -/
def Token.whole (config : Config) (applied : Bool) : Token → Bool
  | .literal v => v.integer?.isSome
  | .identifier name => !applied || (config.access? name).isSome ||
    !(Function.find? name).any Function.isMathematical
  | .binary op => op.isWhole
  | .ternary thn els => wholeAll config false thn && wholeAll config false els
  | _ => true

def Token.wholeAll (config : Config) (applied : Bool) : List Token → Bool
  | [] => true
  | t :: ts => t.whole config applied && wholeAll config t.isArguments ts

end

/-- Probes that are the same in what has become of `origin` in two ways. A probe that `origin` knows
is itself. Two nodes of it have one branch between them, and a call site has one filter. -/
inductive SameProbe (origin d e : Design) : Probe → Probe → Prop
  | known {q : Probe} (known : q.branch < origin.circuit.branches.size ∨
      ∃ v, (origin.snapshot v).dependsOn q = true) : SameProbe origin d e q q
  | between {p n : NodeId} {ref ref' : BranchRef} (a : Access)
    (left : p < origin.circuit.nodes.size)
    (right : n < origin.circuit.nodes.size) (found : d.circuit.between? p n = some ref)
    (found' : e.circuit.between? p n = some ref') : SameProbe origin d e ⟨ref.branch, a⟩
      ⟨ref'.branch, a⟩
  | filter {site : CallSite} {b b' : BranchId} (found : d.filters.lookup site = some b)
    (found' : e.filters.lookup site = some b') : SameProbe origin d e ⟨b, .potential⟩
      ⟨b', .potential⟩

theorem SameProbe.mono {origin d e d₁ e₁ : Design} (onward : origin.Extends d)
    (onward' : origin.Extends e)
    (grown : d.Extends d₁) (grown' : e.Extends e₁) {q q' : Probe} (h : SameProbe origin d e q q') :
    SameProbe origin d₁ e₁ q q' := by
  cases h with
  | known known => exact .known known
  | between a left right found found' =>
    have inside {f : Design} (ext : origin.Extends f) {i : NodeId}
        (lt : i < origin.circuit.nodes.size) :
        i < f.circuit.nodes.size := Nat.lt_of_lt_of_le lt ext.circuit.nodes
    exact .between a left right
      (grown.circuit.found _ _ _ (inside onward left) (inside onward right) found)
      (grown'.circuit.found _ _ _ (inside onward' left) (inside onward' right) found')
  | filter found found' => exact .filter (grown.filters _ _ found) (grown'.filters _ _ found')

structure Tree.Sharpens (origin d e : Design) (t t' : Tree) : Prop where
  plain : t.IsValue
  scalar : t'.Scalar
  integral : t'.Integral
  asked : ∀ p, Resolve.asked [t] = some p → t' = t
  sharper : Summary.Sharper (SameProbe origin d e) t.summary t'.summary

theorem Tree.Sharpens.silent {origin d e : Design} {t t' : Tree} (plain : t.IsValue)
    (silent : Resolve.asked [t] = none) (scalar : t'.Scalar) (integral : t'.Integral)
    (sharper : Summary.Sharper (SameProbe origin d e) t.summary t'.summary) :
    Tree.Sharpens origin d e t t' := by
  refine ⟨plain, scalar, integral, fun p asks => ?_, sharper⟩
  rw [silent] at asks
  cases asks

namespace Resolve

variable {r : Resolver} {scope : ScopeId} {origin d d₁ e : Design}

theorem SameBranch.probe (wf : origin.WellFormed) {ref ref' : BranchRef}
    (h : SameBranch origin d e ref ref')
    (onward : origin.Extends d) (onward' : origin.Extends e) (a : Access) :
    SameProbe origin d e (d.circuit.probe ref.branch a) (e.circuit.probe ref'.branch a) := by
  cases h with
  | named found =>
    have inside := Circuit.lookup?_lt found
    rw [Circuit.probe, Circuit.probe, Circuit.base_remains onward.circuit.toRemains inside,
      Circuit.base_remains onward'.circuit.toRemains inside]
    exact .known (.inl (wf.circuit.base_lt inside))
  | between left right found found' =>
    have own {c : Circuit} {f : BranchRef} {p n : NodeId} (found : c.between? p n = some f) :
        c.probe f.branch a = ⟨f.branch, a⟩ := by
      have base : (c.branch f.branch).base = none := by
        simpa [Branch.isAlias] using (Circuit.joins_of_between? found).own
      simp [Circuit.probe, Circuit.base, base]
    rw [own found, own found']
    exact .between a left right found found'

theorem access_sharpens {rel : Tree → Tree → Prop} {function : String} {a : Access}
    {args args' : List Tree}
    {t : Tree} (wf : origin.WellFormed) (onward : origin.Extends d) (onward' : origin.Extends e)
    (items : List.Forall₂ (Tree.Paired origin.circuit.nodes.size rel) args args')
    (run : access function a args d = .ok t d₁) :
    ∃ t' e₁, access function a args' e = .ok t' e₁ ∧ Tree.Sharpens origin d₁ e₁ t t' := by
  obtain ⟨ref, d', named, rest⟩ := bind_eq_ok.mp run
  cases rest
  obtain ⟨ref', e', named', same⟩ := branch_same wf onward onward' items named
  have toward := onward.trans (extends_of_branch named)
  have toward' := onward'.trans (extends_of_branch named')
  have one := (same.probe wf toward toward' a).mono toward toward'
    (Design.extends_uncounted (Circuit.uncounted_take d'.circuit ref.branch a.probe))
    (Design.extends_uncounted (Circuit.uncounted_take e'.circuit ref'.branch a.probe))
  refine ⟨_, _, bind_eq_ok.mpr ⟨ref', e', named', rfl⟩,
    .silent (fun _ => rfl) rfl trivial trivial ?_⟩
  refine ⟨fun x known => ?_, fun offset => by cases offset⟩
  rw [Summary.mentions_ofProbe.mp known]
  exact ⟨_, Summary.mentions_ofProbe.mpr rfl, one⟩

theorem sharper_summaries {nodes : Nat} {args args' : List Tree}
    (items : List.Forall₂ (Tree.Paired nodes (Tree.Sharpens origin d e)) args args')
    (values : ∀ u ∈ args, u.IsValue) :
    List.Forall₂ (Summary.Sharper (SameProbe origin d e)) (Tree.summaries args)
      (Tree.summaries args') ∧ ∀ u ∈ args', u.IsValue := by
  induction items with
  | nil => exact ⟨.nil, List.forall_mem_nil _⟩
  | cons head _ ih =>
    obtain ⟨first, rest⟩ := List.forall_mem_cons.mp values
    obtain ⟨sharpens, value⟩ := head.value first
    obtain ⟨each, values⟩ := ih rest
    exact ⟨.cons sharpens.sharper each, List.forall_mem_cons.mpr ⟨value, values⟩⟩

theorem given_sharpens {nodes : Nat} {function : String} {args args' : List Tree} {t : Tree}
    (items : List.Forall₂ (Tree.Paired nodes (Tree.Sharpens origin d e)) args args')
    (run : parameterGiven (r.simplifying false) function args d = .ok t d₁) :
    ∃ t' e₁, parameterGiven (r.simplifying true) function args' e = .ok t' e₁ ∧
    Tree.Sharpens origin d₁ e₁ t t' := by
  obtain ⟨p, asks⟩ := asked_of_parameterGiven run
  have asks' : asked args' = some p := by
    cases items with
    | nil => cases asks
    | @cons x x' _ _ head =>
      have value : x.IsValue ∧ asked [x] = some p := by
        cases x with
        | parameter | literal => exact ⟨fun _ => rfl, asks⟩
        | _ => cases asks
      rw [(head.value value.1).1.asked p value.2]
      cases x with
      | parameter | literal => exact asks
      | _ => cases asks
  rw [parameterGiven_of_asked _ d function asks] at run
  have plain : answer (r.simplifying false) d function args p = .call function args none
      (.fixed true) := by
    unfold answer
    cases (d.parameterOf p.id).given <;> rfl
  rw [plain] at run
  cases run
  refine ⟨_, e, parameterGiven_of_asked _ e function asks', .silent (fun _ => rfl) rfl ?_ ?_ ?_⟩
  all_goals
    unfold answer
    split
  · trivial
  · trivial
  · exact ⟨_, rfl⟩
  · trivial
  · exact ⟨fun _ known => absurd known (Summary.mentions_fixed _), fun _ => rfl⟩
  · exact ⟨fun _ known => absurd known (Summary.mentions_fixed _), fun _ => rfl⟩

theorem filterBranch_gives (wf : e.WellFormed) (site : CallSite) (function : String) :
    ∃ b e₁, filterBranch site function e = .ok b e₁ ∧ e.Extends e₁ ∧ e₁.WellFormed ∧
      e₁.filters.lookup site = some b := by
  rw [filterBranch_eq]
  cases known : e.filters.lookup site with
  | some b => exact ⟨b, e, rfl, .refl e, wf, known⟩
  | none =>
    exact ⟨_, _, rfl, Design.extends_addFilter known function, wf.addFilter site function, by simp⟩

theorem filter_sharpens {nodes : Nat} {site : CallSite} {function : String} {args args' : List Tree}
    {t : Tree} (onward : origin.Extends d) (onward' : origin.Extends e) (wf : d.WellFormed)
    (wf' : e.WellFormed)
    (items : List.Forall₂ (Tree.Paired nodes (Tree.Sharpens origin d e)) args args')
    (values : ∀ u ∈ args, u.IsValue)
    (run : filter (r.simplifying false) site function args d = .ok t d₁) :
    ∃ t' e₁, filter (r.simplifying true) site function args' e = .ok t' e₁ ∧
    Tree.Sharpens origin d₁ e₁ t t' := by
  obtain ⟨b, d', made, grown, sound, found⟩ := filterBranch_gives wf site function
  have plain : filter (r.simplifying false) site function args d = .ok
      (.call function args (some b) (.ofFilter b (Tree.summaries args)))
      { d' with circuit := d'.circuit.takeFilter b } := by
    unfold filter
    simp only [Resolver.simplifying, Bool.false_and, Bool.false_eq_true, ↓reduceIte]
    refine bind_eq_ok.mpr ⟨b, d', made, ?_⟩
    rw [Summary.ofFilter, ← probe_filter sound (mem_of_lookup found) .potential]
    rfl
  cases plain.symm.trans run
  unfold filter
  split
  · exact ⟨_, e, rfl, .silent (fun _ => rfl) rfl trivial ⟨0, rfl⟩ (Summary.sharper_fixed _)⟩
  obtain ⟨b', e', made', grown', sound', found'⟩ := filterBranch_gives wf' site function
  have last := Design.extends_uncounted (Circuit.uncounted_takeFilter d'.circuit b)
  have last' := Design.extends_uncounted (Circuit.uncounted_takeFilter e'.circuit b')
  refine ⟨_, _, bind_eq_ok.mpr ⟨b', e', made', rfl⟩, .silent (fun _ => rfl) rfl trivial trivial ?_⟩
  have one : SameProbe origin { d' with circuit := d'.circuit.takeFilter b }
      { e' with circuit := e'.circuit.takeFilter b' } ⟨b, .potential⟩ ⟨b', .potential⟩ :=
    .filter (last.filters _ _ found) (last'.filters _ _ found')
  have each := (sharper_summaries items values).1.imp fun _ _ sharper =>
    sharper.mono (SameProbe.mono onward onward' (grown.trans last) (grown'.trans last'))
  have whole := Summary.sharper_ofFilter one each
  rw [probe_filter sound' (mem_of_lookup found') .potential]
  exact whole

theorem sharpens_identifier
    (hard : ∀ name p v, origin.lookup? scope name = some (.parameter p) →
      (origin.parameterOf p).value = some v →
      ∃ n, v = .int n) {name : String} (value : (identifier origin scope name).IsValue) :
    Tree.Sharpens origin d e (identifier origin scope name) (identifier origin scope name) := by
  have quiet {s : Summary} (none : ∀ x, ¬s.Mentions x) :
    Summary.Sharper (SameProbe origin d e) s s :=
    ⟨fun x known => absurd known (none x), id⟩
  revert value
  unfold identifier
  split
  · rename_i p found
    split
    · rename_i v given
      exact fun value => ⟨value, trivial, hard name p v found given, fun _ _ => rfl,
        quiet fun _ => Summary.mentions_fixed _⟩
    · exact fun value => ⟨value, trivial, trivial, fun _ _ => rfl,
        quiet fun _ => Summary.mentions_fixed _⟩
  · rename_i v _
    refine fun value => ⟨value, trivial, trivial, fun _ _ => rfl, fun x known => ⟨x, known, ?_⟩, id⟩
    cases x with
    | probe q => exact SameProbe.known (.inr ⟨v, known⟩)
    | «variable» => rfl
  · exact fun value => absurd (value default) (by simp [Tree.valueFault?])
  · exact fun value => absurd (value default) (by simp [Tree.valueFault?])
  · split
    · split
      · refine fun value => ⟨value, trivial, trivial, fun _ _ => rfl, quiet fun x known => ?_⟩
        obtain ⟨-, _, none, -⟩ := Summary.mentions_function.mp known
        cases none
      · exact fun value => absurd (value default) (by simp [Tree.valueFault?])
    · exact fun value => absurd (value default) (by simp [Tree.valueFault?])

theorem admitted_of_whole {config : Config} {applied : Bool} {ts : List Token}
    (whole : Token.wholeAll config applied ts = true) :
    Token.Admitted (fun applied t => t.whole config applied = true) applied ts := by
  induction ts generalizing applied with
  | nil => trivial
  | cons t ts ih =>
    simp only [Token.wholeAll, Bool.and_eq_true] at whole
    exact ⟨whole.1, ih whole.2⟩

theorem function_sharpens {nodes : Nat} {site : CallSite} {f : Function} {args args' : List Tree}
    {t : Tree}
    (whole : f.isMathematical = false) (onward : origin.Extends d) (onward' : origin.Extends e)
    (wf : d.WellFormed) (wf' : e.WellFormed)
    (items : List.Forall₂ (Tree.Paired nodes (Tree.Sharpens origin d e)) args args')
    (run : function (r.simplifying false) site f args d = .ok t d₁) :
    ∃ t' e₁, function (r.simplifying true) site f args' e = .ok t' e₁ ∧
    Tree.Sharpens origin d₁ e₁ t t' := by
  have fits := (function_ensures (r.simplifying false) d site f args).of_ok run
  have fits' := items.length_eq ▸ fits
  have valued {x : Unit} {d₂ : Design} (required : requireValues args d = .ok x d₂) :
      d₂ = d ∧ ∀ u ∈ args, u.IsValue := by
    have values := values_of_requireValues required
    rw [requireValues_eq_ok values] at required
    cases required
    exact ⟨rfl, values⟩
  simp only [function, fits, Bool.false_eq_true, ↓reduceIte] at run
  simp only [function, fits', Bool.false_eq_true, ↓reduceIte]
  cases role : f.role with
  | given =>
    simp only [role] at run ⊢
    exact given_sharpens items run
  | filter =>
    simp only [role] at run ⊢
    obtain ⟨_, _, required, rest⟩ := bind_eq_ok.mp run
    obtain ⟨rfl, values⟩ := valued required
    obtain ⟨t', e₁, made, sharpens⟩ := filter_sharpens onward onward' wf wf' items values rest
    exact ⟨t', e₁, bind_eq_ok.mpr ⟨(), e, requireValues_eq_ok (sharper_summaries items values).2,
      made⟩, sharpens⟩
  | environment =>
    simp only [role] at run ⊢
    obtain ⟨_, _, required, rest⟩ := bind_eq_ok.mp run
    obtain ⟨rfl, values⟩ := valued required
    obtain ⟨each, values'⟩ := sharper_summaries items values
    rw [mathematical_eq, fold?_of_environment role] at rest
    cases rest
    have made : mathematical (r.simplifying true) f args' e =
        .ok (.call f.name args' none (f.summary (Tree.summaries args'))) e := by
      rw [mathematical_eq, fold?_of_environment role]
      rfl
    refine ⟨_, e, bind_eq_ok.mpr ⟨(), e, requireValues_eq_ok values', made⟩,
      .silent (fun _ => rfl) rfl trivial trivial ?_⟩
    · have varying : Summary.Sharper (SameProbe origin d₁ e) .varying .varying :=
        ⟨fun _ known => absurd known (Summary.mentions_plain _ _), id⟩
      simp only [Tree.summary, Function.summary, role]
      exact Summary.sharper_combine (List.rel_append each (.cons varying .nil))
  | unary | binary => simp [Function.isMathematical, role] at whole

theorem call_sharpens {site : CallSite} {name : String} {args args' : List Tree} {t : Tree}
    (wf : origin.WellFormed) (whole : Token.whole r.config true (.identifier name) = true)
    (onward : origin.Leads d) (onward' : origin.Leads e) (ready : Ready d args)
    (ready' : Ready e args')
    (items : List.Forall₂ (Tree.Paired origin.circuit.nodes.size (Tree.Sharpens origin d e)) args
      args') (run : call (r.simplifying false) scope site name args d = .ok t d₁) :
    ∃ t' e₁, call (r.simplifying true) scope site name args' e = .ok t' e₁ ∧
    Tree.Sharpens origin d₁ e₁ t t' := by
  unfold call at run ⊢
  have known : ∀ b, (r.simplifying b).config.access? name = r.config.access? name := fun _ => rfl
  simp only [known] at run ⊢
  cases accessed : r.config.access? name with
  | some a =>
    simp only [accessed] at run ⊢
    exact access_sharpens wf onward.grown onward'.grown items run
  | none =>
    cases found : Function.find? name with
    | some f =>
      simp only [accessed, found] at run ⊢
      have plain : f.isMathematical = false := by simpa [Token.whole, accessed, found] using whole
      exact function_sharpens plain onward.grown onward'.grown ready.wellFormed
        ready'.wellFormed items run
    | none =>
      simp only [accessed, found] at run
      obtain ⟨d', _, _, rest⟩ := bind_eq_ok.mp run
      cases bound : d'.lookup? scope name <;> simp only [bound] at rest <;> cases rest

theorem lockstep_sharpens (wf : origin.WellFormed)
    (hard : ∀ name p v, origin.lookup? scope name = some (.parameter p) →
      (origin.parameterOf p).value = some v → ∃ n, v = .int n) :
    Lockstep r scope origin (fun applied t => t.whole r.config applied = true)
    (Tree.Sharpens origin) where
  arms allowed := by
    simp only [Token.whole, Bool.and_eq_true] at allowed
    exact ⟨admitted_of_whole allowed.1, admitted_of_whole allowed.2⟩
  values sharpens := ⟨sharpens.plain, Tree.valueFault?_of_scalar sharpens.scalar⟩
  mono onward onward' grown grown' sharpens :=
    ⟨sharpens.plain, sharpens.scalar, sharpens.integral, sharpens.asked,
      sharpens.sharper.mono (SameProbe.mono onward.grown onward'.grown grown grown')⟩
  literal {_ v _ _} allowed := by
    obtain ⟨n, int⟩ := Option.isSome_iff_exists.mp allowed
    obtain rfl := Simplify.integer?_eq_some.mp int
    exact ⟨fun _ => rfl, trivial, ⟨n, rfl⟩, fun _ _ => rfl,
      fun _ known => absurd known (Summary.mentions_fixed _), id⟩
  named := sharpens_identifier hard
  called := call_sharpens wf
  unary {_ op _ _ _ _} _ built sharpens := by
    obtain ⟨sharper, integral⟩ := Simplify.sharper_unary op sharpens.integral built
    exact .silent (fun _ => rfl) rfl (Simplify.scalar_unary op sharpens.scalar) integral
      ((Summary.sharper_ofUnary op sharpens.sharper).trans sharper)
  binary {_ op _ _ _ _ _ _} allowed leftBuilt rightBuilt left right := by
    obtain ⟨sharper, integral⟩ := Simplify.sharper_binary allowed left.integral
      right.integral leftBuilt
      rightBuilt
    exact .silent (fun _ => rfl) rfl (Simplify.scalar_binary op left.scalar right.scalar) integral
      ((Summary.sharper_ofBinary op left.sharper right.sharper).trans sharper)
  ternary cond thn els :=
    .silent (fun _ => rfl) rfl ⟨cond.scalar, thn.scalar, els.scalar⟩ trivial
      (Summary.sharper_select cond.sharper thn.sharper els.sharper)
  chosen {c t _ u _ _ _ b _ _ _} _ _ arm _ := by
    obtain ⟨thn, els⟩ := Summary.sharper_arm c.summary arm.sharper u.summary
    cases b with
    | true => exact .silent (fun _ => rfl) rfl arm.scalar arm.integral thn
    | false => exact .silent (fun _ => rfl) rfl arm.scalar arm.integral els

end Resolve

namespace Source

/-- Simplification sharpens what is known: what resolves as it is written resolves with
simplification from the same design, to a tree whose summary has no probe and no consumer that the
other one lacks, and an offset only if that has one. -/
theorem simplifying_sharpens {r : Resolver} {s : Source} {scope : ScopeId} {t : Tree}
    {d d₁ : Design} (wf : d.WellFormed) (whole : Token.wholeAll r.config false s.raw = true)
    (hard : ∀ name p v, d.lookup? scope name = some (.parameter p) →
      (d.parameterOf p).value = some v → ∃ n, v = .int n)
    (run : s.resolve (r.simplifying false) scope d = .ok t d₁) :
    ∃ t' d₂, s.resolve (r.simplifying true) scope d = .ok t' d₂ ∧
      (∀ q', t'.summary.dependsOn q' = true →
        ∃ q, t.summary.dependsOn q = true ∧ SameProbe d d₁ d₂ q q') ∧
      (∀ v ∈ t'.summary.consumers.items, v ∈ t.summary.consumers.items) ∧
      (t'.summary.offset = true → t.summary.offset = true) := by
  obtain ⟨t', d₂, run', sharpens⟩ := (Resolve.lockstep_sharpens wf hard).resolve wf
    (Resolve.admitted_of_whole whole) run
  refine ⟨t', d₂, run', fun q' known => ?_, fun v known => ?_, sharpens.sharper.offset⟩
  · obtain ⟨x, there, one⟩ := sharpens.sharper.mentions (.probe q') known
    cases x with
    | probe q => exact ⟨q, there, one⟩
    | «variable» => cases one
  · obtain ⟨x, there, one⟩ := sharpens.sharper.mentions (.variable v) known
    cases x with
    | probe => cases one
    | «variable» w =>
      cases one
      exact there

def scaled : Design := { bridged with
  scopes := #[⟨[], [("p", .port 1), ("n", .port 2), ("back", .branch 1), ("k", .parameter 0)],
      .always, ""⟩]
  parameters := #[{ Parameter.ofType "k" .integer false with
      value := some (.int 0), given := some true }] }

theorem wellFormed_scaled : scaled.WellFormed where
  circuit := wellFormed_bridged.circuit
  filters := wellFormed_bridged.filters
  bindings
    | 0 => by decide
    | s + 1 => by simp [scaled, Design.scopeOf, default, Scope.inside]
  summaries := wellFormed_bridged.summaries

def scaledReading : Source where
  raw := [.identifier "k", .ternary [.marker, .identifier "p", .arguments, .identifier "V"]
    [.marker, .marker, .identifier "back", .arguments, .identifier "V", .arguments,
      .identifier "ddt", .literal (.int 3), .binary .mul]]
  key := 0

/-- The first arm is left out, and the filter has the number that the branch of that arm has
otherwise. -/
theorem simplifying_sharpens_scaled : scaled.WellFormed ∧
    Token.wholeAll Config.default false scaledReading.raw = true ∧
    ∃ t d₁ t' d₂,
      scaledReading.resolve (Resolver.simplifying ⟨.default, 0⟩ false) 0 scaled = .ok t d₁ ∧
      scaledReading.resolve (Resolver.simplifying ⟨.default, 0⟩ true) 0 scaled = .ok t' d₂ ∧
      t.summary.deps.probes = [⟨2, .potential⟩, ⟨3, .potential⟩, ⟨0, .potential⟩] ∧
      ∀ q', t'.summary.dependsOn q' = true → ∃ q, t.summary.dependsOn q = true ∧
      SameProbe scaled d₁ d₂ q q' := by
  have whole : Token.wholeAll Config.default false scaledReading.raw = true := by decide
  have hard : ∀ name p v, scaled.lookup? 0 name = some (.parameter p) →
      (scaled.parameterOf p).value = some v →
      ∃ n, v = .int n := by
    intro _ p v _ given
    match p with
    | 0 =>
      cases given
      exact ⟨0, rfl⟩
    | p + 1 => cases given
  obtain ⟨t', d₂, run, probes, -, -⟩ := simplifying_sharpens (r := ⟨.default, 0⟩)
    wellFormed_scaled whole hard
    (rfl : scaledReading.resolve (Resolver.simplifying ⟨.default, 0⟩ false) 0 scaled = .ok _ _)
  exact ⟨wellFormed_scaled, whole, _, _, t', d₂, rfl, run, by decide +kernel, probes⟩

end Source
end Analog
