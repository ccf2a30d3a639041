import Analog.Proofs.Resolver.CounterBalance
import Analog.Proofs.Summary.Order

/-!
Orders as degrees. A tree of integers, parameters and branch quantities with sums, products and
negation is a polynomial in its probes. A union of edges keeps the first edge of a probe, so the
order of a probe bounds the degree in it wherever no union drops a higher order than it keeps.
-/
namespace Analog

/-- The highest degree that an order allows. -/
def Order.degree : Order → ℕ∞
  | .none => 0
  | .linear => 1
  | .quadratic => 2
  | .any => ⊤

/-- Polynomials in probes, with polynomials in parameters as coefficients. -/
abbrev ProbePolynomial : Type := MvPolynomial Probe (MvPolynomial Symbol ℤ)

def Circuit.isBackward (c : Circuit) (ref : BranchRef) : Bool :=
  ref.reversed != (c.branch ref.branch).reversed

noncomputable def Quantity.polynomial (c : Circuit) (q : Quantity) : ProbePolynomial :=
  if c.isBackward q.ref then -MvPolynomial.X q.probe else MvPolynomial.X q.probe

namespace Tree

/-- A tree of sums, products and negations, read as a polynomial in its probes. -/
inductive ReadsAs (c : Circuit) : Tree → ProbePolynomial → Prop
  | literal (n : Int64) (o : Option Symbol) : ReadsAs c (.literal (.int n) o) (.C (.C n.toInt))
  | parameter (x : Symbol) : ReadsAs c (.parameter x) (.C (.X x))
  | access (q : Quantity) : ReadsAs c (.access q) (q.polynomial c)
  | neg {x : Tree} {p : ProbePolynomial} {s : Summary} (operand : ReadsAs c x p) :
    ReadsAs c (.unary .neg x s) (-p)
  | add {l r : Tree} {p p' : ProbePolynomial} {s : Summary} (left : ReadsAs c l p)
    (right : ReadsAs c r p') : ReadsAs c (.binary .add l r s) (p + p')
  | sub {l r : Tree} {p p' : ProbePolynomial} {s : Summary} (left : ReadsAs c l p)
    (right : ReadsAs c r p') : ReadsAs c (.binary .sub l r s) (p - p')
  | mul {l r : Tree} {p p' : ProbePolynomial} {s : Summary} (left : ReadsAs c l p)
    (right : ReadsAs c r p') : ReadsAs c (.binary .mul l r s) (p * p')

/-- Whether no sum or product in a tree drops an edge of `q` that is higher than the one it keeps.
The edges of a product are compared once they are raised. -/
def keepsOrder (q : Probe) : Tree → Bool
  | .unary _ x _ => x.keepsOrder q
  | .binary op l r _ => l.keepsOrder q && r.keepsOrder q &&
    match l.summary.order? q, r.summary.order? q with
    | some kept, some dropped => if op = .mul then dropped.raise.le kept.raise else dropped.le kept
    | _, _ => true
  | _ => true

end Tree

namespace Order

theorem degree_mono {a b : Order} (h : a.le b = true) : a.degree ≤ b.degree := by
  cases a <;> cases b <;> first | exact absurd h (by decide) | simp [degree]

theorem le_raise (a : Order) : a.le a.raise = true := by cases a <;> rfl

theorem degree_add_le {kept dropped : Order} (h : dropped.raise.le kept.raise = true) :
    kept.degree + dropped.degree ≤ kept.raise.degree := by
  cases kept <;> cases dropped <;>
    first | exact absurd h (by decide) | simp [degree, raise, one_add_one_eq_two]

end Order

namespace Summary

variable {l r s : Summary} {q : Probe}

def degreeAt (s : Summary) (q : Probe) : ℕ∞ := (s.order? q).elim 0 Order.degree

theorem mem_of_order? {o : Order} (known : s.order? q = some o) : ⟨q, o⟩ ∈ s.deps.edges := by
  obtain ⟨e, found, rfl⟩ := Option.map_eq_some_iff.mp known
  obtain rfl : e.probe = q := by simpa using List.find?_some found
  exact List.mem_of_find?_eq_some found

theorem order?_pair (l r : Summary) (q : Probe) :
    (combine [l, r]).order? q = (l.order? q).or (r.order? q) := by
  rw [order?_combine, List.findSome?_cons, List.findSome?_singleton]
  cases l.order? q <;> rfl

theorem order?_singleton (s : Summary) (q : Probe) : (combine [s]).order? q = s.order? q := by
  rw [order?_combine, List.findSome?_singleton]

theorem order?_ofProbe (q q' : Probe) :
    (ofProbe q).order? q' = if q = q' then some .linear else none :=
  EdgeSet.order?_cons ⟨q, .linear⟩ [] q'

theorem degreeAt_combine (keeps : ∀ kept dropped, l.order? q = some kept →
      r.order? q = some dropped →
    dropped.le kept = true) : max (l.degreeAt q) (r.degreeAt q) ≤ (combine [l, r]).degreeAt q := by
  unfold degreeAt
  rw [order?_pair]
  cases first : l.order? q with
  | none => simp
  | some kept =>
    cases second : r.order? q with
    | none => simp
    | some dropped => simpa using Order.degree_mono (keeps kept dropped first second)

theorem hasDeps_of_order? {o : Order} (known : s.order? q = some o) : s.hasDeps = true :=
  hasDeps_iff.mpr ⟨q, by rw [known]; rfl⟩

theorem order?_eq_none (free : s.hasDeps = false) (q : Probe) : s.order? q = none := by
  cases known : s.order? q with
  | none => rfl
  | some o => simp [hasDeps_of_order? known] at free

theorem degreeAt_multiply (keeps : ∀ kept dropped, l.order? q = some kept →
      r.order? q = some dropped →
      dropped.raise.le kept.raise = true) : l.degreeAt q + r.degreeAt q ≤
    (multiply l r).degreeAt q := by
  unfold degreeAt
  rw [order?_multiply]
  cases first : l.order? q with
  | none =>
    cases second : r.order? q with
    | none => simp
    | some o =>
      simp only [Option.elim_none, zero_add, Option.map_none, Option.map_some, Option.none_or,
        Option.elim_some]
      split
      · exact Order.degree_mono (Order.le_raise o)
      · exact le_rfl
  | some kept =>
    cases second : r.order? q with
    | none =>
      simp only [Option.elim_some, Option.elim_none, add_zero, Option.map_some, Option.some_or]
      split
      · exact Order.degree_mono (Order.le_raise kept)
      · exact le_rfl
    | some dropped =>
      simp only [hasDeps_of_order? second, Option.map_some, if_true, Option.some_or,
        Option.elim_some]
      exact Order.degree_add_le (keeps kept dropped first second)

def Proper (s : Summary) : Prop := ∀ q o, s.order? q = some o → o ≠ .none

def Straight (s : Summary) : Prop := ∀ q o, s.order? q = some o → o.le .linear = true

theorem Proper.combine (left : l.Proper) (right : r.Proper) : (combine [l, r]).Proper := by
  intro q o known
  rw [order?_pair, Option.or_eq_some_iff] at known
  rcases known with first | ⟨_, second⟩
  · exact left q o first
  · exact right q o second

theorem Proper.multiply (left : l.Proper) (right : r.Proper) : (multiply l r).Proper := by
  have raised : ∀ {o : Order} (b : Bool), o ≠ .none → (if b then o.raise else o) ≠ .none := by
    intro o b proper
    cases b <;> cases o <;> simp_all [Order.raise]
  intro q o known
  rw [order?_multiply, Option.or_eq_some_iff] at known
  rcases known with first | ⟨_, second⟩
  · obtain ⟨a, there, rfl⟩ := Option.map_eq_some_iff.mp first
    exact raised _ (left q a there)
  · obtain ⟨a, there, rfl⟩ := Option.map_eq_some_iff.mp second
    exact raised _ (right q a there)

theorem straight_combine (straight : (combine [l, r]).Straight)
    (keeps : ∀ q kept dropped, l.order? q = some kept → r.order? q = some dropped →
      dropped.le kept = true) : l.Straight ∧ r.Straight := by
  have first : l.Straight := by
    intro q o known
    exact straight q o (by rw [order?_pair, known, Option.some_or])
  refine ⟨first, fun q o known => ?_⟩
  cases other : l.order? q with
  | none => exact straight q o (by rw [order?_pair, other, known, Option.none_or])
  | some kept => exact Order.le_trans (keeps q kept o other known) (first q kept other)

theorem straight_multiply (left : l.Proper) (straight : (multiply l r).Straight) :
    (l.hasDeps = false ∧ r.Straight) ∨ (r.hasDeps = false ∧ l.Straight) := by
  cases fixed : l.hasDeps with
  | false =>
    refine .inl ⟨rfl, fun q o known => straight q o ?_⟩
    have absent := order?_eq_none fixed q
    rw [order?_multiply, absent, known]
    simp [fixed]
  | true =>
    refine .inr ?_
    cases other : r.hasDeps with
    | false =>
      refine ⟨rfl, fun q o known => straight q o ?_⟩
      rw [order?_multiply, known]
      simp [other]
    | true =>
      obtain ⟨q, present⟩ := hasDeps_iff.mp fixed
      obtain ⟨o, known⟩ := Option.isSome_iff_exists.mp present
      have raised := straight q o.raise (by rw [order?_multiply, known]; simp [other])
      have proper := left q o known
      cases o <;> simp_all [Order.raise, Order.le, Order.rank]

end Summary

namespace Tree

open MvPolynomial

variable {c : Circuit} {t : Tree} {p : ProbePolynomial} {read : VariableId → Summary} {nodes : Nat}

theorem keepsOrder_binary {op : BinaryOp} {l r : Tree} {s : Summary} {q : Probe}
    (keeps : (Tree.binary op l r s).keepsOrder q = true) :
      l.keepsOrder q = true ∧ r.keepsOrder q = true ∧
      ∀ kept dropped, l.summary.order? q = some kept → r.summary.order? q = some dropped →
        (if op = .mul then dropped.raise.le kept.raise else dropped.le kept) = true := by
  simp only [keepsOrder, Bool.and_eq_true] at keeps
  refine ⟨keeps.1.1, keeps.1.2, fun kept dropped first second => ?_⟩
  simpa only [first, second] using keeps.2

theorem keepsOrder_of_absent {q : Probe} (reads : t.ReadsAs c p) (built : t.Built read nodes)
    (absent : t.summary.order? q = none) : t.keepsOrder q = true := by
  induction reads with
  | literal | parameter | access => rfl
  | neg _ ih =>
    obtain ⟨operand, rfl⟩ := built
    rw [summary, Summary.ofUnary, Summary.order?_singleton] at absent
    exact ih operand absent
  | add _ _ ihl ihr | sub _ _ ihl ihr =>
    obtain ⟨left, right, rfl⟩ := built
    have absent := Option.or_eq_none_iff.mp ((Summary.order?_pair _ _ q).symm.trans absent)
    simp only [keepsOrder, ihl left absent.1, ihr right absent.2, absent, Bool.and_true]
  | mul _ _ ihl ihr =>
    obtain ⟨left, right, rfl⟩ := built
    have absent := (Summary.order?_multiply _ _ q).symm.trans absent
    simp only [Option.or_eq_none_iff, Option.map_eq_none_iff] at absent
    simp only [keepsOrder, ihl left absent.1, ihr right absent.2, absent, Bool.and_true]

theorem proper_of_readsAs (reads : t.ReadsAs c p) (built : t.Built read nodes) :
    t.summary.Proper := by
  induction reads with
  | literal | parameter => exact nofun
  | access q =>
    intro q' o known
    rw [summary, Summary.order?_ofProbe] at known
    split at known
    · cases known
      decide
    · cases known
  | neg _ ih =>
    obtain ⟨operand, rfl⟩ := built
    intro q o known
    rw [summary, Summary.ofUnary, Summary.order?_singleton] at known
    exact ih operand q o known
  | add _ _ ihl ihr | sub _ _ ihl ihr =>
    obtain ⟨left, right, rfl⟩ := built
    exact (ihl left).combine (ihr right)
  | mul _ _ ihl ihr =>
    obtain ⟨left, right, rfl⟩ := built
    exact (ihl left).multiply (ihr right)

theorem degreeOf_quantity (c : Circuit) (x : Quantity) (q : Probe) :
    (x.polynomial c).degreeOf q = (X x.probe : ProbePolynomial).degreeOf q := by
  unfold Quantity.polynomial
  split
  · exact degreeOf_neg q _
  · rfl

theorem totalDegree_quantity (c : Circuit) (x : Quantity) : (x.polynomial c).totalDegree = 1 := by
  unfold Quantity.polynomial
  split <;> simp [totalDegree_neg]

theorem cast_le_max {a b m : ℕ} {x y : ℕ∞} (h : m ≤ max a b) (left : (a : ℕ∞) ≤ x)
    (right : (b : ℕ∞) ≤ y) : (m : ℕ∞) ≤ max x y := by
  rcases le_max_iff.mp h with first | second
  · exact le_max_of_le_left ((Nat.mono_cast first).trans left)
  · exact le_max_of_le_right ((Nat.mono_cast second).trans right)

theorem degreeOf_le {q : Probe} (reads : t.ReadsAs c p) (built : t.Built read nodes)
    (keeps : t.keepsOrder q = true) : (p.degreeOf q : ℕ∞) ≤ t.summary.degreeAt q := by
  induction reads with
  | literal | parameter => simp only [degreeOf_C, Nat.cast_zero, zero_le]
  | access x =>
    rw [degreeOf_quantity, degreeOf_X, summary, Summary.degreeAt, Summary.order?_ofProbe]
    by_cases same : x.probe = q
    · rw [if_pos same.symm, if_pos same]
      rfl
    · rw [if_neg (Ne.symm same)]
      exact zero_le
  | neg _ ih =>
    obtain ⟨operand, rfl⟩ := built
    rw [degreeOf_neg, summary, Summary.ofUnary, Summary.degreeAt, Summary.order?_singleton]
    exact ih operand keeps
  | add _ _ ihl ihr =>
    obtain ⟨left, right, rfl⟩ := built
    obtain ⟨first, second, kept⟩ := keepsOrder_binary keeps
    refine le_trans ?_ (Summary.degreeAt_combine kept)
    exact cast_le_max (degreeOf_add_le q _ _) (ihl left first) (ihr right second)
  | sub _ _ ihl ihr =>
    obtain ⟨left, right, rfl⟩ := built
    obtain ⟨first, second, kept⟩ := keepsOrder_binary keeps
    refine le_trans ?_ (Summary.degreeAt_combine kept)
    exact cast_le_max (degreeOf_sub_le q _ _) (ihl left first) (ihr right second)
  | mul _ _ ihl ihr =>
    obtain ⟨left, right, rfl⟩ := built
    obtain ⟨first, second, kept⟩ := keepsOrder_binary keeps
    refine le_trans ?_ (Summary.degreeAt_multiply kept)
    refine le_trans ?_ (add_le_add (ihl left first) (ihr right second))
    exact_mod_cast degreeOf_mul_le q _ _

theorem degreeOf_eq_zero {q : Probe} (reads : t.ReadsAs c p) (built : t.Built read nodes)
    (absent : t.summary.order? q = none) : p.degreeOf q = 0 := by
  have bound := degreeOf_le reads built (keepsOrder_of_absent reads built absent)
  rw [Summary.degreeAt, absent, Option.elim_none] at bound
  exact_mod_cast nonpos_iff_eq_zero.mp bound

theorem totalDegree_eq_zero (reads : t.ReadsAs c p) (built : t.Built read nodes)
    (free : t.summary.hasDeps = false) : p.totalDegree = 0 := by
  rw [totalDegree_eq_zero_iff_eq_C]
  ext1 m
  by_cases same : m = 0
  · rw [same, coeff_C, if_pos rfl]
  · obtain ⟨q, positive⟩ := Finsupp.ne_iff.mp same
    rw [coeff_C, if_neg (Ne.symm same)]
    by_contra there
    have none := degreeOf_eq_zero reads built (Summary.order?_eq_none free q)
    exact positive (Nat.le_zero.mp (degreeOf_le_iff.mp none.le m (mem_support_iff.mpr there)))

theorem totalDegree_le_one (reads : t.ReadsAs c p) (built : t.Built read nodes)
    (keeps : ∀ q, t.keepsOrder q = true) (straight : t.summary.Straight) : p.totalDegree ≤ 1 := by
  induction reads with
  | literal | parameter => simp only [totalDegree_C, zero_le]
  | access x => exact (totalDegree_quantity c x).le
  | neg _ ih =>
    obtain ⟨operand, rfl⟩ := built
    rw [totalDegree_neg]
    refine ih operand keeps fun q o known => straight q o ?_
    exact (Summary.order?_singleton _ q).trans known
  | add _ _ ihl ihr =>
    obtain ⟨left, right, rfl⟩ := built
    have parts := fun q => keepsOrder_binary (keeps q)
    obtain ⟨first, second⟩ := Summary.straight_combine straight fun q => (parts q).2.2
    refine (totalDegree_add _ _).trans (max_le ?_ ?_)
    · exact ihl left (fun q => (parts q).1) first
    · exact ihr right (fun q => (parts q).2.1) second
  | sub _ _ ihl ihr =>
    obtain ⟨left, right, rfl⟩ := built
    have parts := fun q => keepsOrder_binary (keeps q)
    obtain ⟨first, second⟩ := Summary.straight_combine straight fun q => (parts q).2.2
    refine (totalDegree_sub _ _).trans (max_le ?_ ?_)
    · exact ihl left (fun q => (parts q).1) first
    · exact ihr right (fun q => (parts q).2.1) second
  | mul readsLeft readsRight ihl ihr =>
    obtain ⟨left, right, rfl⟩ := built
    have parts := fun q => keepsOrder_binary (keeps q)
    refine (totalDegree_mul _ _).trans ?_
    rcases Summary.straight_multiply (proper_of_readsAs readsLeft left) straight with
      ⟨free, second⟩ | ⟨free, first⟩
    · rw [totalDegree_eq_zero readsLeft left free, zero_add]
      exact ihr right (fun q => (parts q).2.1) second
    · rw [totalDegree_eq_zero readsRight right free, add_zero]
      exact ihl left (fun q => (parts q).1) first

end Tree

namespace Source

open MvPolynomial

/-- The order that a resolved tree records for a probe bounds its degree in that probe, unless a sum
or a product has dropped a higher order of the probe; a probe without an edge has no part in the
tree, and no order is the least one. If nothing higher was dropped, a linear tree is a polynomial of
total degree one at most. -/
theorem orders_bound_degrees {r : Resolver} {s : Source} {scope : ScopeId} {t : Tree}
    {d d₁ : Design} {p : ProbePolynomial} (wf : d.WellFormed) (run : s.resolve r scope d = .ok t d₁)
    (reads : t.ReadsAs d₁.circuit p) :
    (∀ e ∈ t.summary.deps.edges, e.order ≠ .none ∧
      (t.keepsOrder e.probe = true → (p.degreeOf e.probe : ℕ∞) ≤ e.order.degree)) ∧
    (∀ q, t.summary.deps.contains q = false → p.degreeOf q = 0) ∧
    (t.summary.isLinear = true → (∀ e ∈ t.summary.deps.edges, t.keepsOrder e.probe = true) →
      p.totalDegree ≤ 1) := by
  have built : Resolve.BuiltIn d t := ((resolve_meets (.initial wf) r s scope).of_ok run).2
  have tidy : t.summary.Tidy := by
    rw [← t.refresh_of_built built]
    have reading : ∀ v, (d.snapshot v).deps.probes.Nodup := wf.summaries
    exact Tree.nodup_refresh reading t
  refine ⟨fun e mem => ?_, fun q absent => ?_, fun linear keeps => ?_⟩
  · have known := Summary.order?_of_mem tidy mem
    refine ⟨Tree.proper_of_readsAs reads built e.probe e.order known, fun keeps => ?_⟩
    have bound := Tree.degreeOf_le reads built keeps
    rwa [Summary.degreeAt, known] at bound
  · rw [EdgeSet.contains_eq, Option.isSome_eq_false_iff, Option.isNone_iff_eq_none] at absent
    exact Tree.degreeOf_eq_zero reads built absent
  · refine Tree.totalDegree_le_one reads built (fun q => ?_) fun q o known => ?_
    · cases known : t.summary.order? q with
      | none => exact Tree.keepsOrder_of_absent reads built known
      | some o => exact keeps ⟨q, o⟩ (Summary.mem_of_order? known)
    · simp only [Summary.isLinear, Summary.within, Bool.and_eq_true, List.all_eq_true] at linear
      exact linear.2 ⟨q, o⟩ (Summary.mem_of_order? known)

def potentialTokens : Raw :=
    [.marker, .identifier "p", .identifier "n", .arguments, .identifier "V"]

def squareAdded : Source where
  raw := potentialTokens ++ potentialTokens ++ potentialTokens ++ [.binary .mul, .binary .add]
  key := 0

theorem one_lt_degreeOf_square_added (c : Circuit) (x : Quantity) :
    1 < (x.polynomial c + x.polynomial c * x.polynomial c).degreeOf x.probe := by
  have square : (x.polynomial c * x.polynomial c).degreeOf x.probe = 2 := by
    have same : x.polynomial c * x.polynomial c = X x.probe ^ 2 := by
      unfold Quantity.polynomial
      split <;> ring
    rw [same, degreeOf_X_self_pow]
  have less : (x.polynomial c).degreeOf x.probe < (x.polynomial c * x.polynomial c).degreeOf
      x.probe := by
    rw [square, Tree.degreeOf_quantity, degreeOf_X_self]
    exact Nat.one_lt_two
  rw [add_comm, degreeOf_add_eq_of_degreeOf_lt less, square]
  exact Nat.one_lt_two

/-- The sum passes for linear, and is not. -/
theorem linear_square_added : ∃ t d₁ p, squareAdded.resolve ⟨.default, 0⟩ 0 bridged = .ok t d₁ ∧
    t.ReadsAs d₁.circuit p ∧ ⟨⟨0, .potential⟩, .linear⟩ ∈ t.summary.deps.edges ∧
    t.summary.isLinear = true ∧ 1 < p.degreeOf ⟨0, .potential⟩ ∧ 1 < p.totalDegree := by
  refine ⟨_, _, _, rfl, .add (.access _) (.mul (.access _) (.access _)), by decide, by decide,
    one_lt_degreeOf_square_added _ _, ?_⟩
  exact (one_lt_degreeOf_square_added _ _).trans_le (degreeOf_le_totalDegree _ _)

def squareFirst : Source where
  raw := potentialTokens ++ potentialTokens ++ [.binary .mul] ++ potentialTokens ++ [.binary .add,
    .marker, .identifier "back", .arguments, .identifier "I", .literal (.int 3),
      .binary .mul, .binary .sub]
  key := 0

def asWritten : Config := { Config.default with simplify := false }

theorem orders_bound_degrees_squareFirst : bridged.WellFormed ∧
    ∃ t d₁ p, squareFirst.resolve ⟨asWritten, 0⟩ 0 bridged = .ok t d₁ ∧ t.ReadsAs d₁.circuit p ∧
      (p.degreeOf ⟨0, .potential⟩ : ℕ∞) ≤ Order.quadratic.degree ∧
      (p.degreeOf ⟨0, .flow⟩ : ℕ∞) ≤ Order.linear.degree ∧ p.degreeOf ⟨1, .flow⟩ = 0 := by
  refine ⟨wellFormed_bridged, _, _, _, rfl, .sub (.add (.mul (.access _) (.access _)) (.access _))
    (.mul (.access _) (.literal _ _)), ?_⟩
  obtain ⟨edges, absent, _⟩ := orders_bound_degrees wellFormed_bridged
    (rfl : squareFirst.resolve ⟨asWritten, 0⟩ 0 bridged = .ok _ _)
    (.sub (.add (.mul (.access _) (.access _)) (.access _)) (.mul (.access _) (.literal _ _)))
  exact ⟨(edges ⟨⟨0, .potential⟩, .quadratic⟩ (by decide)).2 (by decide),
    (edges ⟨⟨0, .flow⟩, .linear⟩ (by decide)).2 (by decide), absent ⟨1, .flow⟩ (by decide)⟩

end Source
end Analog
