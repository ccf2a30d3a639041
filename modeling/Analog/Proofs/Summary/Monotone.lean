import Analog.Proofs.Summary.Containment
import Analog.Proofs.Tree.Degrees

/-!
How the operations on summaries grow with their operands. Probes, consumers and flags grow with
them. The order of a probe is that of the operand that brings it first, so an operand that newly
brings a probe at a low order can overtake a later one; this is the only way in which a result fails
to grow.
-/
namespace Analog

namespace Order

theorem le_any (a : Order) : a.le .any = true := by cases a <;> rfl

theorem raise_mono {a b : Order} (h : a.le b = true) : a.raise.le b.raise = true := by
  revert h
  cases a <;> cases b <;> decide

end Order

namespace Summary

/-- Of two orders that may be missing: the second is there and no lower if the first is there. -/
def Under (a b : Option Order) : Prop := ∀ o ∈ a, ∃ o' ∈ b, o.le o' = true

theorem Under.map {a b : Option Order} (h : Under a b) {f g : Order → Order}
    (mono : ∀ {x y : Order}, x.le y = true → (f x).le (g y) = true) :
    Under (a.map f) (b.map g) := by
  intro o mem
  obtain ⟨x, known, rfl⟩ := Option.map_eq_some_iff.mp mem
  obtain ⟨y, there, le⟩ := h x known
  exact ⟨g y, Option.map_eq_some_iff.mpr ⟨y, there, rfl⟩, mono le⟩

theorem Under.const {a b : Option Order} (h : Under a b) (o : Order) :
    Under (a.map fun _ => o) (b.map fun _ => o) := h.map fun _ => Order.le_refl o

/-- Of the orders that operands bring for one probe, in the order of entry, and of those that their
counterparts bring: the first counterpart that brings any belongs to an operand that brings none,
and its order is lower than the first of the operands. -/
inductive Overtaken : List (Option Order) → List (Option Order) → Prop
  | now {o o' : Order} {xs ys : List (Option Order)} (first : xs.findSome? id = some o)
    (lower : o.le o' = false) : Overtaken (none :: xs) (some o' :: ys)
  | later {xs ys : List (Option Order)} (rest : Overtaken xs ys) :
    Overtaken (none :: xs) (none :: ys)

theorem under_findSome?_iff {xs ys : List (Option Order)} (each : List.Forall₂ Under xs ys) :
    Under (xs.findSome? id) (ys.findSome? id) ↔ ¬Overtaken xs ys := by
  induction each with
  | nil =>
    constructor
    · rintro _ ⟨⟩
    · rintro _ _ ⟨⟩
  | @cons x y xs ys head rest ih =>
    cases x with
    | some o =>
      obtain ⟨o', rfl, le⟩ := head o rfl
      constructor
      · rintro _ ⟨⟩
      · rintro _ _ ⟨⟩
        exact ⟨o', rfl, le⟩
    | none =>
      cases y with
      | none =>
        refine ih.trans (not_congr ⟨.later, ?_⟩)
        rintro (_ | rest)
        exact rest
      | some o' =>
        constructor
        · rintro under (⟨first, lower⟩ | _)
          obtain ⟨_, ⟨⟩, le⟩ := under _ first
          exact Bool.false_ne_true (lower.symm.trans le)
        · intro kept o first
          refine ⟨o', rfl, ?_⟩
          by_contra lower
          exact kept (.now first (Bool.eq_false_of_not_eq_true lower))

theorem not_overtaken_of_present {xs ys : List (Option Order)}
    (present : List.Forall₂ (fun x y => y.isSome = true → x.isSome = true) xs ys) :
    ¬Overtaken xs ys := by
  induction present with
  | nil => rintro ⟨⟩
  | cons head _ ih =>
    rintro (_ | rest)
    · exact Bool.false_ne_true (head rfl)
    · exact ih rest

theorem not_overtaken_of_highest {xs ys : List (Option Order)} {o : Order}
    (highest : ∀ y ∈ ys, ∀ o' ∈ y, o' = o) (bound : ∀ x ∈ xs, ∀ o' ∈ x, o'.le o = true) :
    ¬Overtaken xs ys := by
  intro h
  induction h with
  | now first lower =>
    obtain ⟨x, mem, known⟩ := List.exists_of_findSome?_eq_some first
    rw [highest _ List.mem_cons_self _ rfl, bound x (List.mem_cons_of_mem _ mem) _ known] at lower
    exact Bool.false_ne_true lower.symm
  | later rest ih =>
    exact ih (fun y mem => highest y (List.mem_cons_of_mem _ mem))
      fun x mem => bound x (List.mem_cons_of_mem _ mem)

instance (s t : Summary) : Decidable (s.Below t) :=
  decidable_of_iff ((∀ e ∈ s.deps.edges, ∃ a ∈ t.deps.edges, a.probe = e.probe ∧
    e.order.le a.order = true) ∧
    (∀ v ∈ s.consumers.items, v ∈ t.consumers.items) ∧ (s.offset = true → t.offset = true) ∧
    (s.constant = false → t.constant = false))
    ⟨fun h => ⟨h.1, h.2.1, h.2.2.1, h.2.2.2⟩, fun h => ⟨h.probes, h.consumers, h.offset, h.varies⟩⟩

instance (s : Summary) : Decidable s.Tidy := inferInstanceAs (Decidable s.deps.probes.Nodup)

theorem Below.under {s t : Summary} (h : s.Below t) (tidy : t.Tidy) (q : Probe) :
    Under (s.order? q) (t.order? q) := by
  intro o known
  obtain ⟨e, found, rfl⟩ := Option.map_eq_some_iff.mp known
  obtain ⟨mem, rfl⟩ := EdgeSet.mem_of_find? found
  obtain ⟨a, there, probe, le⟩ := h.probes e mem
  exact ⟨a.order, probe ▸ order?_of_mem tidy there, le⟩

/-- Where a probe has one edge, the order of summaries is that of names and flags, and that of the
orders of each probe. -/
theorem below_iff {s t : Summary} (tidy : s.Tidy) (tidy' : t.Tidy) :
    s.Below t ↔ s.Within t ∧ ∀ q, Under (s.order? q) (t.order? q) := by
  refine ⟨fun h => ⟨h.within, h.under tidy'⟩, ?_⟩
  rintro ⟨within, under⟩
  refine ⟨fun e mem => ?_, within.consumers, within.offset, within.varies⟩
  obtain ⟨o, known, le⟩ := under e.probe e.order (order?_of_mem tidy mem)
  obtain ⟨a, found, rfl⟩ := Option.map_eq_some_iff.mp known
  obtain ⟨there, probe⟩ := EdgeSet.mem_of_find? found
  exact ⟨a, there, probe, le⟩

inductive Combination where
  | sum (operands : List Summary)
  | truth (operands : List Summary)
  | function (operands : List Summary)
  | product (l r : Summary)
  | quotient (num den : Summary)
  | choice (cond thn els : Summary)

namespace Combination

def result : Combination → Summary
  | sum operands => combine operands
  | truth operands => logical operands
  | function operands => arbitrary operands
  | product l r => multiply l r
  | quotient num den => divide num den
  | choice cond thn els => select cond thn els

/-- The operands in the order in which they are entered. -/
def operands : Combination → List Summary
  | sum operands | truth operands | function operands => operands
  | product l r => [l, r]
  | quotient num den => [num, den]
  | choice cond thn els => [thn, els, cond]

def raisedBy (factor : Summary) : Order → Order := if factor.hasDeps then Order.raise else id

def weakenedBy (den : Summary) : Order → Order := if den.hasDeps then fun _ => .any else id

def orders (q : Probe) : Combination → List (Option Order)
  | sum operands => operands.map (·.order? q)
  | truth operands => operands.map fun s => (s.order? q).map fun _ => .none
  | function operands => operands.map fun s => (s.order? q).map fun _ => .any
  | product l r => [(l.order? q).map (raisedBy r), (r.order? q).map (raisedBy l)]
  | quotient num den => [num, den].map fun s => (s.order? q).map (weakenedBy den)
  | choice cond thn els => [thn.order? q, els.order? q, (cond.order? q).map fun _ => .none]

/-- The same operation, of operands each of which is below its counterpart. -/
inductive Below : Combination → Combination → Prop
  | sum {ss ts : List Summary} (each : List.Forall₂ Summary.Below ss ts) : Below (.sum ss) (.sum ts)
  | truth {ss ts : List Summary} (each : List.Forall₂ Summary.Below ss ts) :
    Below (.truth ss) (.truth ts)
  | function {ss ts : List Summary} (each : List.Forall₂ Summary.Below ss ts) :
    Below (.function ss) (.function ts)
  | product {l r l' r' : Summary} (left : l.Below l') (right : r.Below r') :
    Below (.product l r) (.product l' r')
  | quotient {num den num' den' : Summary} (top : num.Below num') (bottom : den.Below den') :
    Below (.quotient num den) (.quotient num' den')
  | choice {cond thn els cond' thn' els' : Summary} (test : cond.Below cond') (yes : thn.Below thn')
    (no : els.Below els') : Below (.choice cond thn els) (.choice cond' thn' els')

def levels : Combination → Bool
  | truth _ | function _ | quotient _ _ => true
  | sum _ | product _ _ | choice _ _ _ => false

variable {c c' : Combination}

theorem tidy_result (c : Combination) : c.result.Tidy := by
  cases c with
  | sum operands => exact nodup_combine operands
  | truth operands => exact nodup_uniform .none operands
  | function operands => exact nodup_uniform .any operands
  | product l r => exact nodup_enter (nodup_enter (nodup_plain _ _) _ _) _ _
  | quotient num den => exact nodup_enter (nodup_enter (nodup_plain _ _) _ _) _ _
  | choice cond thn els => exact nodup_select cond thn els

theorem findSome?_brought (f : Summary → Option Order) (ss : List Summary) :
    (ss.map f).findSome? id = ss.findSome? f := by
  rw [List.findSome?_map]
  rfl

theorem findSome?_pair (a b : Option Order) : [a, b].findSome? id = a.or b := by
  cases a <;> cases b <;> rfl

theorem order?_result (c : Combination) (q : Probe) :
    c.result.order? q = (c.orders q).findSome? id := by
  cases c with
  | sum operands => exact (order?_combine operands q).trans (findSome?_brought _ operands).symm
  | truth operands =>
    exact (order?_uniform .none operands q).trans (findSome?_brought _ operands).symm
  | function operands =>
    exact (order?_uniform .any operands q).trans (findSome?_brought _ operands).symm
  | product l r =>
    refine (order?_multiply l r q).trans (Eq.trans ?_ (findSome?_pair _ _).symm)
    unfold raisedBy
    cases l.hasDeps <;> cases r.hasDeps <;> rfl
  | quotient num den =>
    refine (order?_divide num den q).trans (Eq.trans ?_ (findSome?_pair _ _).symm)
    unfold weakenedBy
    cases den.hasDeps <;> rfl
  | choice cond thn els =>
    refine (order?_select cond thn els q).trans ?_
    simp only [orders]
    cases thn.order? q <;> cases els.order? q <;> cases cond.order? q <;> rfl

theorem Below.within (below : c.Below c') : c.result.Within c'.result := by
  cases below with
  | sum each => exact within_combine (each.imp fun _ _ => Summary.Below.within)
  | truth each => exact within_uniform .none (each.imp fun _ _ => Summary.Below.within)
  | function each => exact within_uniform .any (each.imp fun _ _ => Summary.Below.within)
  | product left right => exact within_multiply left.within right.within
  | quotient top bottom => exact within_divide top.within bottom.within
  | choice test yes no => exact within_select test.within yes.within no.within

theorem hasDeps_mono {s t : Summary} (h : s.Below t) (deps : s.hasDeps = true) :
    t.hasDeps = true := by
  obtain ⟨q, known⟩ := hasDeps_iff.mp deps
  exact hasDeps_iff.mpr ⟨q, h.within.probes q known⟩

theorem raisedBy_mono {s t : Summary} (h : s.Below t) {x y : Order} (le : x.le y = true) :
    (raisedBy s x).le (raisedBy t y) = true := by
  unfold raisedBy
  by_cases deps : s.hasDeps = true
  · rw [if_pos deps, if_pos (hasDeps_mono h deps)]
    exact Order.raise_mono le
  · rw [if_neg deps]
    split
    · exact Order.le_trans le (Order.le_raise y)
    · exact le

theorem weakenedBy_mono {s t : Summary} (h : s.Below t) {x y : Order} (le : x.le y = true) :
    (weakenedBy s x).le (weakenedBy t y) = true := by
  unfold weakenedBy
  by_cases deps : s.hasDeps = true
  · rw [if_pos deps, if_pos (hasDeps_mono h deps)]
    rfl
  · rw [if_neg deps]
    split
    · exact Order.le_any x
    · exact le

theorem under_map {f : Option Order → Option Order} (mono : ∀ {x y : Option Order}, Under x y →
      Under (f x) (f y)) {ss ts : List Summary} (each : List.Forall₂ Summary.Below ss ts)
    (tidy : ∀ t ∈ ts, t.Tidy) (q : Probe) :
    List.Forall₂ Under (ss.map fun s => f (s.order? q)) (ts.map fun s => f (s.order? q)) := by
  induction each with
  | nil => exact .nil
  | cons head _ ih =>
    obtain ⟨first, rest⟩ := List.forall_mem_cons.mp tidy
    exact .cons (mono (head.under first q)) (ih rest)

theorem Below.orders (below : c.Below c') (tidy : ∀ t ∈ c'.operands, t.Tidy) (q : Probe) :
    List.Forall₂ Under (c.orders q) (c'.orders q) := by
  cases below with
  | sum each => exact under_map id each tidy q
  | truth each => exact under_map (fun h => h.const .none) each tidy q
  | function each => exact under_map (fun h => h.const .any) each tidy q
  | product left right =>
    obtain ⟨first, second, _⟩ := List.forall_mem_cons.mp tidy |>.imp_right List.forall_mem_cons.mp
    exact .cons ((left.under first q).map (raisedBy_mono right))
      (.cons ((right.under second q).map (raisedBy_mono left)) .nil)
  | quotient top bottom =>
    obtain ⟨first, second, _⟩ := List.forall_mem_cons.mp tidy |>.imp_right List.forall_mem_cons.mp
    exact .cons ((top.under first q).map (weakenedBy_mono bottom))
      (.cons ((bottom.under second q).map (weakenedBy_mono bottom)) .nil)
  | choice test yes no =>
    obtain ⟨first, second, third⟩ := List.forall_mem_cons.mp tidy |>.imp_right
      List.forall_mem_cons.mp
    exact .cons (yes.under first q) (.cons (no.under second q)
      (.cons ((test.under (third _ List.mem_cons_self) q).const .none) .nil))

theorem not_overtaken_alike (o : Order) (ss ts : List Summary) (q : Probe) :
    ¬Overtaken (ss.map fun s => (s.order? q).map fun _ => o)
    (ts.map fun t => (t.order? q).map fun _ => o) := by
  have alike : ∀ us : List Summary, ∀ x ∈ us.map fun u => (u.order? q).map fun _ =>
      o, ∀ o' ∈ x, o' = o := by
    intro us x mem o' known
    obtain ⟨u, _, rfl⟩ := List.mem_map.mp mem
    obtain ⟨_, _, rfl⟩ := Option.map_eq_some_iff.mp known
    rfl
  refine not_overtaken_of_highest (alike ts) fun x mem o' known => ?_
  rw [alike ss x mem o' known]
  exact Order.le_refl o

theorem not_overtaken_last {x y z : Option Order} : ¬Overtaken [x, none] [y, z] := by
  rintro (⟨first, _⟩ | ⟨first, _⟩ | ⟨⟨⟩⟩)
  · cases first
  · cases first

/-- A quotient overtakes nothing: a denominator that varies sets all orders to the highest one, and
one that does not brings none. -/
theorem not_overtaken_quotient {num den num' den' : Summary} (bottom : den.Below den') (q : Probe) :
    ¬Overtaken ((quotient num den).orders q) ((quotient num' den').orders q) := by
  by_cases deps : den'.hasDeps = true
  · refine not_overtaken_of_highest ?_ fun _ _ o _ => Order.le_any o
    intro y mem o known
    simp only [orders, weakenedBy, if_pos deps] at mem
    obtain ⟨t, _, rfl⟩ := List.mem_map.mp mem
    obtain ⟨_, _, rfl⟩ := Option.map_eq_some_iff.mp known
    rfl
  · have quiet : den.order? q = none := by
      by_contra known
      exact deps (hasDeps_mono bottom (hasDeps_iff.mpr ⟨q, Option.isSome_iff_ne_none.mpr known⟩))
    simp only [orders, List.map_cons, List.map_nil, quiet, Option.map_none]
    exact not_overtaken_last

theorem not_overtaken_of_levels (below : c.Below c') (levels : c.levels = true) (q : Probe) :
    ¬Overtaken (c.orders q) (c'.orders q) := by
  cases below with
  | sum | product | choice => cases levels
  | @truth ss ts => exact not_overtaken_alike .none ss ts q
  | @function ss ts => exact not_overtaken_alike .any ss ts q
  | quotient _ bottom => exact not_overtaken_quotient bottom q

theorem isSome_orders (c : Combination) (q : Probe) :
    (c.orders q).map Option.isSome = c.operands.map (·.dependsOn q) := by
  cases c <;> simp [orders, operands, dependsOn, order?, Function.comp_def]

theorem not_overtaken_of_probes
    (kept : List.Forall₂ (fun s t : Summary => ∀ q, t.dependsOn q = true → s.dependsOn q = true)
      c.operands c'.operands) (q : Probe) : ¬Overtaken (c.orders q) (c'.orders q) := by
  refine not_overtaken_of_present ?_
  have flags : List.Forall₂ (fun a b : Bool => b = true → a = true) ((c.orders q).map Option.isSome)
      ((c'.orders q).map Option.isSome) := by
    rw [isSome_orders, isSome_orders, List.forall₂_map_left_iff, List.forall₂_map_right_iff]
    exact kept.imp fun s t h => h q
  rw [List.forall₂_map_left_iff, List.forall₂_map_right_iff] at flags
  exact flags

/-- Where each operand is below its counterpart, the result has no probe, consumer, offset or
variation that the counterpart lacks, and the order of a probe is no higher than in the counterpart
exactly if the probe is not overtaken. So the result is below the counterpart exactly if no probe is
overtaken, as is the case for truth values, functions and quotients, and wherever no operand gains a
probe. -/
theorem result_below_unless_overtaken (below : c.Below c') (tidy : ∀ t ∈ c'.operands, t.Tidy) :
    c.result.Within c'.result ∧
    (∀ q, Under (c.result.order? q) (c'.result.order? q) ↔ ¬Overtaken (c.orders q) (c'.orders q)) ∧
    (c.result.Below c'.result ↔ ∀ q, ¬Overtaken (c.orders q) (c'.orders q)) ∧
    (c.levels = true → c.result.Below c'.result) ∧
    (List.Forall₂ (fun s t : Summary => ∀ q, t.dependsOn q = true → s.dependsOn q = true)
      c.operands c'.operands → c.result.Below c'.result) := by
  have orders (q : Probe) : Under (c.result.order? q) (c'.result.order? q) ↔
      ¬Overtaken (c.orders q) (c'.orders q) := by
    rw [order?_result, order?_result]
    exact under_findSome?_iff (below.orders tidy q)
  have whole : c.result.Below c'.result ↔ ∀ q, ¬Overtaken (c.orders q) (c'.orders q) := by
    rw [below_iff c.tidy_result c'.tidy_result, forall_congr' orders]
    exact and_iff_right below.within
  exact ⟨below.within, orders, whole,
    fun levels => whole.mpr (not_overtaken_of_levels below levels),
    fun kept => whole.mpr (not_overtaken_of_probes kept)⟩

/-- A factor that begins to vary raises the orders of the other one, and overtakes nothing. -/
theorem result_below_unless_overtaken_factor :
    (fixed false).Below (ofProbe ⟨1, .flow⟩) ∧
    (product (ofProbe ⟨0, .potential⟩) (fixed false)).result.Below
      (product (ofProbe ⟨0, .potential⟩) (ofProbe ⟨1, .flow⟩)).result := by
  have varies : (fixed false).Below (ofProbe ⟨1, .flow⟩) := by decide
  refine ⟨varies, (result_below_unless_overtaken (.product (.refl _) varies)
    (by decide)).2.2.1.mpr ?_⟩
  intro q
  exact not_overtaken_last

/-- In a sum, an operand that begins to depend on a probe as a truth value does hides that the other
operand depends on it in some other way. -/
theorem sum_overtaken_by_truth :
    List.Forall₂ Summary.Below [fixed false, arbitrary [ofProbe ⟨0, .potential⟩]]
      [logical [ofProbe ⟨0, .potential⟩], arbitrary [ofProbe ⟨0, .potential⟩]] ∧
    (combine [fixed false, arbitrary [ofProbe ⟨0, .potential⟩]]).order?
    ⟨0, .potential⟩ = some .any ∧
    (combine [logical [ofProbe ⟨0, .potential⟩], arbitrary [ofProbe ⟨0, .potential⟩]]).order?
      ⟨0, .potential⟩ = some .none ∧
    ¬(combine [fixed false, arbitrary [ofProbe ⟨0, .potential⟩]]).Below
      (combine [logical [ofProbe ⟨0, .potential⟩], arbitrary [ofProbe ⟨0, .potential⟩]]) :=
  ⟨.cons (by decide) (.cons (.refl _) .nil), rfl, rfl, by decide⟩

end Combination
end Summary
end Analog
