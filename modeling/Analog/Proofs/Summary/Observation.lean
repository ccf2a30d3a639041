import Mathlib
import Analog.Function

/-!
Summaries seen one probe, one variable or one flag at a time. Each operation of the algebra does to
what is seen something that depends on nothing else, except that products and quotients also ask
whether the other operand has probes at all.
-/
namespace Analog

namespace EdgeSet

variable {s : EdgeSet}

/-- The order of a probe, if it is there. -/
def order? (s : EdgeSet) (q : Probe) : Option Order := (s.find? q).map (·.order)

theorem order?_nil (q : Probe) : (⟨[]⟩ : EdgeSet).order? q = none := rfl

theorem order?_cons (e : Edge) (edges : List Edge) (q : Probe) : (⟨e :: edges⟩ : EdgeSet).order? q =
      if e.probe = q then some e.order else (⟨edges⟩ : EdgeSet).order? q := by
  by_cases same : e.probe = q <;> simp [order?, find?, same]

theorem order?_snoc (edges : List Edge) (e : Edge) (q : Probe) :
      (⟨edges ++ [e]⟩ : EdgeSet).order? q =
      ((⟨edges⟩ : EdgeSet).order? q).or (if e.probe = q then some e.order else none) := by
  induction edges with
  | nil => simp [order?_cons, order?_nil]
  | cons a edges ih =>
    rw [List.cons_append, order?_cons, order?_cons, ih]
    split <;> simp

theorem contains_eq (s : EdgeSet) (q : Probe) : s.contains q = (s.order? q).isSome := by
  simp [contains, order?]

theorem order?_insert (s : EdgeSet) (e : Edge) (q : Probe) :
    (s.insert e).order? q = (s.order? q).or (if e.probe = q then some e.order else none) := by
  unfold insert
  split
  · rename_i present
    rw [contains_eq] at present
    split
    · rename_i same
      subst same
      obtain ⟨o, known⟩ := Option.isSome_iff_exists.mp present
      simp [known]
    · simp
  · exact order?_snoc s.edges e q

theorem order?_union (s t : EdgeSet) (q : Probe) :
    (s.union t).order? q = (s.order? q).or (t.order? q) := by
  obtain ⟨edges⟩ := t
  unfold union
  induction edges generalizing s with
  | nil => simp [order?_nil]
  | cons e edges ih =>
    rw [List.foldl_cons, ih, order?_insert, order?_cons, Option.or_assoc]
    split <;> simp

theorem order?_map (s : EdgeSet) (f : Order → Order) (q : Probe) :
    (s.map f).order? q = (s.order? q).map f := by
  obtain ⟨edges⟩ := s
  induction edges with
  | nil => rfl
  | cons e edges ih =>
    simp only [map, List.map_cons] at ih ⊢
    rw [order?_cons, order?_cons]
    split
    · simp
    · exact ih

theorem isEmpty_iff : s.isEmpty = true ↔ ∀ q, s.order? q = none := by
  obtain ⟨edges⟩ := s
  constructor
  · intro empty q
    obtain rfl : edges = [] := List.isEmpty_iff.mp empty
    exact order?_nil q
  · intro none
    cases edges with
    | nil => rfl
    | cons e edges =>
      have first := none e.probe
      simp [order?_cons] at first

theorem mem_probes {q : Probe} : q ∈ s.probes ↔ (s.order? q).isSome = true := by
  simp [probes, order?, find?]

theorem nodup_snoc (h : s.probes.Nodup) {e : Edge} (absent : ¬s.contains e.probe = true) :
    (⟨s.edges ++ [e]⟩ : EdgeSet).probes.Nodup := by
  rw [contains_eq, ← mem_probes] at absent
  rw [← List.concat_eq_append, probes, List.map_concat]
  exact h.concat absent

theorem nodup_insert (h : s.probes.Nodup) (e : Edge) : (s.insert e).probes.Nodup := by
  unfold insert
  split
  · exact h
  · rename_i absent
    exact nodup_snoc h absent

theorem nodup_union (h : s.probes.Nodup) (t : EdgeSet) : (s.union t).probes.Nodup := by
  unfold union
  induction t.edges generalizing s with
  | nil => exact h
  | cons e edges ih => exact ih (nodup_insert h e)

def joinOrders : Option Order → Option Order → Option Order
  | some a, some b => some (a.join b)
  | some a, none => some a
  | none, b => b

theorem order?_joinInto (edges : List Edge) (e : Edge) (q : Probe) :
      (⟨edges.map (joinInto e)⟩ : EdgeSet).order? q =
      ((⟨edges⟩ : EdgeSet).order? q).map fun o => if e.probe = q then o.join e.order else o := by
  induction edges with
  | nil => rfl
  | cons a edges ih =>
    have kept : (joinInto e a).probe = a.probe := by
      unfold joinInto
      split <;> rfl
    rw [List.map_cons, order?_cons, order?_cons, kept, ih]
    split
    · rename_i same
      subst same
      by_cases met : a.probe = e.probe
      · simp [joinInto, met]
      · simp [joinInto, met, Ne.symm met]
    · rfl

theorem order?_widen (s : EdgeSet) (e : Edge) (q : Probe) : (s.widen e).order? q =
      joinOrders (s.order? q) (if e.probe = q then some e.order else none) := by
  unfold widen
  split
  · rename_i present
    rw [contains_eq] at present
    rw [order?_joinInto]
    by_cases same : e.probe = q
    · subst same
      obtain ⟨o, known⟩ := Option.isSome_iff_exists.mp present
      simp [known, joinOrders]
    · cases s.order? q <;> simp [same, joinOrders]
  · rename_i absent
    rw [contains_eq] at absent
    rw [order?_snoc]
    by_cases same : e.probe = q
    · subst same
      cases known : s.order? e.probe with
      | some o => simp [known] at absent
      | none => simp [joinOrders]
    · cases s.order? q <;> simp [same, joinOrders]

theorem joinOrders_none (a : Option Order) : joinOrders a none = a := by cases a <;> rfl

theorem order?_widenAll (s : EdgeSet) {t : EdgeSet} (h : t.probes.Nodup) (q : Probe) :
    (s.widenAll t).order? q = joinOrders (s.order? q) (t.order? q) := by
  obtain ⟨edges⟩ := t
  unfold widenAll
  induction edges generalizing s with
  | nil => rw [order?_nil, joinOrders_none]; rfl
  | cons e edges ih =>
    simp only [probes, List.map_cons, List.nodup_cons] at h ih
    rw [List.foldl_cons, ih (s.widen e) h.2, order?_widen, order?_cons]
    split
    · rename_i same
      subst same
      have gone : (⟨edges⟩ : EdgeSet).order? e.probe = none := by
        rw [← Option.not_isSome_iff_eq_none, ← mem_probes]
        exact h.1
      rw [gone, joinOrders_none]
    · rw [joinOrders_none]

theorem nodup_widen (h : s.probes.Nodup) (e : Edge) : (s.widen e).probes.Nodup := by
  unfold widen
  split
  · have kept : (⟨s.edges.map (joinInto e)⟩ : EdgeSet).probes = s.probes := by
      simp only [probes, List.map_map]
      apply List.map_congr_left
      intro a _
      simp only [Function.comp, joinInto]
      split <;> rfl
    rw [kept]
    exact h
  · rename_i absent
    exact nodup_snoc h absent

theorem nodup_widenAll (h : s.probes.Nodup) (t : EdgeSet) : (s.widenAll t).probes.Nodup := by
  unfold widenAll
  induction t.edges generalizing s with
  | nil => exact h
  | cons e edges ih => exact ih (nodup_widen h e)

theorem widens_iff {e : Edge} :
    s.widens e = true ↔ joinOrders (s.order? e.probe) (some e.order) ≠ s.order? e.probe := by
  unfold widens order?
  cases s.find? e.probe with
  | none => simp [joinOrders]
  | some a =>
    have absorbed : a.order.join e.order = a.order ↔ e.order.le a.order = true := by
      rw [Order.join_comm, Order.join_eq_right]
    simp [joinOrders, absorbed]

end EdgeSet

namespace Summary

/-- The order of a probe, if the value depends on it. -/
def order? (s : Summary) (q : Probe) : Option Order := s.deps.order? q

theorem order?_plain (offset constant : Bool) (q : Probe) :
    (plain offset constant).order? q = none := rfl

theorem order?_enter (s source : Summary) (edges : EdgeSet) (q : Probe) :
    (s.enter source edges).order? q = (s.order? q).or (edges.order? q) :=
  EdgeSet.order?_union s.deps edges q

theorem mem_consumers_enter (s source : Summary) (edges : EdgeSet) (w : VariableId) :
    w ∈ (s.enter source edges).consumers.items ↔ w ∈ s.consumers.items ∨
    w ∈ source.consumers.items :=
  OrderedSet.mem_union

theorem hasDeps_iff {s : Summary} : s.hasDeps = true ↔ ∃ q, (s.order? q).isSome = true := by
  rw [hasDeps, Bool.not_eq_true', ← Bool.not_eq_true, EdgeSet.isEmpty_iff]
  simp only [not_forall, ← Option.not_isSome_iff_eq_none, not_not]
  rfl

theorem order?_foldl (f : EdgeSet → EdgeSet) (offset constant : Summary → Summary → Bool)
    (ss : List Summary) (r : Summary) (q : Probe) :
    (ss.foldl (fun r s => { r.enter s (f s.deps) with
      offset := offset r s, constant := constant r s }) r).order? q =
      (r.order? q).or (ss.findSome? fun s => (f s.deps).order? q) := by
  induction ss generalizing r with
  | nil => simp
  | cons s ss ih =>
    rw [List.foldl_cons, ih]
    have first := order?_enter r s (f s.deps) q
    simp only [order?, List.findSome?_cons] at first ⊢
    rw [first, Option.or_assoc]
    cases (f s.deps).order? q <;> simp

theorem mem_consumers_foldl (f : EdgeSet → EdgeSet) (offset constant : Summary → Summary → Bool)
    (ss : List Summary) (r : Summary) (w : VariableId) :
    w ∈ (ss.foldl (fun r s => { r.enter s (f s.deps) with
      offset := offset r s, constant := constant r s }) r).consumers.items ↔
      w ∈ r.consumers.items ∨ ∃ s ∈ ss, w ∈ s.consumers.items := by
  induction ss generalizing r with
  | nil => simp
  | cons s ss ih =>
    rw [List.foldl_cons, ih]
    have first := mem_consumers_enter r s (f s.deps) w
    simp only [List.mem_cons, exists_eq_or_imp] at first ⊢
    rw [first, or_assoc]

theorem order?_combine (ss : List Summary) (q : Probe) :
    (combine ss).order? q = ss.findSome? (·.order? q) :=
  order?_foldl id (fun r s => r.offset || s.offset) (fun r s => r.constant && s.constant) ss _ q

theorem mem_consumers_combine (ss : List Summary) (w : VariableId) :
    w ∈ (combine ss).consumers.items ↔ ∃ s ∈ ss, w ∈ s.consumers.items := by
  have whole := mem_consumers_foldl id (fun r s => r.offset || s.offset)
    (fun r s => r.constant && s.constant) ss (plain false true) w
  refine whole.trans ?_
  simp [plain, OrderedSet.empty]

theorem order?_uniform (o : Order) (ss : List Summary) (q : Probe) :
    (uniform o ss).order? q = ss.findSome? fun s => (s.order? q).map fun _ => o := by
  have whole := order?_foldl (·.map fun _ => o) (fun r _ => r.offset)
    (fun r s => r.constant && s.constant) ss (plain true true) q
  refine whole.trans ?_
  simp only [order?_plain, Option.none_or, EdgeSet.order?_map]
  rfl

theorem mem_consumers_uniform (o : Order) (ss : List Summary) (w : VariableId) :
    w ∈ (uniform o ss).consumers.items ↔ ∃ s ∈ ss, w ∈ s.consumers.items := by
  have whole := mem_consumers_foldl (·.map fun _ => o) (fun r _ => r.offset)
    (fun r s => r.constant && s.constant) ss (plain true true) w
  refine whole.trans ?_
  simp [plain, OrderedSet.empty]

theorem offset_combine (ss : List Summary) :
    (combine ss).offset = (ss.map offset).foldl (· || ·) false := by
  rw [List.foldl_map]
  exact (List.foldl_hom offset fun _ _ => rfl).symm

theorem constant_combine (ss : List Summary) :
    (combine ss).constant = (ss.map constant).foldl (· && ·) true := by
  rw [List.foldl_map]
  exact (List.foldl_hom constant fun _ _ => rfl).symm

theorem constant_uniform (o : Order) (ss : List Summary) :
    (uniform o ss).constant = (ss.map constant).foldl (· && ·) true := by
  rw [List.foldl_map]
  exact (List.foldl_hom constant fun _ _ => rfl).symm

theorem offset_uniform (o : Order) (ss : List Summary) : (uniform o ss).offset = true := by
  have kept : ∀ r : Summary, r.offset = true →
      (ss.foldl (fun r s => { r.enter s (s.deps.map fun _ => o) with
        constant := r.constant && s.constant }) r).offset = true := by
    induction ss with
    | nil => exact fun _ h => h
    | cons s ss ih => exact fun r h => ih _ h
  exact kept _ rfl

theorem order?_multiply (l r : Summary) (q : Probe) : (multiply l r).order? q =
      ((l.order? q).map fun o => if r.hasDeps then o.raise else o).or
        ((r.order? q).map fun o => if l.hasDeps then o.raise else o) := by
  unfold multiply
  rw [order?_enter, order?_enter, order?_plain, Option.none_or]
  congr 1
  · cases r.hasDeps <;> simp [EdgeSet.order?_map, order?]
  · cases l.hasDeps <;> simp [EdgeSet.order?_map, order?]

theorem order?_divide (num den : Summary) (q : Probe) : (divide num den).order? q =
      ((num.order? q).map fun o => if den.hasDeps then .any else o).or
        ((den.order? q).map fun o => if den.hasDeps then .any else o) := by
  unfold divide
  rw [order?_enter, order?_enter, order?_plain, Option.none_or]
  cases den.hasDeps <;> simp [EdgeSet.order?_map, order?]

theorem order?_select (cond thn els : Summary) (q : Probe) : (select cond thn els).order? q =
      ((thn.order? q).or (els.order? q)).or ((cond.order? q).map fun _ => .none) := by
  unfold select
  rw [order?_enter, order?_enter, order?_enter, order?_plain, Option.none_or, EdgeSet.order?_map]
  rfl

theorem isSome_order?_combine (ss : List Summary) (q : Probe) :
    ((combine ss).order? q).isSome = ss.any fun s => (s.order? q).isSome := by
  rw [order?_combine, List.isSome_findSome?]

theorem isSome_order?_uniform (o : Order) (ss : List Summary) (q : Probe) :
    ((uniform o ss).order? q).isSome = ss.any fun s => (s.order? q).isSome := by
  rw [order?_uniform, List.isSome_findSome?]
  simp

theorem isSome_order?_multiply (l r : Summary) (q : Probe) :
    ((multiply l r).order? q).isSome = ((l.order? q).isSome || (r.order? q).isSome) := by
  simp [order?_multiply]

theorem isSome_order?_divide (num den : Summary) (q : Probe) :
    ((divide num den).order? q).isSome = ((num.order? q).isSome || (den.order? q).isSome) := by
  simp [order?_divide]

theorem isSome_order?_select (cond thn els : Summary) (q : Probe) :
      ((select cond thn els).order? q).isSome =
      ((thn.order? q).isSome || (els.order? q).isSome || (cond.order? q).isSome) := by
  simp [order?_select]

theorem hasDeps_combine (ss : List Summary) : (combine ss).hasDeps = ss.any hasDeps := by
  rw [Bool.eq_iff_iff, hasDeps_iff]
  simp only [isSome_order?_combine, List.any_eq_true, hasDeps_iff]
  exact ⟨fun ⟨q, s, mem, h⟩ => ⟨s, mem, q, h⟩, fun ⟨s, mem, q, h⟩ => ⟨q, s, mem, h⟩⟩

theorem hasDeps_uniform (o : Order) (ss : List Summary) :
    (uniform o ss).hasDeps = ss.any hasDeps := by
  rw [Bool.eq_iff_iff, hasDeps_iff]
  simp only [isSome_order?_uniform, List.any_eq_true, hasDeps_iff]
  exact ⟨fun ⟨q, s, mem, h⟩ => ⟨s, mem, q, h⟩, fun ⟨s, mem, q, h⟩ => ⟨q, s, mem, h⟩⟩

theorem hasDeps_multiply (l r : Summary) : (multiply l r).hasDeps = (l.hasDeps || r.hasDeps) := by
  rw [Bool.eq_iff_iff, Bool.or_eq_true, hasDeps_iff, hasDeps_iff, hasDeps_iff, ← exists_or]
  simp only [isSome_order?_multiply, Bool.or_eq_true]

theorem hasDeps_divide (num den : Summary) :
    (divide num den).hasDeps = (num.hasDeps || den.hasDeps) := by
  rw [Bool.eq_iff_iff, Bool.or_eq_true, hasDeps_iff, hasDeps_iff, hasDeps_iff, ← exists_or]
  simp only [isSome_order?_divide, Bool.or_eq_true]

theorem hasDeps_select (cond thn els : Summary) :
    (select cond thn els).hasDeps = (thn.hasDeps || els.hasDeps || cond.hasDeps) := by
  rw [Bool.eq_iff_iff, Bool.or_eq_true, Bool.or_eq_true, hasDeps_iff, hasDeps_iff, hasDeps_iff,
    hasDeps_iff, ← exists_or, ← exists_or]
  simp only [isSome_order?_select, Bool.or_eq_true]

/-- What a filter depends on: the potential of its internal branch, and what its arguments read. -/
def ofFilter (b : BranchId) (args : List Summary) : Summary :=
  { combine [.ofProbe ⟨b, .potential⟩, combine args] with offset := false, constant := false }

structure Respects {α : Type} (view : Summary → α) : Prop where
  combine : ∀ {ss ts : List Summary}, ss.map view = ts.map view →
    view (combine ss) = view (combine ts)
  uniform : ∀ {ss ts : List Summary} (o : Order), ss.map view = ts.map view →
    view (uniform o ss) = view (uniform o ts)
  multiply : ∀ {a b c d : Summary}, view a = view c → view b = view d →
    view (multiply a b) = view (multiply c d)
  divide : ∀ {a b c d : Summary}, view a = view c → view b = view d →
    view (divide a b) = view (divide c d)
  select : ∀ {a b c d e f : Summary}, view a = view d → view b = view e → view c = view f →
    view (select a b c) = view (select d e f)
  unflagged : ∀ {s t : Summary}, view s = view t →
    view { s with offset := false, constant := false } =
      view { t with offset := false, constant := false }
  addConsumer : ∀ {s t : Summary} (v : VariableId), view s = view t →
    view (s.addConsumer v) = view (t.addConsumer v)

theorem respects_offset : Respects offset where
  combine h := by rw [offset_combine, offset_combine, h]
  uniform o _ := by rw [offset_uniform, offset_uniform]
  multiply ha hb := by
    show (_ && _) = (_ && _)
    rw [ha, hb]
  divide ha _ := ha
  select _ hb hc := by
    show (_ || _) = (_ || _)
    rw [hb, hc]
  unflagged _ := rfl
  addConsumer _ h := h

theorem respects_constant : Respects constant where
  combine h := by rw [constant_combine, constant_combine, h]
  uniform o h := by rw [constant_uniform, constant_uniform, h]
  multiply ha hb := by
    show (_ && _) = (_ && _)
    rw [ha, hb]
  divide ha hb := by
    show (_ && _) = (_ && _)
    rw [ha, hb]
  select ha _ _ := ha
  unflagged _ := rfl
  addConsumer _ h := h

theorem map_of_map {α β γ : Type} {view : α → β} {ss ts : List α} (f : β → γ)
    (h : ss.map view = ts.map view) : ss.map (fun s => f (view s)) = ts.map fun s =>
    f (view s) := by
  have seen := congrArg (List.map f) h
  rwa [List.map_map, List.map_map] at seen

theorem any_of_map {α : Type} {view : α → Bool} {ss ts : List α} (h : ss.map view = ts.map view) :
    ss.any view = ts.any view := by
  have seen := congrArg (List.any · id) h
  simpa [List.any_map] using seen

def readsFrom (w : VariableId) (s : Summary) : Bool := decide (w ∈ s.consumers.items)

theorem readsFrom_enter (w : VariableId) (s source : Summary) (edges : EdgeSet) :
    (s.enter source edges).readsFrom w = (s.readsFrom w || source.readsFrom w) := by
  simp [readsFrom, mem_consumers_enter]

theorem readsFrom_combine (w : VariableId) (ss : List Summary) :
    (combine ss).readsFrom w = ss.any (·.readsFrom w) := by
  rw [Bool.eq_iff_iff]
  simp [readsFrom, mem_consumers_combine]

theorem readsFrom_uniform (w : VariableId) (o : Order) (ss : List Summary) :
    (uniform o ss).readsFrom w = ss.any (·.readsFrom w) := by
  rw [Bool.eq_iff_iff]
  simp [readsFrom, mem_consumers_uniform]

theorem respects_readsFrom (w : VariableId) : Respects (·.readsFrom w) where
  combine h := by
    rw [readsFrom_combine, readsFrom_combine]
    exact any_of_map h
  uniform o h := by
    rw [readsFrom_uniform, readsFrom_uniform]
    exact any_of_map h
  multiply ha hb := by simp only [Summary.multiply, readsFrom_enter, ha, hb]; rfl
  divide ha hb := by simp only [Summary.divide, readsFrom_enter, ha, hb]; rfl
  select ha hb hc := by simp only [Summary.select, readsFrom_enter, ha, hb, hc]; rfl
  unflagged h := h
  addConsumer v h := by
    simp only [readsFrom, Summary.addConsumer, OrderedSet.mem_insert, decide_eq_decide] at h ⊢
    rw [h]

/-- Whether a value depends on a probe. -/
def dependsOn (q : Probe) (s : Summary) : Bool := (s.order? q).isSome

theorem respects_dependsOn (q : Probe) : Respects (·.dependsOn q) where
  combine h := by
    simp only [dependsOn, isSome_order?_combine]
    exact any_of_map h
  uniform o h := by
    simp only [dependsOn, isSome_order?_uniform]
    exact any_of_map h
  multiply ha hb := by
    simp only [dependsOn, isSome_order?_multiply] at ha hb ⊢
    rw [ha, hb]
  divide ha hb := by
    simp only [dependsOn, isSome_order?_divide] at ha hb ⊢
    rw [ha, hb]
  select ha hb hc := by
    simp only [dependsOn, isSome_order?_select] at ha hb hc ⊢
    rw [ha, hb, hc]
  unflagged h := h
  addConsumer _ h := h

def orderView (q : Probe) (s : Summary) : Option Order × Bool := (s.order? q, s.hasDeps)

theorem findSome?_of_map {α β : Type} {view : α → Option β} {ss ts : List α}
    (h : ss.map view = ts.map view) : ss.findSome? view = ts.findSome? view := by
  have seen := congrArg (List.findSome? id) h
  simpa [List.findSome?_map] using seen

theorem respects_orderView (q : Probe) : Respects (·.orderView q) where
  combine {ss ts} h := by
    have orders : ss.map (·.order? q) = ts.map (·.order? q) := map_of_map Prod.fst h
    have some : ss.map hasDeps = ts.map hasDeps := map_of_map Prod.snd h
    simp only [orderView, order?_combine, hasDeps_combine, Prod.mk.injEq]
    exact ⟨findSome?_of_map orders, any_of_map some⟩
  uniform {ss ts} o h := by
    have orders : ss.map (fun s => (s.order? q).map fun _ => o) =
        ts.map (fun s => (s.order? q).map fun _ => o) := map_of_map (·.1.map fun _ => o) h
    have some : ss.map hasDeps = ts.map hasDeps := map_of_map Prod.snd h
    simp only [orderView, order?_uniform, hasDeps_uniform, Prod.mk.injEq]
    exact ⟨findSome?_of_map orders, any_of_map some⟩
  multiply ha hb := by
    simp only [orderView, Prod.mk.injEq] at ha hb
    simp only [orderView, order?_multiply, hasDeps_multiply, ha, hb]
  divide ha hb := by
    simp only [orderView, Prod.mk.injEq] at ha hb
    simp only [orderView, order?_divide, hasDeps_divide, ha, hb]
  select ha hb hc := by
    simp only [orderView, Prod.mk.injEq] at ha hb hc
    simp only [orderView, order?_select, hasDeps_select, ha, hb, hc]
  unflagged h := h
  addConsumer _ h := h

end Summary
end Analog
