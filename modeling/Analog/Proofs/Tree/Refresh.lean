import Analog.Proofs.Tree.BuiltSummaries
import Analog.Resolve

/-!
Trees read anew. A tree is refreshed by reading its variables again and computing every summary
anew; its shape stays. Whoever looks at the shape alone does the same with a refreshed tree: the
simplifier commutes with it. What is seen of a refreshed tree depends only on what is seen of the
variables.
-/
namespace Analog

namespace Summary

theorem nodup_enter {s : Summary} (tidy : s.deps.probes.Nodup) (source : Summary)
    (edges : EdgeSet) : (s.enter source edges).deps.probes.Nodup := EdgeSet.nodup_union tidy edges

theorem nodup_foldl {f : Summary → Summary → Summary}
    (keeps : ∀ r s, r.deps.probes.Nodup → (f r s).deps.probes.Nodup)
    (ss : List Summary) {r : Summary}
    (tidy : r.deps.probes.Nodup) : (ss.foldl f r).deps.probes.Nodup := by
  induction ss generalizing r with
  | nil => exact tidy
  | cons s ss ih => exact ih (keeps r s tidy)

theorem nodup_plain (offset constant : Bool) : (plain offset constant).deps.probes.Nodup :=
  List.nodup_nil

theorem nodup_combine (ss : List Summary) : (combine ss).deps.probes.Nodup := by
  refine nodup_foldl ?_ ss (nodup_plain false true)
  intro r s tidy
  exact nodup_enter tidy s s.deps

theorem nodup_uniform (o : Order) (ss : List Summary) : (uniform o ss).deps.probes.Nodup := by
  refine nodup_foldl ?_ ss (nodup_plain true true)
  intro r s tidy
  exact nodup_enter tidy s _

theorem nodup_select (cond thn els : Summary) : (select cond thn els).deps.probes.Nodup :=
  nodup_enter (nodup_enter (nodup_enter (nodup_plain _ _) _ _) _ _) _ _

theorem nodup_ofUnary (op : UnaryOp) (s : Summary) : (ofUnary op s).deps.probes.Nodup := by
  cases op with
  | neg => exact nodup_combine _
  | not => exact nodup_uniform _ _

theorem nodup_ofBinary (op : BinaryOp) (l r : Summary) : (ofBinary op l r).deps.probes.Nodup := by
  unfold ofBinary
  split
  · exact nodup_combine _
  · split
    · exact nodup_enter (nodup_enter (nodup_plain _ _) _ _) _ _
    · split
      · exact nodup_enter (nodup_enter (nodup_plain _ _) _ _) _ _
      · split <;> exact nodup_uniform _ _

theorem nodup_function (f : Function) (args : List Summary) :
    (f.summary args).deps.probes.Nodup := by
  unfold Function.summary
  split
  · exact nodup_combine _
  · exact nodup_plain _ _
  · exact nodup_uniform _ _

end Summary

namespace Tree

mutual

def refresh (read : VariableId → Summary) : Tree → Tree
  | .literal v o => .literal v o
  | .parameter p => .parameter p
  | .variable v _ => .variable v (read v.id)
  | .declaration v init => .declaration v (init.refresh read)
  | .access q => .access q
  | .node i => .node i
  | .port i => .port i
  | .unary op x _ => Simplify.plainUnary op (x.refresh read)
  | .binary op l r _ => Simplify.plainBinary op (l.refresh read) (r.refresh read)
  | .ternary c t e _ =>
    .ternary (c.refresh read) (t.refresh read) (e.refresh read)
      (.select (c.refresh read).summary (t.refresh read).summary (e.refresh read).summary)
  | .call function args none _ =>
    .call function (refreshAll read args) none
      (match Function.find? function with
        | some f => f.summary (summaries (refreshAll read args))
        | none => .fixed false)
  | .call function args (some b) _ =>
    .call function (refreshAll read args) (some b) (.ofFilter b (summaries (refreshAll read args)))
  | .arguments items => .arguments (refreshAll read items)
  | .marker => .marker
  | .deferred name => .deferred name

def refreshAll (read : VariableId → Summary) : List Tree → List Tree
  | [] => []
  | t :: ts => t.refresh read :: refreshAll read ts

end

variable {read : VariableId → Summary}

theorem refreshAll_eq_map (ts : List Tree) : refreshAll read ts = ts.map (refresh read) := by
  induction ts with
  | nil => rfl
  | cons t ts ih => rw [refreshAll, ih, List.map_cons]

mutual

theorem refresh_of_built {nodes : Nat} (t : Tree) (h : t.Built read nodes) :
    t.refresh read = t := by
  cases t with
  | literal | parameter | access | node | port | marker | deferred => rfl
  | «variable» v s => rw [refresh, show s = read v.id from h]
  | declaration => exact h.elim
  | unary op x s =>
    obtain ⟨built, rfl⟩ := h
    rw [refresh, refresh_of_built x built]
    rfl
  | binary op l r s =>
    obtain ⟨left, right, rfl⟩ := h
    rw [refresh, refresh_of_built l left, refresh_of_built r right]
    rfl
  | ternary c t e s =>
    obtain ⟨cond, thn, els, rfl⟩ := h
    rw [refresh, refresh_of_built c cond, refresh_of_built t thn, refresh_of_built e els]
  | call function args filter s =>
    cases filter with
    | none =>
      obtain ⟨built, f, found, rfl, _⟩ := h
      rw [refresh, refreshAll_of_built args built, found]
    | some b =>
      obtain ⟨built, rfl⟩ := h
      rw [refresh, refreshAll_of_built args built]
  | arguments items => rw [refresh, refreshAll_of_built items h]

theorem refreshAll_of_built {nodes : Nat} (ts : List Tree) (h : BuiltAll read nodes ts) :
    refreshAll read ts = ts := by
  cases ts with
  | nil => rfl
  | cons t ts => rw [refreshAll, refresh_of_built t h.1, refreshAll_of_built ts h.2]

end

mutual

theorem refresh_refresh {before : VariableId → Summary} (t : Tree) :
    (t.refresh before).refresh read = t.refresh read := by
  cases t with
  | literal | parameter | «variable» | access | node | port | marker | deferred => rfl
  | declaration v init => simp only [refresh, refresh_refresh init]
  | unary op x s => simp only [refresh, Simplify.plainUnary, refresh_refresh x]
  | binary op l r s =>
    simp only [refresh, Simplify.plainBinary, refresh_refresh l, refresh_refresh r]
  | ternary c t e s => simp only [refresh, refresh_refresh c, refresh_refresh t, refresh_refresh e]
  | call function args filter s =>
    cases filter with
    | none | some b => simp only [refresh, refreshAll_refreshAll args]
  | arguments items => simp only [refresh, refreshAll_refreshAll items]

theorem refreshAll_refreshAll {before : VariableId → Summary} (ts : List Tree) :
    refreshAll read (refreshAll before ts) = refreshAll read ts := by
  cases ts with
  | nil => rfl
  | cons t ts => simp only [refreshAll, refresh_refresh t, refreshAll_refreshAll ts]

end

section Views

variable {α : Type} {view : Summary → α} {first second : VariableId → Summary}

theorem view_ofUnary (respects : Summary.Respects view) (op : UnaryOp) {s t : Summary}
    (same : view s = view t) : view (.ofUnary op s) = view (.ofUnary op t) := by
  cases op with
  | neg => exact respects.combine (by simp [same])
  | not => exact respects.uniform .none (by simp [same])

theorem view_ofBinary (respects : Summary.Respects view) (op : BinaryOp) {a b c d : Summary}
    (left : view a = view c) (right : view b = view d) :
    view (.ofBinary op a b) = view (.ofBinary op c d) := by
  have both : [a, b].map view = [c, d].map view := by simp [left, right]
  unfold Summary.ofBinary
  split
  · exact respects.combine both
  · split
    · exact respects.multiply left right
    · split
      · exact respects.divide left right
      · split
        · exact respects.uniform .none both
        · exact respects.uniform .any both

theorem view_function (respects : Summary.Respects view) (f : Function) {ss ts : List Summary}
    (same : ss.map view = ts.map view) : view (f.summary ss) = view (f.summary ts) := by
  unfold Function.summary
  split
  · exact respects.combine (by simp [same])
  · rfl
  · exact respects.uniform .any same

theorem view_ofFilter (respects : Summary.Respects view) (b : BranchId) {ss ts : List Summary}
    (same : ss.map view = ts.map view) : view (.ofFilter b ss) = view (.ofFilter b ts) :=
  respects.unflagged (respects.combine (by simp [respects.combine same]))

mutual

theorem view_refresh (respects : Summary.Respects view)
    (same : ∀ v, view (first v) = view (second v))
    (t : Tree) : view (t.refresh first).summary = view (t.refresh second).summary := by
  cases t with
  | literal | parameter | access | node | port | marker | deferred => rfl
  | «variable» v s => exact same v.id
  | declaration v init => exact view_refresh respects same init
  | unary op x s => exact view_ofUnary respects op (view_refresh respects same x)
  | binary op l r s =>
    exact view_ofBinary respects op (view_refresh respects same l) (view_refresh respects same r)
  | ternary c t e s =>
    exact respects.select (view_refresh respects same c) (view_refresh respects same t)
      (view_refresh respects same e)
  | call function args filter s =>
    have inner := view_refreshAll respects same args
    cases filter with
    | none =>
      simp only [refresh, summary]
      cases Function.find? function with
      | none => rfl
      | some f => exact view_function respects f inner
    | some b => exact view_ofFilter respects b inner
  | arguments items => exact respects.combine (view_refreshAll respects same items)

theorem view_refreshAll (respects : Summary.Respects view)
    (same : ∀ v, view (first v) = view (second v)) (ts : List Tree) :
    (summaries (refreshAll first ts)).map view = (summaries (refreshAll second ts)).map view := by
  cases ts with
  | nil => rfl
  | cons t ts =>
    simp only [refreshAll, summaries, List.map_cons, view_refresh respects same t,
      view_refreshAll respects same ts]

end

end Views

theorem nodup_refresh (tidy : ∀ v, (read v).deps.probes.Nodup) (t : Tree) :
    (t.refresh read).summary.deps.probes.Nodup := by
  cases t with
  | literal | parameter | node | port | marker | deferred => exact List.nodup_nil
  | access q => exact List.nodup_singleton _
  | «variable» v s => exact tidy v.id
  | declaration v init => exact nodup_refresh tidy init
  | unary op x s => exact Summary.nodup_ofUnary op _
  | binary op l r s => exact Summary.nodup_ofBinary op _ _
  | ternary c t e s => exact Summary.nodup_select _ _ _
  | call function args filter s =>
    cases filter with
    | none =>
      simp only [refresh, summary]
      cases Function.find? function with
      | none => exact List.nodup_nil
      | some f => exact Summary.nodup_function f _
    | some b => exact Summary.nodup_combine _
  | arguments items => exact Summary.nodup_combine _

section Shape

theorem valueFault?_refresh (c : Circuit) (t : Tree) :
    (t.refresh read).valueFault? c = t.valueFault? c := by
  cases t with
  | call function args filter s => cases filter <;> rfl
  | _ => rfl

theorem isMarker_refresh (t : Tree) : (t.refresh read).isMarker = t.isMarker := by
  cases t with
  | call function args filter s => cases filter <;> rfl
  | _ => rfl

theorem refresh_eq_literal {t : Tree} {v : Value} {o : Option Symbol} :
    t.refresh read = .literal v o ↔ t = .literal v o := by
  cases t with
  | literal => rfl
  | call function args filter s => cases filter <;> simp [refresh]
  | _ => simp [refresh, Simplify.plainUnary, Simplify.plainBinary]

end Shape

end Tree

namespace Simplify

variable {read : VariableId → Summary}

theorem refresh_unary (op : UnaryOp) (x : Tree) :
    (unary op x).refresh read = unary op (x.refresh read) := by
  cases x with
  | literal v o =>
    simp only [Tree.refresh, unary]
    split
    · rfl
    · rfl
  | unary inner y s => cases op <;> cases inner <;> rfl
  | call function args filter s => cases filter <;> cases op <;> rfl
  | _ => cases op <;> rfl

def Simplified.refresh (read : VariableId → Summary) (s : Simplified) : Simplified :=
  ⟨s.tree.refresh read, s.dropped.map (Tree.refresh read)⟩

theorem unnoticed_refresh : Unnoticed (Tree.refresh read) id where
  literal _ _ := rfl
  fresh := rfl
  plain _ _ _ := rfl
  binary _ _ _ _ := ⟨_, rfl⟩
  of_literal _ _ o same := ⟨o, Tree.refresh_eq_literal.mp same⟩
  of_binary t op l r s same := by
    cases t with
    | binary inner l' r' s' =>
      simp only [Tree.refresh, plainBinary, Tree.binary.injEq] at same
      obtain ⟨rfl, _, right, _⟩ := same
      exact ⟨l', r', s', rfl, right⟩
    | call function args filter s' => cases filter <;> cases same
    | _ => cases same

theorem refresh_binary (op : BinaryOp) (l r : Tree) :
    Simplified.refresh read (binary op l r) = binary op (l.refresh read) (r.refresh read) :=
  unnoticed_refresh.simplified op l r

end Simplify

namespace Function

variable {read : VariableId → Summary}

theorem literals?_refresh (args : List Tree) :
    literals? (Tree.refreshAll read args) = literals? args := by
  induction args with
  | nil => rfl
  | cons t ts ih =>
    cases t with
    | literal v o => simp only [Tree.refreshAll, Tree.refresh, literals?, ih]
    | call function args filter s => cases filter <;> rfl
    | _ => rfl

theorem fold?_refresh (f : Function) (args : List Tree) :
    f.fold? (Tree.refreshAll read args) = f.fold? args := by
  simp only [fold?, literals?_refresh]

end Function
end Analog
