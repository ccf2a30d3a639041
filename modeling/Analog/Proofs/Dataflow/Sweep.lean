import Analog.Proofs.Summary.Gauge
import Analog.Statement.Update

/-!
Summaries that grow in rounds. A round computes the summary of one tree after the other from the
variables as they are by then, and each of them is absorbed by a variable or by what was seen of the
tree before. What is seen through a lens goes its own way: a round that changes nothing of it is the
last one that could. So flags and probes are settled after as many rounds as there are trees, and
orders, which have three steps to climb, after three times as many more.
-/
namespace Analog

def reading (env : VariableId → Summary) (v : VariableId) : Summary := (env v).addConsumer v

/-- A tree whose summary is computed in each round, and the variable that absorbs it, if there is
one. Otherwise the work keeps what was seen so far. -/
structure Work where
  tree : Tree
  target : Option VariableId
  seen : Option Summary

namespace Work

def found (env : VariableId → Summary) (w : Work) :
    Summary := (w.tree.refresh (reading env)).summary

def after (env : VariableId → Summary) (w : Work) : VariableId → Summary :=
  match w.target with
  | some v => Function.update env v ((env v).absorb (w.found env))
  | none => env

def done (env : VariableId → Summary) (w : Work) : Work :=
  match w.target with
  | some _ => w
  | none => { w with seen := some (accumulate w.seen (w.found env)).2 }

def changes (env : VariableId → Summary) (w : Work) : Bool :=
  match w.target with
  | some v => (env v).grows (w.found env)
  | none => (accumulate w.seen (w.found env)).1

def total (w : Work) : Summary := w.seen.getD (.fixed false)

def cell (env : VariableId → Summary) (w : Work) : Summary :=
  match w.target with
  | some v => env v
  | none => w.total

end Work

structure Flow where
  env : VariableId → Summary
  works : List Work

def sweep (env : VariableId → Summary) : List Work → Bool × Flow
  | [] => (false, ⟨env, []⟩)
  | w :: ws =>
    let rest := sweep (w.after env) ws
    (w.changes env || rest.1, ⟨rest.2.env, w.done env :: rest.2.works⟩)

def Flow.next (x : Flow) : Flow := (sweep x.env x.works).2

theorem sweep_append (env : VariableId → Summary) (ws us : List Work) : sweep env (ws ++ us) =
      ((sweep env ws).1 || (sweep (sweep env ws).2.env us).1,
          ⟨(sweep (sweep env ws).2.env us).2.env,
          (sweep env ws).2.works ++ (sweep (sweep env ws).2.env us).2.works⟩) := by
  induction ws generalizing env with
  | nil => simp [sweep]
  | cons w ws ih => simp [sweep, ih, Bool.or_assoc]

section Rounds

variable {α : Type} {view : Summary → α} {g : Summary → Nat} {env env' : VariableId → Summary}
  {w : Work} {ws us : List Work} {R : Work → Work → Prop}

theorem tidy_reading (tidy : ∀ v, (env v).Tidy) (v : VariableId) : (reading env v).Tidy := tidy v

theorem Work.tidy_found (tidy : ∀ v, (env v).Tidy) (w : Work) : (w.found env).Tidy :=
  Tree.nodup_refresh (tidy_reading tidy) w.tree

theorem Work.after_apply (w : Work) (v : VariableId) :
    w.after env v = if w.target = some v then (env v).absorb (w.found env) else env v := by
  unfold after
  cases target : w.target with
  | none => simp
  | some u =>
    by_cases same : v = u
    · subst same
      simp
    · have other : u ≠ v := fun h => same h.symm
      simp [Function.update_of_ne same, other]

theorem Work.tidy_after (tidy : ∀ v, (env v).Tidy) (w : Work) (v : VariableId) :
    (w.after env v).Tidy := by
  rw [w.after_apply]
  split
  · exact EdgeSet.nodup_widenAll (tidy v) _
  · exact tidy v

theorem tidy_sweep (tidy : ∀ v, (env v).Tidy) (ws : List Work) (v : VariableId) :
    ((sweep env ws).2.env v).Tidy := by
  induction ws generalizing env with
  | nil => exact tidy v
  | cons w ws ih => exact ih (w.tidy_after tidy)

theorem Work.tree_done (w : Work) : (w.done env).tree = w.tree := by
  unfold done
  split <;> rfl

theorem Work.target_done (w : Work) : (w.done env).target = w.target := by
  unfold done
  split <;> rfl

/-- Flows with the same works, of which `f` tells no difference. -/
structure Flow.Alike {β : Type} (f : Summary → β) (x y : Flow) : Prop where
  env : ∀ v, f (x.env v) = f (y.env v)
  works : List.Forall₂ (fun w u => u.tree = w.tree ∧ u.target = w.target ∧ f w.total = f u.total)
    x.works y.works

theorem Summary.Lens.found (lens : Summary.Lens view) {u : Work}
    (env_same : ∀ v, view (env v) = view (env' v)) (tree : u.tree = w.tree) :
    view (w.found env) = view (u.found env') := by
  unfold Work.found
  rw [tree]
  exact Tree.view_refresh lens.respects (fun v => lens.respects.addConsumer v (env_same v)) w.tree

theorem Summary.Lens.total_done (lens : Summary.Lens view) (tidy : ∀ v, (env v).Tidy)
    (free : w.target = none) : view (w.done env).total = view (w.total.absorb (w.found env)) := by
  unfold Work.done Work.total accumulate
  rw [free]
  cases w.seen with
  | none => exact (lens.start (w.tidy_found tidy) rfl).symm
  | some a => rfl

theorem Work.total_done {v : VariableId} (bound : w.target = some v) :
    (w.done env).total = w.total := by
  unfold done
  rw [bound]

theorem Summary.Lens.sweep (lens : Summary.Lens view) (tidy : ∀ v, (env v).Tidy)
    (tidy' : ∀ v, (env' v).Tidy) (env_same : ∀ v, view (env v) = view (env' v))
    (works : List.Forall₂ (fun w u => u.tree = w.tree ∧ u.target = w.target ∧
      view w.total = view u.total)
      ws us) : (Analog.sweep env ws).2.Alike view (Analog.sweep env' us).2 := by
  induction works generalizing env env' with
  | nil => exact ⟨env_same, .nil⟩
  | @cons w u ws us head _ ih =>
    obtain ⟨tree, target, totals⟩ := head
    have found := lens.found env_same tree
    have after : ∀ v, view (w.after env v) = view (u.after env' v) := by
      intro v
      rw [w.after_apply, u.after_apply, target]
      split
      · exact lens.absorb (w.tidy_found tidy) (u.tidy_found tidy') (env_same v) found
      · exact env_same v
    have rest := ih (w.tidy_after tidy) (u.tidy_after tidy') after
    refine ⟨rest.env, .cons ⟨?_, ?_, ?_⟩ rest.works⟩
    · rw [w.tree_done, u.tree_done, tree]
    · rw [w.target_done, u.target_done, target]
    · cases bound : w.target with
      | some v => rw [Work.total_done bound, Work.total_done (target.trans bound), totals]
      | none =>
        rw [lens.total_done tidy bound, lens.total_done tidy' (target.trans bound)]
        exact lens.absorb (w.tidy_found tidy) (u.tidy_found tidy') totals found

theorem Summary.Gauge.after (gauge : Summary.Gauge g) (tidy : ∀ v, (env v).Tidy) (w : Work)
    (v : VariableId) : g (env v) ≤ g (w.after env v) := by
  rw [w.after_apply]
  split
  · exact gauge.grows _ (w.tidy_found tidy)
  · exact Nat.le_refl _

theorem Summary.Gauge.total_done (gauge : Summary.Gauge g) (tidy : ∀ v, (env v).Tidy) (w : Work) :
    g w.total ≤ g (w.done env).total := by
  cases bound : w.target with
  | some v => rw [Work.total_done bound]
  | none =>
    unfold Work.done Work.total accumulate
    rw [bound]
    cases w.seen with
    | none =>
      simp only [Option.getD_none, gauge.start]
      exact Nat.zero_le _
    | some a => exact gauge.grows a (w.tidy_found tidy)

theorem Summary.Gauge.sweep_env (gauge : Summary.Gauge g) (tidy : ∀ v, (env v).Tidy)
    (ws : List Work) (v : VariableId) : g (env v) ≤ g ((sweep env ws).2.env v) := by
  induction ws generalizing env with
  | nil => exact Nat.le_refl _
  | cons w ws ih => exact Nat.le_trans (gauge.after tidy w v) (ih (w.tidy_after tidy))

structure Work.Grown (g : Summary → Nat) (w u : Work) : Prop where
  tree : u.tree = w.tree
  target : u.target = w.target
  total : g w.total ≤ g u.total
  kept : ∀ v, w.target = some v → u.total = w.total

theorem Summary.Gauge.sweep_works (gauge : Summary.Gauge g) (tidy : ∀ v, (env v).Tidy)
    (ws : List Work) : List.Forall₂ (Work.Grown g) ws (sweep env ws).2.works := by
  induction ws generalizing env with
  | nil => exact .nil
  | cons w ws ih =>
    have head : Work.Grown g w (w.done env) :=
      ⟨w.tree_done, w.target_done, gauge.total_done tidy w, fun _ => Work.total_done⟩
    exact .cons head (ih (w.tidy_after tidy))

theorem sweep_env_of_not_target {v : VariableId} (other : ∀ w ∈ ws, w.target ≠ some v) :
    (sweep env ws).2.env v = env v := by
  induction ws generalizing env with
  | nil => rfl
  | cons w ws ih =>
    have rest : (sweep (w.after env) ws).2.env v = w.after env v :=
      ih fun u mem => other u (List.mem_cons_of_mem w mem)
    refine rest.trans ?_
    rw [w.after_apply, if_neg (other w List.mem_cons_self)]

def Flow.measure (g : Summary → Nat) (x : Flow) : Nat := (x.works.map fun w => g (w.cell x.env)).sum

theorem Flow.measure_le {m : Nat} (bound : ∀ s, g s ≤ m) (x : Flow) :
    x.measure g ≤ x.works.length * m := by
  unfold measure
  induction x.works with
  | nil => simp
  | cons w ws ih =>
    simp only [List.map_cons, List.sum_cons, List.length_cons, Nat.succ_mul]
    have first := bound (w.cell x.env)
    omega

theorem same_or_sum_lt {f h : Work → Nat} (related : List.Forall₂ R ws us)
    (le : ∀ w u, R w u → f w ≤ h u) :
    List.Forall₂ (fun w u => R w u ∧ f w = h u) ws us ∨ (ws.map f).sum < (us.map h).sum := by
  have sums : ∀ {ws us : List Work}, List.Forall₂ R ws us → (ws.map f).sum ≤ (us.map h).sum := by
    intro ws us related
    induction related with
    | nil => exact Nat.le_refl _
    | cons head _ ih =>
      have first := le _ _ head
      simp only [List.map_cons, List.sum_cons]
      omega
  induction related with
  | nil => exact .inl .nil
  | @cons w u ws us head tail ih =>
    have first := le _ _ head
    have rest := sums tail
    simp only [List.map_cons, List.sum_cons]
    by_cases same : f w = h u
    · rcases ih with alike | less
      · exact .inl (.cons ⟨head, same⟩ alike)
      · right
        omega
    · right
      omega

theorem forall₂_left (h : List.Forall₂ R ws us) (mem : w ∈ ws) : ∃ u, R w u := by
  induction h with
  | nil => cases mem
  | cons head _ ih =>
    rcases List.mem_cons.mp mem with rfl | mem
    · exact ⟨_, head⟩
    · exact ih mem

theorem forall₂_and {S : Work → Work → Prop} (first : List.Forall₂ R ws us)
    (second : List.Forall₂ S ws us) : List.Forall₂ (fun w u => R w u ∧ S w u) ws us := by
  induction first with
  | nil => exact .nil
  | cons head _ ih =>
    cases second with
    | cons head' tail' => exact .cons ⟨head, head'⟩ (ih tail')

theorem Summary.Gauge.climbs (gauge : Summary.Gauge g) {x : Flow} (tidy : ∀ v, (x.env v).Tidy) :
    x.Alike g x.next ∨ x.measure g < x.next.measure g := by
  have env := gauge.sweep_env tidy x.works
  have works := gauge.sweep_works tidy x.works
  have cells : ∀ w u : Work, w.Grown g u → g (w.cell x.env) ≤ g (u.cell x.next.env) := by
    intro w u grown
    unfold Work.cell
    rw [grown.target]
    cases w.target with
    | some v => exact env v
    | none => exact grown.total
  rcases same_or_sum_lt works cells with level | less
  · left
    constructor
    · intro v
      by_cases targeted : ∃ w ∈ x.works, w.target = some v
      · obtain ⟨w, mem, bound⟩ := targeted
        obtain ⟨u, grown, same⟩ := forall₂_left level mem
        unfold Work.cell at same
        rw [grown.target, bound] at same
        exact same
      · have other : ∀ w ∈ x.works, w.target ≠ some v := fun w mem bound => targeted ⟨w, mem, bound⟩
        exact congrArg g (sweep_env_of_not_target other).symm
    · refine level.imp ?_
      rintro w u ⟨grown, same⟩
      refine ⟨grown.tree, grown.target, ?_⟩
      unfold Work.cell at same
      rw [grown.target] at same
      cases bound : w.target with
      | some v => rw [grown.kept v bound]
      | none =>
        rw [bound] at same
        exact same
  · exact .inr less

end Rounds

theorem rests {P : Nat → Prop} {rank : Nat → Nat} {start bound : Nat}
    (bounded : ∀ n, rank n ≤ bound)
    (stays : ∀ n, P n → P (n + 1)) (climbs : ∀ n, start ≤ n → P n ∨ rank n < rank (n + 1)) :
    ∀ n, start + bound ≤ n → P n := by
  have onward : ∀ m n, m ≤ n → P m → P n := by
    intro m n le stopped
    induction n, le using Nat.le_induction with
    | base => exact stopped
    | succ n _ ih => exact stays n ih
  have rest : P (start + bound) := by
    by_contra moving
    have before : ∀ k, k ≤ bound → ¬P (start + k) :=
      fun k le stopped => moving (onward _ _ (by omega) stopped)
    have high : ∀ k, k ≤ bound + 1 → k ≤ rank (start + k) := by
      intro k
      induction k with
      | zero => exact fun _ => Nat.zero_le _
      | succ k ih =>
        intro le
        have low := ih (by omega)
        rcases climbs (start + k) (by omega) with stopped | less
        · exact absurd stopped (before k (by omega))
        · have next : start + (k + 1) = start + k + 1 := by omega
          rw [next]
          omega
    have top := high (bound + 1) (Nat.le_refl _)
    have limit := bounded (start + (bound + 1))
    omega
  exact fun n le => onward _ n le rest

namespace Flow

variable {x y : Flow}

theorem Alike.imp {β γ : Type} {f : Summary → β} {h : Summary → γ} (alike : x.Alike f y)
    (imp : ∀ a b, f a = f b → h a = h b) : x.Alike h y :=
  ⟨fun v => imp _ _ (alike.env v),
    alike.works.imp fun _ _ same => ⟨same.1, same.2.1, imp _ _ same.2.2⟩⟩

theorem Alike.and {β γ : Type} {f : Summary → β} {h : Summary → γ} (first : x.Alike f y)
    (second : x.Alike h y) : x.Alike (fun s => (f s, h s)) y := by
  refine ⟨fun v => Prod.ext (first.env v) (second.env v), ?_⟩
  refine (forall₂_and first.works second.works).imp ?_
  rintro w u ⟨⟨tree, target, one⟩, _, _, other⟩
  exact ⟨tree, target, Prod.ext one other⟩

def rounds (x : Flow) (n : Nat) : Flow := Flow.next^[n] x

theorem rounds_succ (x : Flow) (n : Nat) : x.rounds (n + 1) = (x.rounds n).next :=
  Function.iterate_succ_apply' Flow.next n x

theorem tidy_rounds (tidy : ∀ v, (x.env v).Tidy) (n : Nat) (v : VariableId) :
    ((x.rounds n).env v).Tidy := by
  induction n generalizing v with
  | zero => exact tidy v
  | succ n ih =>
    rw [rounds_succ]
    exact tidy_sweep ih (x.rounds n).works v

theorem length_sweep (env : VariableId → Summary) (ws : List Work) :
    (sweep env ws).2.works.length = ws.length := by
  induction ws generalizing env with
  | nil => rfl
  | cons w ws ih => simp [sweep, ih]

theorem length_rounds (x : Flow) (n : Nat) : (x.rounds n).works.length = x.works.length := by
  induction n with
  | zero => rfl
  | succ n ih => rw [rounds_succ, next, length_sweep, ih]

theorem settles {α : Type} {view : Summary → α} {g : Summary → Nat} {m : Nat} (start : Nat)
    (tidy : ∀ v, (x.env v).Tidy) (lens : Summary.Lens view) (gauge : Summary.Gauge g)
    (bound : ∀ s, g s ≤ m) (tells : ∀ n, start ≤ n → (x.rounds n).Alike g (x.rounds (n + 1)) →
      (x.rounds n).Alike view (x.rounds (n + 1))) :
    ∀ n, start + x.works.length * m ≤ n → (x.rounds n).Alike view (x.rounds (n + 1)) := by
  have bounded : ∀ n, (x.rounds n).measure g ≤ x.works.length * m := by
    intro n
    rw [← length_rounds x n]
    exact measure_le bound _
  refine rests bounded ?_ ?_
  -- A lens sees of a round what it sees of its start, so flows that look alike go on to do so.
  · intro n same
    rw [rounds_succ, rounds_succ x (n + 1)]
    exact lens.sweep (tidy_rounds tidy n) (tidy_rounds tidy (n + 1)) same.env same.works
  · intro n late
    rw [rounds_succ]
    rcases gauge.climbs (tidy_rounds tidy n) with level | less
    · left
      rw [← rounds_succ] at level ⊢
      exact tells n late level
    · exact .inr less

theorem flag_settles {view : Summary → Bool} (tidy : ∀ v, (x.env v).Tidy)
    (flag : Summary.Flag view) :
    ∀ n, x.works.length ≤ n → (x.rounds n).Alike view (x.rounds (n + 1)) := by
  intro n late
  refine settles 0 tidy flag.lens flag.gauge (Summary.raised_le view) ?_ n (by omega)
  intro n _ level
  exact level.imp fun _ _ => Summary.eq_of_raised_eq

theorem orders_settle (tidy : ∀ v, (x.env v).Tidy) (q : Probe) :
    ∀ n, x.works.length * 4 ≤ n → (x.rounds n).Alike (Summary.orderView q) (x.rounds (n + 1)) := by
  intro n late
  refine settles x.works.length tidy (Summary.lens_orderView q) (Summary.gauge_orderRank q)
    (Summary.orderRank_le q) ?_ n (by omega)
  intro n late level
  have present := flag_settles tidy (Summary.flag_dependsOn q) n late
  have some := flag_settles tidy Summary.flag_hasDeps n late
  refine ((level.and present).and some).imp ?_
  intro a b same
  simp only [Prod.mk.injEq] at same
  obtain ⟨⟨ranks, presence⟩, deps⟩ := same
  exact Prod.ext (Summary.order?_eq_of_rank ranks presence) deps

end Flow

theorem sweep_quiet {env : VariableId → Summary} {ws : List Work} (tidy : ∀ v, (env v).Tidy)
    (visited : ∀ w ∈ ws, w.target = none → w.seen ≠ none)
    (level : ∀ g, Summary.Noted g → (⟨env, ws⟩ : Flow).Alike g (sweep env ws).2) :
    (sweep env ws).1 = false := by
  induction ws generalizing env with
  | nil => rfl
  | cons w ws ih =>
    -- Gauges only grow, so one that is level in the end was level all the way.
    have after : ∀ g, Summary.Noted g → ∀ v, g (w.after env v) = g (env v) := by
      intro g noted v
      have first := noted.gauge.after tidy w v
      have rest := noted.gauge.sweep_env (w.tidy_after tidy) ws v
      have whole : g (env v) = g ((sweep (w.after env) ws).2.env v) := (level g noted).env v
      omega
    have heads : ∀ g, Summary.Noted g → g w.total = g (w.done env).total := by
      intro g noted
      have works := (level g noted).works
      cases works with
      | cons head _ => exact head.2.2
    have rest : (sweep (w.after env) ws).1 = false := by
      refine ih (w.tidy_after tidy) (fun u mem => visited u (List.mem_cons_of_mem w mem)) ?_
      intro g noted
      have whole := level g noted
      refine ⟨fun v => (after g noted v).trans (whole.env v), ?_⟩
      have works := whole.works
      cases works with
      | cons _ tail => exact tail
    have first : w.changes env = false := by
      unfold Work.changes
      cases target : w.target with
      | some v =>
        refine Summary.grows_eq_false (w.tidy_found tidy) ?_
        intro g noted
        have level := after g noted v
        rw [w.after_apply, if_pos target] at level
        exact level
      | none =>
        cases seen : w.seen with
        | none => exact absurd seen (visited w List.mem_cons_self target)
        | some a =>
          refine Summary.grows_eq_false (w.tidy_found tidy) ?_
          intro g noted
          have level := heads g noted
          simp only [Work.done, target, Work.total, seen, accumulate, Option.getD_some] at level
          exact level.symm
    show (w.changes env || (sweep (w.after env) ws).1) = false
    rw [first, rest]
    rfl

theorem visited_sweep (env : VariableId → Summary) (ws : List Work) :
    ∀ w ∈ (sweep env ws).2.works, w.target = none → w.seen ≠ none := by
  induction ws generalizing env with
  | nil => exact fun w mem => absurd mem List.not_mem_nil
  | cons u ws ih =>
    intro w mem free
    rcases List.mem_cons.mp mem with rfl | later
    · rw [u.target_done] at free
      simp [Work.done, free]
    · exact ih _ w later free

theorem Flow.quiet {x : Flow} (tidy : ∀ v, (x.env v).Tidy) :
    (sweep (x.rounds (x.works.length * 4)).env (x.rounds (x.works.length * 4)).works).1 =
    false := by
  generalize last : x.works.length * 4 = n
  have level : ∀ g, Summary.Noted g → (x.rounds n).Alike g (x.rounds n).next := by
    intro g noted
    rw [← rounds_succ]
    cases noted with
    | flag flag =>
      refine (flag_settles tidy flag n (by omega)).imp ?_
      intro a b same
      unfold Summary.raised
      rw [same]
    | order q =>
      refine (orders_settle tidy q n (by omega)).imp ?_
      intro a b same
      have orders : a.order? q = b.order? q := congrArg Prod.fst same
      unfold Summary.orderRank
      rw [orders]
  refine sweep_quiet (tidy_rounds tidy n) ?_ level
  intro w mem
  cases n with
  | zero =>
    have none : x.works = [] := List.eq_nil_of_length_eq_zero (by omega)
    rw [show x.rounds 0 = x from rfl, none] at mem
    cases mem
  | succ n =>
    rw [rounds_succ] at mem
    exact visited_sweep _ _ w mem

end Analog
