import Analog.Proofs.Circuit.FollowingShorts

/-!
Nodes that shorts make one. Two nodes are led to the same node exactly if the shorts that are kept
connect them. A node keeps one short only: a call on a node that is shorted already replaces the
short that is there, and what it connected comes apart.
-/
namespace Analog.Circuit

section Following

variable {c : Circuit} {holds : GuardId → Bool}

theorem follow_eq_of_connected {r : NodeId → NodeId → Prop}
    (one : ∀ a b, r a b → c.follow holds a = c.follow holds b)
    {i j : NodeId} (connected : Relation.EqvGen r i j) : c.follow holds i = c.follow holds j := by
  induction connected with
  | rel a b related => exact one a b related
  | refl a => rfl
  | symm a b _ ih => exact ih.symm
  | trans a b d _ _ ab bd => exact ab.trans bd

/-- Nodes are one exactly if shorts that hold connect them. -/
theorem Acyclic.follow_eq_iff (h : c.Acyclic holds) {i j : NodeId} :
    c.follow holds i = c.follow holds j ↔ Relation.EqvGen (c.Lays holds) i j := by
  refine ⟨fun same => ?_, follow_eq_of_connected fun a b lays => h.follow_eq (.single lays)⟩
  obtain ⟨e, found⟩ := h.ends i
  have ends {a : NodeId} (found : c.follow holds a = some e) : Relation.EqvGen (c.Lays holds) a e :=
    Relation.EqvGen.reflTransGen_le_eqvGen _ _ _ (reaches_of_followFuel found).1
  exact (ends found).trans _ _ _ (ends (same ▸ found)).symm

end Following

/-- Lays nodes onto others without guards, call after call. -/
def shortAll (c : Circuit) (holds : GuardId → Bool) (calls : List (NodeId × NodeId)) :
    Option Circuit :=
  calls.foldlM (fun c call => c.addShort holds call.1 call.2 none) c

def layAll (c : Circuit) (holds : GuardId → Bool) (calls : List (NodeId × NodeId)) : Circuit :=
  calls.foldl (fun c call => c.lay holds call.1 call.2 none) c

def replaces (c : Circuit) (holds : GuardId → Bool) (call : NodeId × NodeId) : Bool :=
  (c.node call.1).short.isSome && c.follow holds call.2 != c.follow holds call.1

/-- Whether one of the calls replaces a short. -/
def replacesAny (c : Circuit) (holds : GuardId → Bool) : List (NodeId × NodeId) → Bool
  | [] => false
  | call :: calls =>
    c.replaces holds call || (c.lay holds call.1 call.2 none).replacesAny holds calls

/-- Nodes that calls connect, in one direction or the other. -/
def Linked (calls : List (NodeId × NodeId)) : NodeId → NodeId → Prop :=
  Relation.EqvGen fun i j => (i, j) ∈ calls

theorem layAll_concat (c : Circuit) (holds : GuardId → Bool) (calls : List (NodeId × NodeId))
    (call : NodeId × NodeId) : c.layAll holds (calls ++ [call]) =
      (c.layAll holds calls).lay holds call.1 call.2 none := List.foldl_concat ..

theorem replacesAny_concat (c : Circuit) (holds : GuardId → Bool) (calls : List (NodeId × NodeId))
    (call : NodeId × NodeId) : c.replacesAny holds (calls ++ [call]) =
      (c.replacesAny holds calls || (c.layAll holds calls).replaces holds call) := by
  induction calls generalizing c with
  | nil => simp [replacesAny, layAll]
  | cons first calls ih => rw [List.cons_append, replacesAny, ih, replacesAny, Bool.or_assoc]; rfl

/-- Nodes are one exactly if the calls connect them. -/
def Faithful (c : Circuit) (holds : GuardId → Bool) (calls : List (NodeId × NodeId)) : Prop :=
  ∀ i j, c.follow holds i = c.follow holds j ↔ Linked calls i j

/-- The shorts of a circuit after `calls`: each was called for and has no guard. -/
structure Shorted (c : Circuit) (holds : GuardId → Bool) (calls : List (NodeId × NodeId)) :
    Prop where
  acyclic : c.Acyclic holds
  called : ∀ i j, c.Lays holds i j → (i, j) ∈ calls
  plain : ∀ i, (c.node i).short.isSome = true → ∃ j, c.Lays holds i j

section Calling

variable {c : Circuit} {holds : GuardId → Bool} {calls : List (NodeId × NodeId)}
    {call : NodeId × NodeId}

theorem lay_of_one (one : c.follow holds call.2 = c.follow holds call.1) :
    c.lay holds call.1 call.2 none = c := by
  rcases c.lay_cases holds call.1 call.2 none with same | ⟨-, apart⟩
  · exact same
  · exact absurd one apart

theorem node_lay_of_ne (c : Circuit) (holds : GuardId → Bool) {i p : NodeId} (target : NodeId)
    (other : i ≠ p) : (c.lay holds p target none).node i = c.node i := by
  rcases c.lay_cases holds p target none with same | ⟨laid, -⟩
  · rw [same]
  · rw [laid, node_modifyNode, if_neg fun h => other h.1]

theorem Acyclic.lays_lay_iff (h : c.Acyclic holds)
    (apart : c.follow holds call.2 ≠ c.follow holds call.1)
    (inside : call.1 < c.nodes.size) {x y : NodeId} :
      (c.lay holds call.1 call.2 none).Lays holds x y ↔
      x = call.1 ∧ y = call.2 ∨ x ≠ call.1 ∧ c.Lays holds x y := by
  constructor
  · rw [h.lay_eq apart]
    exact lays_modifyNode
  · rintro (⟨rfl, rfl⟩ | ⟨other, lays⟩)
    · rw [h.lay_eq apart, Lays, activeTarget?, node_modifyNode, if_pos ⟨rfl, inside⟩]
      rfl
    · rw [Lays, activeTarget?, node_lay_of_ne c holds call.2 other]
      exact lays

theorem Shorted.linked (h : c.Shorted holds calls) {i j : NodeId}
    (same : c.follow holds i = c.follow holds j) :
    Linked calls i j := (h.acyclic.follow_eq_iff.mp same).mono h.called

theorem Shorted.lay (h : c.Shorted holds calls) (inside : call.1 < c.nodes.size) :
    (c.lay holds call.1 call.2 none).Shorted holds (calls ++ [call]) := by
  by_cases one : c.follow holds call.2 = c.follow holds call.1
  · rw [lay_of_one one]
    exact ⟨h.acyclic, fun i j lays => List.mem_append_left _ (h.called i j lays), h.plain⟩
  refine ⟨h.acyclic.lay call.1 call.2 none, fun i j lays => ?_, fun i short => ?_⟩
  · rcases (h.acyclic.lays_lay_iff one inside).mp lays with ⟨rfl, rfl⟩ | ⟨-, old⟩
    · exact List.mem_append_right _ (List.mem_singleton_self call)
    · exact List.mem_append_left _ (h.called i j old)
  · by_cases same : i = call.1
    · exact ⟨call.2, (h.acyclic.lays_lay_iff one inside).mpr (.inl ⟨same, rfl⟩)⟩
    · rw [node_lay_of_ne c holds call.2 same] at short
      obtain ⟨j, lays⟩ := h.plain i short
      exact ⟨j, (h.acyclic.lays_lay_iff one inside).mpr (.inr ⟨same, lays⟩)⟩

theorem Acyclic.lays_of_not_replaces (h : c.Acyclic holds) (kept : c.replaces holds call = false)
    (inside : call.1 < c.nodes.size) {x y : NodeId}
    (lays : c.Lays holds x y) : (c.lay holds call.1 call.2 none).Lays holds x y := by
  by_cases one : c.follow holds call.2 = c.follow holds call.1
  · rw [lay_of_one one]
    exact lays
  · refine (h.lays_lay_iff one inside).mpr (.inr ⟨?_, lays⟩)
    rintro rfl
    have bare : (c.node call.1).short = none := by simpa [replaces, one] using kept
    rw [Lays, activeTarget?, bare] at lays
    cases lays

theorem Shorted.faithful_lay (h : c.Shorted holds calls) (faithful : c.Faithful holds calls)
    (inside : call.1 < c.nodes.size) (kept : c.replaces holds call = false) :
    (c.lay holds call.1 call.2 none).Faithful holds (calls ++ [call]) := by
  have new := h.lay inside
  intro i j
  refine ⟨new.linked, fun linked => new.acyclic.follow_eq_iff.mpr ?_⟩
  have before {a b : NodeId} (same : c.follow holds a = c.follow holds b) :
      Relation.EqvGen ((c.lay holds call.1 call.2 none).Lays holds) a b :=
    (h.acyclic.follow_eq_iff.mp same).mono fun _ _ => h.acyclic.lays_of_not_replaces kept inside
  have edge : (fun a b => (a, b) ∈ calls ++ [call]) ≤
      Relation.EqvGen ((c.lay holds call.1 call.2 none).Lays holds) := by
    intro a b mem
    rcases List.mem_append.mp mem with old | new
    · exact before ((faithful a b).mpr (.rel a b old))
    · obtain rfl := List.mem_singleton.mp new
      by_cases one : c.follow holds b = c.follow holds a
      · exact before one.symm
      · exact .rel a b ((h.acyclic.lays_lay_iff one inside).mpr (.inl ⟨rfl, rfl⟩))
  exact Relation.EqvGen.eqvGen_le edge i j linked

theorem Acyclic.reaches_lay (h : c.Acyclic holds)
    (apart : c.follow holds call.2 ≠ c.follow holds call.1) (inside : call.1 < c.nodes.size)
    {x y : NodeId} (path : Relation.ReflTransGen (c.Lays holds) x y)
    (aside : ¬Relation.ReflTransGen (c.Lays holds) x call.1) :
    Relation.ReflTransGen ((c.lay holds call.1 call.2 none).Lays holds) x y := by
  induction path using Relation.ReflTransGen.head_induction_on with
  | refl => exact .refl
  | head lays _ ih =>
    refine .head ((h.lays_lay_iff apart inside).mpr (.inr ⟨?_, lays⟩))
      (ih fun way => aside (.head lays way))
    rintro rfl
    exact aside .refl

theorem Acyclic.follow_lay (h : c.Acyclic holds)
    (apart : c.follow holds call.2 ≠ c.follow holds call.1)
    (inside : call.1 < c.nodes.size) {x : NodeId}
    (aside : ¬Relation.ReflTransGen (c.Lays holds) x call.1) :
    (c.lay holds call.1 call.2 none).follow holds x = c.follow holds x := by
  obtain ⟨e, found⟩ := h.ends x
  obtain ⟨way, ended⟩ := reaches_of_followFuel found
  rw [found]
  refine (h.lay call.1 call.2 none).follow_eq_end (h.reaches_lay apart inside way aside) ?_
  have other : e ≠ call.1 := fun same => aside (same ▸ way)
  rw [activeTarget?, node_lay_of_ne c holds call.2 other]
  exact ended

/-- A call that replaces a short separates its node from the one onto which that short laid it. -/
theorem Shorted.apart_of_replaces (h : c.Shorted holds calls) (inside : call.1 < c.nodes.size)
    (lost : c.replaces holds call = true) :
    ¬(c.lay holds call.1 call.2 none).Faithful holds (calls ++ [call]) := by
  obtain ⟨short, apart⟩ : (c.node call.1).short.isSome = true ∧
      c.follow holds call.2 ≠ c.follow holds call.1 := by
    simpa [replaces] using lost
  obtain ⟨j, lays⟩ := h.plain call.1 short
  have target := h.acyclic.follow_lay apart inside fun way => apart (h.acyclic.follow_eq way)
  have former := h.acyclic.follow_lay apart inside (x := j) fun way =>
    h.acyclic call.1 (.head' lays way)
  have laid : (c.lay holds call.1 call.2 none).Lays holds call.1 call.2 :=
    (h.acyclic.lays_lay_iff apart inside).mpr (.inl ⟨rfl, rfl⟩)
  intro faithful
  have same := (faithful call.1 j).mpr (.rel _ _ (List.mem_append_left _ (h.called _ _ lays)))
  rw [(h.lay inside).acyclic.follow_eq (.single laid), target, former,
    ← h.acyclic.follow_eq (.single lays)] at same
  exact apart same

end Calling

variable {c : Circuit} {holds : GuardId → Bool} {calls : List (NodeId × NodeId)}

theorem size_layAll (c : Circuit) (holds : GuardId → Bool) (calls : List (NodeId × NodeId)) :
    (c.layAll holds calls).nodes.size = c.nodes.size := by
  induction calls using List.reverseRecOn with
  | nil => rfl
  | append_singleton calls call ih =>
    rw [layAll_concat]
    rcases (c.layAll holds calls).lay_cases holds call.1 call.2 none with same | ⟨laid, -⟩
    · rw [same]
      exact ih
    · rw [laid]
      exact (Array.size_modify ..).trans ih

theorem shorted_layAll (holds : GuardId → Bool) (bare : ∀ i, (c.node i).short = none)
    (inside : ∀ call ∈ calls, call.1 < c.nodes.size) :
    (c.layAll holds calls).Shorted holds calls := by
  induction calls using List.reverseRecOn with
  | nil =>
    have stays (i j : NodeId) : ¬c.Lays holds i j := by
      intro lays
      rw [Lays, activeTarget?, bare i] at lays
      cases lays
    refine ⟨fun i cycle => ?_, fun i j lays => absurd lays (stays i j), fun i short => ?_⟩
    · obtain ⟨j, lays, -⟩ := Relation.TransGen.head'_iff.mp cycle
      exact stays i j lays
    · rw [layAll, List.foldl_nil, bare i] at short
      cases short
  | append_singleton calls call ih =>
    obtain ⟨before, last⟩ := List.forall_mem_append.mp inside
    rw [layAll_concat]
    refine (ih before).lay ?_
    rw [size_layAll]
    exact last call (List.mem_singleton_self call)

theorem shortAll_eq (bare : ∀ i, (c.node i).short = none)
    (inside : ∀ call ∈ calls, call.1 < c.nodes.size) :
    c.shortAll holds calls = some (c.layAll holds calls) := by
  induction calls using List.reverseRecOn with
  | nil => rfl
  | append_singleton calls call ih =>
    have before := (List.forall_mem_append.mp inside).1
    rw [layAll_concat, shortAll, List.foldlM_append]
    change (c.shortAll holds calls).bind _ = _
    rw [ih before, Option.bind_some, List.foldlM_cons,
      (shorted_layAll holds bare before).acyclic.addShort_eq]
    rfl

theorem faithful_nil (bare : ∀ i, (c.node i).short = none) : c.Faithful holds [] := by
  have shorted : c.Shorted holds [] := shorted_layAll holds bare fun _ none =>
    absurd none List.not_mem_nil
  exact fun i j => ⟨shorted.linked, follow_eq_of_connected fun _ _ none => absurd none
    List.not_mem_nil⟩

theorem faithful_iff_not_replaced (bare : ∀ i, (c.node i).short = none)
    (inside : ∀ call ∈ calls, call.1 < c.nodes.size) :
    (∀ made, made <+: calls → (c.layAll holds made).Faithful holds made) ↔
      c.replacesAny holds calls = false := by
  -- A call is looked at together with the circuit that all earlier calls have led to.
  induction calls using List.reverseRecOn with
  | nil =>
    refine ⟨fun _ => rfl, fun _ made start => ?_⟩
    rw [List.prefix_nil.mp start]
    exact faithful_nil bare
  | append_singleton calls call ih =>
    obtain ⟨earlier, last⟩ := List.forall_mem_append.mp inside
    have shorted := shorted_layAll holds bare earlier
    have known : call.1 < (c.layAll holds calls).nodes.size := by
      rw [size_layAll]
      exact last call (List.mem_singleton_self call)
    rw [replacesAny_concat, Bool.or_eq_false_iff, ← ih earlier]
    constructor
    · intro faithful
      refine ⟨fun made start => faithful made (start.trans (List.prefix_append calls [call])), ?_⟩
      by_contra replaced
      have whole := faithful (calls ++ [call]) List.prefix_rfl
      rw [layAll_concat] at whole
      exact shorted.apart_of_replaces known (Bool.eq_true_of_not_eq_false replaced) whole
    · rintro ⟨faithful, kept⟩ made start
      rcases List.prefix_concat_iff.mp start with rfl | shorter
      · rw [layAll_concat]
        exact shorted.faithful_lay (faithful calls List.prefix_rfl) known kept
      · exact faithful made shorter

/-- Calls come to an end, and so does following the shorts they leave. Nodes that are one were
connected by calls. All that the calls connect is one, at each moment, exactly if no call replaces
a short. -/
theorem nodes_merge_unless_replaced (bare : ∀ i, (c.node i).short = none)
    (inside : ∀ call ∈ calls, call.1 < c.nodes.size) :
    (∃ c', c.shortAll holds calls = some c' ∧ (∀ i, (c'.follow holds i).isSome = true) ∧
      ∀ i j, c'.follow holds i = c'.follow holds j → Linked calls i j) ∧
    ((∀ made, made <+: calls → ∃ c', c.shortAll holds made = some c' ∧ c'.Faithful holds made) ↔
      c.replacesAny holds calls = false) := by
  have shorted := shorted_layAll holds bare inside
  refine ⟨⟨_, shortAll_eq bare inside, fun i => Option.isSome_iff_exists.mpr
    (shorted.acyclic.ends i), fun i j => shorted.linked⟩, ?_⟩
  rw [← faithful_iff_not_replaced bare inside]
  refine forall₂_congr fun made start => ?_
  rw [shortAll_eq bare fun call mem => inside call (start.subset mem)]
  simp

def fourNodes : Circuit := ⟨#[⟨groundName, none⟩, ⟨"a", none⟩, ⟨"b", none⟩, ⟨"c", none⟩], #[], 0⟩

theorem fourNodes_bare (i : NodeId) : (fourNodes.node i).short = none := by
  rcases i with _ | _ | _ | _ | i <;> rfl

/-- Shorts in a row, and one back that is ignored. -/
theorem nodes_merge_unless_replaced_row :
    (∀ i, (fourNodes.node i).short = none) ∧
    ∃ c, fourNodes.shortAll (fun _ => true) [(1, 2), (2, 3), (3, 1), (0, 1)] = some c ∧
      c.Faithful (fun _ => true) [(1, 2), (2, 3), (3, 1), (0, 1)] :=
  ⟨fourNodes_bare, (nodes_merge_unless_replaced fourNodes_bare (by decide)).2.mpr (by decide) _
    List.prefix_rfl⟩

/-- A second short of one node, and what the first one connected is no longer one. -/
theorem first_short_lost :
    Linked [(1, 2), (1, 3)] 1 2 ∧
    (fourNodes.shortAll (fun _ => true) [(1, 2), (1, 3)]).bind (·.follow (fun _ => true) 1) =
    some 3 ∧
    (fourNodes.shortAll (fun _ => true) [(1, 2), (1, 3)]).bind (·.follow (fun _ => true) 2) =
    some 2 :=
  ⟨.rel 1 2 (by decide), by decide, by decide⟩

end Analog.Circuit
