import Analog.Proofs.Summary.Observation

/-!
Edge sets that are made, changed and copied again and again. No edit lets a probe have two edges, so
comparing sizes and looking one way tells whether two sets have the same probes.
-/
namespace Analog
namespace EdgeSet

/-- One edit of a set among numbered ones. -/
inductive Edit where
  | new (edges : List Edge)
  | insert (e : Edge)
  | union (other : Nat)
  | widen (e : Edge)
  | map (source : Nat) (f : Order → Order)
  | clone (source : Nat)

def Edit.result (sets : Nat → EdgeSet) (i : Nat) : Edit → EdgeSet
  | new edges => ofList edges
  | insert e => (sets i).insert e
  | union other => (sets i).union (sets other)
  | widen e => (sets i).widen e
  | map source f => (sets source).map f
  | clone source => sets source

/-- The sets after some edits, of which the latest comes first; before them all are empty. -/
def after : List (Nat × Edit) → Nat → EdgeSet
  | [] => fun _ => empty
  | (i, edit) :: earlier => Function.update (after earlier) i (edit.result (after earlier) i)

variable {s s' t : EdgeSet} {es es' : List Edge}

theorem Edit.nodup_result {sets : Nat → EdgeSet} (h : ∀ i, (sets i).probes.Nodup) (i : Nat)
    (edit : Edit) : (edit.result sets i).probes.Nodup := by
  cases edit with
  | new edges => exact nodup_union (s := empty) List.nodup_nil ⟨edges⟩
  | insert e => exact nodup_insert (h i) e
  | union other => exact nodup_union (h i) _
  | widen e => exact nodup_widen (h i) e
  | map source f =>
    have same : ((sets source).map f).probes = (sets source).probes := by
      simp [probes, EdgeSet.map, Function.comp_def]
    exact same.symm ▸ h source
  | clone source => exact h source

theorem nodup_after (edits : List (Nat × Edit)) (i : Nat) : (after edits i).probes.Nodup := by
  induction edits generalizing i with
  | nil => exact List.nodup_nil
  | cons edit edits ih =>
    obtain ⟨j, edit⟩ := edit
    rw [after]
    rcases eq_or_ne i j with rfl | other
    · rw [Function.update_self]
      exact edit.nodup_result ih i
    · rw [Function.update_of_ne other]
      exact ih i

theorem sameProbes_iff_perm (hs : s.probes.Nodup) :
    s.sameProbes t = true ↔ s.probes.Perm t.probes := by
  have size : (s.size == t.size) = true ↔ s.probes.length = t.probes.length := by
    simp [size, probes]
  have inside : (s.edges.all fun e => t.contains e.probe) = true ↔ s.probes ⊆ t.probes := by
    simp only [List.all_eq_true, contains_eq, ← mem_probes]
    exact List.forall_mem_map.symm
  rw [sameProbes, Bool.and_eq_true, size, inside]
  constructor
  · rintro ⟨same, sub⟩
    exact (hs.subperm sub).perm_of_length_le same.ge
  · exact fun perm => ⟨perm.length_eq, perm.subset⟩

theorem mem_probes_union {q : Probe} : q ∈ (s.union t).probes ↔ q ∈ s.probes ∨ q ∈ t.probes := by
  rw [mem_probes, order?_union, Option.isSome_or, Bool.or_eq_true, ← mem_probes, ← mem_probes]

theorem perm_union (hs : s.probes.Nodup) (same : (es.map (·.probe)).Perm (es'.map (·.probe))) :
    (s.union ⟨es⟩).probes.Perm (s.union ⟨es'⟩).probes := by
  refine (List.perm_ext_iff_of_nodup (nodup_union hs _) (nodup_union hs _)).mpr fun q => ?_
  rw [mem_probes_union, mem_probes_union]
  exact or_congr_right same.mem_iff

theorem sameProbes_congr (hs : s.probes.Nodup) (hs' : s'.probes.Nodup) (ht : t.probes.Nodup)
    (same : s.probes.Perm s'.probes) : s.sameProbes t = s'.sameProbes t ∧
    t.sameProbes s = t.sameProbes s' := by
  constructor
  · rw [Bool.eq_iff_iff, sameProbes_iff_perm hs, sameProbes_iff_perm hs', same.congr_left]
  · rw [Bool.eq_iff_iff, sameProbes_iff_perm ht, sameProbes_iff_perm ht, same.congr_right]

/-- Whatever is done to sets, no probe has two edges. So sets are compared by their probes, which is
an equivalence, and the comparison of summaries does not see in which order and with which orders
probes were entered. -/
theorem compared_by_probes (edits : List (Nat × Edit)) :
    (∀ i, (after edits i).probes.Nodup) ∧
    (∀ i j, (after edits i).sameProbes (after edits j) = true ↔
      ∀ q, q ∈ (after edits i).probes ↔ q ∈ (after edits j).probes) ∧
    Equivalence (fun i j => (after edits i).sameProbes (after edits j) = true) ∧
    ∀ (a b : Summary) (i j : Nat) (es es' : List Edge),
      (es.map (·.probe)).Perm (es'.map (·.probe)) →
      let entered (es : List Edge) : Summary := { a with deps := es.foldl insert (after edits i) }
      let other : Summary := { b with deps := after edits j }
      (entered es).agrees other = (entered es').agrees other ∧
        other.agrees (entered es) = other.agrees (entered es') := by
  have apart := nodup_after edits
  refine ⟨apart, fun i j => ?_, ?_, fun a b i j es es' same => ?_⟩
  · rw [sameProbes_iff_perm (apart i), List.perm_ext_iff_of_nodup (apart i) (apart j)]
  · simp only [sameProbes_iff_perm (apart _)]
    exact ⟨fun _ => .refl _, .symm, .trans⟩
  · obtain ⟨left, right⟩ := sameProbes_congr (nodup_union (apart i) ⟨es⟩)
      (nodup_union (apart i) ⟨es'⟩) (apart j)
      (perm_union (apart i) same)
    exact ⟨congrArg (_ && ·) left, congrArg (_ && ·) right⟩

/-- A set, a raised copy of it that lacks nothing, and an empty one into which the same probes are
entered. -/
theorem compared_by_probes_raised :
    let v : Edge := ⟨⟨0, .potential⟩, .linear⟩
    let w : Edge := ⟨⟨0, .flow⟩, .any⟩
    let sets := after [(1, .map 0 Order.raise), (0, .widen w), (0, .new [v, v])]
    let entered (es : List Edge) : Summary :=
      { Summary.varying with deps := es.foldl insert (sets 2) }
    let other : Summary := { Summary.varying with deps := sets 1 }
    (entered [v, w]).agrees other = true ∧ (entered [w, ⟨v.probe, .any⟩]).agrees other = true := by
  intro v w sets entered other
  have first : (entered [v, w]).agrees other = true := by decide
  exact ⟨first, ((compared_by_probes _).2.2.2 .varying .varying 2 1 [v, w] [w, ⟨v.probe, .any⟩]
    (.swap ..)).1 ▸ first⟩

end EdgeSet
end Analog
