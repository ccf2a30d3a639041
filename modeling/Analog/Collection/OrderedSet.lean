/-!
Sets that keep the order in which their items came. An item that is there already is not entered
again, so the items are pairwise distinct.
-/
namespace Analog

structure OrderedSet (α : Type) where
  items : List α
  deriving DecidableEq, Repr

namespace OrderedSet

variable {α : Type} [DecidableEq α]

def empty : OrderedSet α := ⟨[]⟩

def size (s : OrderedSet α) : Nat := s.items.length

def isEmpty (s : OrderedSet α) : Bool := s.items.isEmpty

def contains (s : OrderedSet α) (a : α) : Bool := decide (a ∈ s.items)

def insert (s : OrderedSet α) (a : α) : OrderedSet α :=
  if s.contains a then s else ⟨s.items ++ [a]⟩

def ofList (items : List α) : OrderedSet α := items.foldl insert empty

def union (s t : OrderedSet α) : OrderedSet α := t.items.foldl insert s

def subset (s t : OrderedSet α) : Bool := s.items.all t.contains

def grows (s t : OrderedSet α) : Bool := !t.subset s

def sameItems (s t : OrderedSet α) : Bool := s.size == t.size && s.subset t

theorem mem_insert {s : OrderedSet α} {a b : α} :
    b ∈ (s.insert a).items ↔ b ∈ s.items ∨ b = a := by
  by_cases h : a ∈ s.items
  · simp only [insert, contains, h, decide_true, ↓reduceIte]
    exact ⟨Or.inl, fun m => m.elim id (fun e => e ▸ h)⟩
  · simp [insert, contains, h]

theorem nodup_insert {s : OrderedSet α} (h : s.items.Nodup) (a : α) :
    (s.insert a).items.Nodup := by
  by_cases m : a ∈ s.items
  · simpa [insert, contains, m] using h
  · simp only [insert, contains, m, decide_false, Bool.false_eq_true, ↓reduceIte]
    rw [List.nodup_append]
    refine ⟨h, by simp, ?_⟩
    intro x hx y hy
    simp only [List.mem_singleton] at hy
    subst hy
    exact fun e => m (e ▸ hx)

theorem mem_foldl_insert {items : List α} {s : OrderedSet α} {b : α} :
    b ∈ (items.foldl insert s).items ↔ b ∈ s.items ∨ b ∈ items := by
  induction items generalizing s with
  | nil => simp
  | cons a as ih => simp [ih, mem_insert, or_assoc]

theorem nodup_foldl_insert {items : List α} {s : OrderedSet α} (h : s.items.Nodup) :
    (items.foldl insert s).items.Nodup := by
  induction items generalizing s with
  | nil => simpa using h
  | cons a as ih => exact ih (nodup_insert h a)

theorem mem_union {s t : OrderedSet α} {b : α} :
    b ∈ (s.union t).items ↔ b ∈ s.items ∨ b ∈ t.items := mem_foldl_insert

end OrderedSet
end Analog
