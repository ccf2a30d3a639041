import Analog.Proofs.Tree.Refresh

/-!
Simplified trees are normal forms: an operation that is left after simplification is one that
simplification leaves as it is. It looks at values and shapes alone, so where a literal was taken
from makes no difference.
-/
namespace Analog

namespace Tree

variable {s : Summary}

def IsValue (t : Tree) : Prop := ∀ c, t.valueFault? c = none

theorem isValue_of_fault {t : Tree} {c : Circuit} (h : t.valueFault? c = none) : t.IsValue := by
  intro c'
  cases t <;> first | rfl | cases h

/-- All parts of a tree have a property. -/
def All (p : Tree → Prop) (t : Tree) : Prop := ∀ u ∈ t.parts, p u

variable {p : Tree → Prop}

theorem All.self {t : Tree} (h : t.All p) : p t := by
  refine h t ?_
  cases t <;> simp [parts]

theorem all_concat {t : Tree} {us : List Tree} (parts : t.parts = us ++ [t]) :
    t.All p ↔ (∀ u ∈ us, p u) ∧ p t := by
  simp [All, parts, or_imp, forall_and]

theorem all_leaf {t : Tree} (leaf : t.parts = [t]) : t.All p ↔ p t := by
  simp [All, leaf]

theorem all_literal {v : Value} {o : Option Symbol} : (Tree.literal v o).All p ↔ p (.literal v o) :=
  all_leaf rfl

theorem all_unary {op : UnaryOp} {x : Tree} : (Tree.unary op x s).All p ↔ x.All p ∧
    p (.unary op x s) :=
  all_concat rfl

theorem all_binary {op : BinaryOp} {l r : Tree} :
    (Tree.binary op l r s).All p ↔ l.All p ∧ r.All p ∧ p (.binary op l r s) := by
  rw [all_concat rfl, List.forall_mem_append, and_assoc]
  rfl

theorem all_ternary {c t e : Tree} :
    (Tree.ternary c t e s).All p ↔ c.All p ∧ t.All p ∧ e.All p ∧ p (.ternary c t e s) := by
  rw [all_concat rfl, List.forall_mem_append, List.forall_mem_append, and_assoc, and_assoc]
  rfl

theorem allParts_iff {ts : List Tree} : (∀ u ∈ allParts ts, p u) ↔ ∀ t ∈ ts, t.All p := by
  induction ts with
  | nil => simp [allParts]
  | cons t ts ih =>
    simp only [allParts, List.mem_append, or_imp, forall_and, ih, List.forall_mem_cons, All]

theorem all_arguments {items : List Tree} :
    (Tree.arguments items).All p ↔ (∀ t ∈ items, t.All p) ∧ p (.arguments items) := by
  rw [all_concat rfl, allParts_iff]

theorem all_call {f : String} {args : List Tree} {b : Option BranchId} :
      (Tree.call f args b s).All p ↔
      (∀ t ∈ args, t.All p) ∧ p (.arguments args) ∧ p (.call f args b s) := by
  rw [← allParts_iff]
  exact List.forall_mem_append.trans (by simp)

mutual

/-- A tree without the parameters that its literals were taken from. -/
def anonymous : Tree → Tree
  | .literal v _ => .literal v none
  | .declaration v init => .declaration v init.anonymous
  | .unary op x s => .unary op x.anonymous s
  | .binary op l r s => .binary op l.anonymous r.anonymous s
  | .ternary c t e s => .ternary c.anonymous t.anonymous e.anonymous s
  | .call f args b s => .call f (anonymousAll args) b s
  | .arguments items => .arguments (anonymousAll items)
  | t => t

def anonymousAll : List Tree → List Tree
  | [] => []
  | t :: ts => t.anonymous :: anonymousAll ts

end

mutual

theorem summary_anonymous (t : Tree) : t.anonymous.summary = t.summary := by
  cases t with
  | declaration v init => exact summary_anonymous init
  | arguments items => simp only [anonymous, summary, summaries_anonymousAll items]
  | _ => rfl

theorem summaries_anonymousAll (ts : List Tree) : summaries (anonymousAll ts) = summaries ts := by
  cases ts with
  | nil => rfl
  | cons t ts => simp only [anonymousAll, summaries, summary_anonymous t, summaries_anonymousAll ts]

end

theorem strength_anonymous (t : Tree) : t.anonymous.strength = t.strength := by
  cases t <;> rfl

mutual

theorem source_anonymous (c : Circuit) (t : Tree) : t.anonymous.source c = t.source c := by
  cases t with
  | declaration v init => simp only [anonymous, source, source_anonymous c init]
  | unary op x s => simp only [anonymous, source, guarded, strength_anonymous, source_anonymous c x]
  | binary op l r s =>
    simp only [anonymous, source, guarded, strength_anonymous, source_anonymous c l,
      source_anonymous c r]
  | ternary k t e s =>
    simp only [anonymous, source, guarded, strength_anonymous, source_anonymous c k,
      source_anonymous c t, source_anonymous c e]
  | call f args b s => simp only [anonymous, source, sources_anonymousAll c args]
  | arguments items => simp only [anonymous, source, sources_anonymousAll c items]
  | _ => rfl

theorem sources_anonymousAll (c : Circuit) (ts : List Tree) :
    sources c (anonymousAll ts) = sources c ts := by
  cases ts with
  | nil => rfl
  | cons t ts => simp only [anonymousAll, sources, source_anonymous c t, sources_anonymousAll c ts]

end

theorem IsValue.anonymous {t : Tree} (h : t.IsValue) : t.anonymous.IsValue := by
  intro c
  have fine := h c
  cases t <;> first | rfl | cases fine

theorem anonymous_eq_literal {t : Tree} {v : Value} {o : Option Symbol}
    (h : t.anonymous = .literal v o) : ∃ q, t = .literal v q := by
  cases t with
  | literal w q =>
    cases h
    exact ⟨q, rfl⟩
  | _ => cases h

end Tree

namespace Simplify

/-- A property of parts that simplification keeps: values that were folded have it, and so do
operations that stay as they are. -/
structure Closed (p : Tree → Prop) : Prop where
  folded : ∀ v, p (.ofValue v)
  unary : ∀ op x, x.IsValue → unary op x = plainUnary op x → p (plainUnary op x)
  binary : ∀ op l r, l.IsValue → r.IsValue → binary op l r = ⟨plainBinary op l r, none⟩ →
    p (plainBinary op l r)
  operand : ∀ op l r s, p (.binary op l r s) → l.IsValue

variable {p : Tree → Prop}

theorem unary_cases (op : UnaryOp) (x : Tree) :
    (∃ v, unary op x = .ofValue v) ∨ (∃ y s, x = .unary .neg y s ∧ unary op x = y) ∨
    unary op x = plainUnary op x := by
  cases x with
  | literal v o =>
    cases folded : Value.foldUnary op v with
    | ok w => exact .inl ⟨w, by simp only [unary, folded]⟩
    | error e => exact .inr (.inr (by simp only [unary, folded]))
  | unary inner y s =>
    cases op with
    | not => cases inner <;> exact .inr (.inr rfl)
    | neg =>
      cases inner with
      | neg => exact .inr (.inl ⟨y, s, rfl, rfl⟩)
      | not => exact .inr (.inr rfl)
  | _ => cases op <;> exact .inr (.inr rfl)

theorem all_of_unary (closed : Closed p) (op : UnaryOp) {x : Tree} (value : x.IsValue)
    (all : x.All p) : (unary op x).All p := by
  obtain ⟨v, same⟩ | ⟨y, s, rfl, same⟩ | same := unary_cases op x
  · rw [same]
    exact Tree.all_literal.mpr (closed.folded v)
  · rw [same]
    exact (Tree.all_unary.mp all).1
  · rw [same]
    exact Tree.all_unary.mpr ⟨all, closed.unary op x value same⟩

theorem Closed.preserved (closed : Closed p) : Preserved fun t => t.IsValue ∧ t.All p where
  folded v := ⟨fun _ => rfl, Tree.all_literal.mpr (closed.folded v)⟩
  plain op l r left right same :=
    ⟨fun _ => rfl, Tree.all_binary.mpr ⟨left.2, right.2, closed.binary op l r left.1 right.1 same⟩⟩
  left op l r s h := by
    obtain ⟨left, _, here⟩ := Tree.all_binary.mp h.2
    exact ⟨closed.operand op l r s here, left⟩

/-- What simplification leaves of an operation is literals, parts of its operands, and operations
that it leaves as they are. -/
theorem all_of_binary (closed : Closed p) (op : BinaryOp) {l r : Tree} (leftValue : l.IsValue)
    (rightValue : r.IsValue) (left : l.All p) (right : r.All p) : (binary op l r).tree.All p :=
  (closed.preserved.binary op ⟨leftValue, left⟩ ⟨rightValue, right⟩).2

theorem plainUnary_anonymous (op : UnaryOp) (x : Tree) :
    plainUnary op x.anonymous = (plainUnary op x).anonymous := by
  simp only [plainUnary, Tree.anonymous, Tree.summary_anonymous]

theorem plainBinary_anonymous (op : BinaryOp) (l r : Tree) :
    plainBinary op l.anonymous r.anonymous = (plainBinary op l r).anonymous := by
  simp only [plainBinary, Tree.anonymous, Tree.summary_anonymous]

theorem unary_anonymous (op : UnaryOp) (x : Tree) :
    unary op x.anonymous = (unary op x).anonymous := by
  cases x with
  | literal v o =>
    simp only [Tree.anonymous, unary]
    split
    · rfl
    · rfl
  | unary inner y s => cases op <;> cases inner <;> rfl
  | declaration v init | arguments items => cases op <;> exact plainUnary_anonymous _ _
  | _ => cases op <;> rfl

def Simplified.anonymous (s : Simplified) :
    Simplified := ⟨s.tree.anonymous, s.dropped.map Tree.anonymous⟩

theorem unnoticed_anonymous : Unnoticed Tree.anonymous fun _ => none where
  literal _ _ := rfl
  fresh := rfl
  plain op l r := (plainBinary_anonymous op l r).symm
  binary _ _ _ _ := ⟨_, rfl⟩
  of_literal _ _ _ := Tree.anonymous_eq_literal
  of_binary t op l r s same := by
    cases t with
    | binary inner l' r' s' =>
      simp only [Tree.anonymous, Tree.binary.injEq] at same
      obtain ⟨rfl, _, right, _⟩ := same
      exact ⟨l', r', s', rfl, right⟩
    | _ => cases same

theorem binary_anonymous (op : BinaryOp) (l r : Tree) :
    binary op l.anonymous r.anonymous = Simplified.anonymous (binary op l r) :=
  (unnoticed_anonymous.simplified op l r).symm

end Simplify

namespace Function

theorem literals?_anonymous (args : List Tree) :
    literals? (Tree.anonymousAll args) = literals? args := by
  induction args with
  | nil => rfl
  | cons t ts ih =>
    cases t with
    | literal v o => simp only [Tree.anonymousAll, Tree.anonymous, literals?, ih]
    | _ => rfl

theorem fold?_anonymous (f : Function) (args : List Tree) :
    f.fold? (Tree.anonymousAll args) = f.fold? args := by
  simp only [fold?, literals?_anonymous]

end Function
end Analog
