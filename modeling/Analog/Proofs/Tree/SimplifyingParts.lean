import Analog.Simplify

/-!
Simplification, seen from the trees that it works on: properties that it keeps, since what it leaves
of an operation is literals, parts of its operands and operations that it leaves as they are; and
changes that it does not notice, since it looks at values and shapes alone.
-/
namespace Analog.Simplify

theorem rightLiteral_other {x : Tree} (op : BinaryOp) (c : Value) (o : Option Symbol)
    (single : ∀ v p, x ≠ .literal v p)
    (chain : ∀ inner y v p s, x ≠ .binary inner y (.literal v p) s) :
    rightLiteral op x c o = (identity? op x c o).getD ⟨plainBinary op x (.literal c o), none⟩ := by
  unfold rightLiteral
  split
  · exact absurd rfl (single _ _)
  · exact absurd rfl (chain _ _ _ _ _)
  · rfl

theorem binary_left {r : Tree} (op : BinaryOp) (v : Value) (p : Option Symbol)
    (right : ∀ c o, r ≠ .literal c o) : binary op (.literal v p) r =
      if op.isCommutative then rightLiteral op r v p
      else ⟨plainBinary op (.literal v p) r, none⟩ := by
  unfold binary
  split
  · exact absurd rfl (right _ _)
  · rename_i same _
    cases same
    rfl
  · rename_i left
    exact absurd rfl (left _ _)

theorem binary_other {l r : Tree} (op : BinaryOp) (left : ∀ v p, l ≠ .literal v p)
    (right : ∀ c o, r ≠ .literal c o) : binary op l r = ⟨plainBinary op l r, none⟩ := by
  unfold binary
  split
  · exact absurd rfl (right _ _)
  · exact absurd rfl (left _ _)
  · rfl

theorem fold_of_string {c v : Value} (op : BinaryOp) (string : v.isNumber = false)
    (number : c.isNumber = true) : ∃ e, Value.fold op v c = .error e := by
  cases v with
  | str bytes =>
    cases c with
    | str other => cases number
    | int n | real x => cases op <;> exact ⟨_, rfl⟩
  | int n | real x => cases string

structure Preserved (p : Tree → Prop) : Prop where
  folded : ∀ v, p (.ofValue v)
  plain : ∀ op l r, p l → p r → binary op l r = ⟨plainBinary op l r, none⟩ → p (plainBinary op l r)
  left : ∀ op l r s, p (.binary op l r s) → p l

namespace Preserved

variable {p : Tree → Prop} {c v : Value} {op : BinaryOp} {x : Tree} {o q : Option Symbol}

theorem literals (h : Preserved p) (left : p (.literal v q)) (right : p (.literal c o)) :
    p (literals op v q c o) := by
  unfold Simplify.literals
  split
  · exact h.folded _
  · rename_i fault
    split
    · rename_i swapped
      simp only [Bool.and_eq_true, Bool.not_eq_true'] at swapped
      obtain ⟨e, other⟩ := fold_of_string op swapped.2 swapped.1.2
      refine h.plain op _ _ right left ?_
      simp only [Simplify.binary, Simplify.rightLiteral, Simplify.literals, other, swapped.2,
        Bool.and_false, Bool.false_and, Bool.false_eq_true, ↓reduceIte]
    · rename_i kept
      refine h.plain op _ _ left right ?_
      simp only [Simplify.binary, Simplify.rightLiteral, Simplify.literals, fault, kept,
        Bool.false_eq_true, ↓reduceIte]

theorem identity? {s : Simplified} (h : Preserved p) (left : p x) (right : p (.literal c o))
    (found : identity? op x c o = some s) : p s.tree := by
  unfold Simplify.identity? at found
  split at found
  · cases found
    exact right
  split at found
  · cases found
    exact h.folded _
  split at found
  · cases found
    exact left
  split at found
  · cases found
    exact left
  · cases found

theorem rightLiteral (h : Preserved p) (op : BinaryOp) (x : Tree) (c : Value) (o : Option Symbol)
    (left : p x) (right : p (.literal c o)) : p (rightLiteral op x c o).tree := by
  fun_induction Simplify.rightLiteral op x c o with
  | case1 op c o v q => exact h.literals left right
  | case2 op c o inner y c1 o1 s whole t found => exact h.identity? left right found
  | case3 op c o inner y c1 o1 s whole unneeded apart =>
    refine h.plain op _ _ left right ?_
    simp only [whole] at unneeded
    simp only [Simplify.binary, Simplify.rightLiteral, whole, unneeded, apart]
  | case4 op c o inner y c1 o1 s whole _ joint _ folded _ ih =>
    exact ih (h.left _ _ _ _ left) (h.folded folded)
  | case5 op c o inner y c1 o1 s whole unneeded joint gathered fault known =>
    refine h.plain op _ _ left right ?_
    simp only [whole] at unneeded
    simp only [Simplify.binary, Simplify.rightLiteral, whole, unneeded, gathered, known]
  | case6 op c o x single chain =>
    cases found : Simplify.identity? op x c o with
    | none =>
      refine h.plain op _ _ left right ?_
      rw [Simplify.binary, rightLiteral_other op c o single chain, found, Option.getD_none]
    | some t => exact h.identity? left right found

theorem binary (h : Preserved p) (op : BinaryOp) {l r : Tree} (left : p l) (right : p r) :
    p (binary op l r).tree := by
  by_cases literal : ∃ c o, r = .literal c o
  · obtain ⟨c, o, rfl⟩ := literal
    exact h.rightLiteral op l c o left right
  · have other : ∀ c o, r ≠ .literal c o := fun c o same => literal ⟨c, o, same⟩
    by_cases first : ∃ v q, l = .literal v q
    · obtain ⟨v, q, rfl⟩ := first
      have same := binary_left op v q other
      split at same
      · rw [same]
        exact h.rightLiteral op r v q right left
      · rw [same]
        exact h.plain op _ _ left right same
    · have same := binary_other op (fun v q h => first ⟨v, q, h⟩) other
      rw [same]
      exact h.plain op _ _ left right same

end Preserved

def Simplified.map (f : Tree → Tree) (s : Simplified) : Simplified := ⟨f s.tree, s.dropped.map f⟩

/-- A change of trees that leaves values and the shapes of operations as they are. -/
structure Unnoticed (f : Tree → Tree) (origin : Option Symbol → Option Symbol) : Prop where
  literal : ∀ v o, f (.literal v o) = .literal v (origin o)
  fresh : origin none = none
  plain : ∀ op l r, f (plainBinary op l r) = plainBinary op (f l) (f r)
  binary : ∀ op l r s, ∃ s', f (.binary op l r s) = .binary op (f l) (f r) s'
  of_literal : ∀ t v o, f t = .literal v o → ∃ p, t = .literal v p
  of_binary : ∀ t op l r s, f t = .binary op l r s → ∃ l' r' s', t = .binary op l' r' s' ∧ f r' = r

namespace Unnoticed

variable {f : Tree → Tree} {origin : Option Symbol → Option Symbol} {op : BinaryOp} {x : Tree}
  {c v : Value} {o p : Option Symbol}

theorem identity? (h : Unnoticed f origin) (op : BinaryOp) (x : Tree) (c : Value)
    (o : Option Symbol) :
    identity? op (f x) c (origin o) = (identity? op x c o).map (Simplified.map f) := by
  have zero : Tree.ofValue (.int 0) = f (.ofValue (.int 0)) := by
    rw [Tree.ofValue, h.literal, h.fresh]
  unfold Simplify.identity?
  split
  · rw [← h.literal]
    rfl
  split
  · rw [Option.map_some, Simplified.map, ← zero]
    rfl
  split
  · rfl
  split
  · rfl
  · rfl

theorem literals (h : Unnoticed f origin) :
    f (literals op v p c o) = literals op v (origin p) c (origin o) := by
  unfold Simplify.literals
  split
  · rw [Tree.ofValue, h.literal, h.fresh]
  · split <;> rw [h.plain, h.literal, h.literal]

theorem chain (h : Unnoticed f origin) (inner : BinaryOp) (y : Tree) (c₁ : Value)
    (o₁ : Option Symbol) (s : Summary) :
    ∃ s', f (.binary inner y (.literal c₁ o₁) s) = .binary inner (f y)
    (.literal c₁ (origin o₁)) s' := by
  obtain ⟨s', same⟩ := h.binary inner y (.literal c₁ o₁) s
  exact ⟨s', by rw [same, h.literal]⟩

theorem rightLiteral (h : Unnoticed f origin) (op : BinaryOp) (x : Tree) (c : Value)
    (o : Option Symbol) :
    Simplified.map f (rightLiteral op x c o) = rightLiteral op (f x) c (origin o) := by
  have plain (op x c o) : Simplified.map f ⟨plainBinary op x (.literal c o), none⟩ =
      ⟨plainBinary op (f x) (.literal c (origin o)), none⟩ := by
    simp only [Simplified.map, h.plain, h.literal, Option.map_none]
  fun_induction Simplify.rightLiteral op x c o with
  | case1 op c o v p =>
    simp only [h.literal, Simplify.rightLiteral, ← h.literals, Simplified.map, Option.map_none]
  | case2 op c o inner y c₁ o₁ s whole t found =>
    obtain ⟨s', same⟩ := h.chain inner y c₁ o₁ s
    have seen := h.identity? op whole c o
    simp only [found, Option.map_some, whole, same] at seen
    simp only [same, Simplify.rightLiteral, seen]
  | case3 op c o inner y c₁ o₁ s whole unneeded apart =>
    obtain ⟨s', same⟩ := h.chain inner y c₁ o₁ s
    have seen := h.identity? op whole c o
    simp only [unneeded, Option.map_none, whole, same] at seen
    simp only [plain, whole, same, Simplify.rightLiteral, seen, apart]
  | case4 op c o inner y c₁ o₁ s whole unneeded joint gathered folded known ih =>
    obtain ⟨s', same⟩ := h.chain inner y c₁ o₁ s
    have seen := h.identity? op whole c o
    simp only [unneeded, Option.map_none, whole, same] at seen
    rw [ih, h.fresh, same, Simplify.rightLiteral.eq_2]
    simp only [seen, gathered, known]
  | case5 op c o inner y c₁ o₁ s whole unneeded joint gathered fault known =>
    obtain ⟨s', same⟩ := h.chain inner y c₁ o₁ s
    have seen := h.identity? op whole c o
    simp only [unneeded, Option.map_none, whole, same] at seen
    simp only [plain, whole, same, Simplify.rightLiteral, seen, gathered, known]
  | case6 op c o x single chain =>
    rw [rightLiteral_other op c (origin o), h.identity?]
    · cases Simplify.identity? op x c o with
      | none => exact plain op x c o
      | some t => rfl
    · intro v p same
      obtain ⟨_, rfl⟩ := h.of_literal x v p same
      exact single _ _ rfl
    · intro inner y v p s same
      obtain ⟨l, r, s', rfl, right⟩ := h.of_binary x _ _ _ _ same
      obtain ⟨_, rfl⟩ := h.of_literal r v p right
      exact chain _ _ _ _ _ rfl

theorem simplified (h : Unnoticed f origin) (op : BinaryOp) (l r : Tree) :
    Simplified.map f (Simplify.binary op l r) = Simplify.binary op (f l) (f r) := by
  have kept : ∀ t : Tree, (∀ v p, t ≠ .literal v p) → ∀ v p, f t ≠ .literal v p := by
    intro t other v p same
    obtain ⟨q, rfl⟩ := h.of_literal t v p same
    exact other v q rfl
  by_cases right : ∃ c o, r = .literal c o
  · obtain ⟨c, o, rfl⟩ := right
    rw [h.literal]
    exact h.rightLiteral op l c o
  · have right : ∀ c o, r ≠ .literal c o := fun c o same => right ⟨c, o, same⟩
    by_cases left : ∃ v p, l = .literal v p
    · obtain ⟨v, p, rfl⟩ := left
      rw [h.literal, binary_left op v p right, binary_left op v _ (kept r right)]
      split
      · exact h.rightLiteral op r v p
      · simp only [Simplified.map, h.plain, h.literal, Option.map_none]
    · have left : ∀ v p, l ≠ .literal v p := fun v p same => left ⟨v, p, same⟩
      rw [binary_other op left right, binary_other op (kept l left) (kept r right),
        Simplified.map, h.plain]
      rfl

end Unnoticed

end Analog.Simplify
