import Mathlib
import Analog.Statement.Address

/-!
Statements as trees. `gather` collects something from a statement and all that is nested in it, and
`Every` says something of each of them, along with the scope that it stands in. Both are looked at
block by block: a block at an address can be exchanged for another one.
-/
namespace Analog.Statement

mutual

def gather {α : Type} (own : Statement → List α) : Statement → List α
  | .conditional c thnScope thn elsScope els =>
    own (.conditional c thnScope thn elsScope els) ++ gatherAll own thn ++ gatherAll own els
  | .block scope body => own (.block scope body) ++ gatherAll own body
  | .declare s => own (.declare s)
  | .assign s => own (.assign s)
  | .contribute s => own (.contribute s)

def gatherAll {α : Type} (own : Statement → List α) : List Statement → List α
  | [] => []
  | s :: ss => s.gather own ++ gatherAll own ss

end

mutual

def Every (p : ScopeId → Statement → Prop) (outer : ScopeId) : Statement → Prop
  | .conditional c thnScope thn elsScope els =>
    p outer (.conditional c thnScope thn elsScope els) ∧ EveryAll p thnScope thn ∧
      EveryAll p elsScope els
  | .block scope body => p outer (.block scope body) ∧ EveryAll p scope body
  | .declare s => p outer (.declare s)
  | .assign s => p outer (.assign s)
  | .contribute s => p outer (.contribute s)

def EveryAll (p : ScopeId → Statement → Prop) (outer : ScopeId) : List Statement → Prop
  | [] => True
  | s :: ss => s.Every p outer ∧ EveryAll p outer ss

end

def ownScopes : Statement → List ScopeId
  | .conditional _ thnScope _ elsScope _ => [thnScope, elsScope]
  | .block inner _ => [inner]
  | _ => []

def scopes : Statement → List ScopeId := gather ownScopes

def scopesAll : List Statement → List ScopeId := gatherAll ownScopes

def ownGuarded : Statement → List ScopeId
  | .conditional _ thnScope _ elsScope _ => [thnScope, elsScope]
  | _ => []

def guarded : Statement → List ScopeId := gather ownGuarded

def guardedAll : List Statement → List ScopeId := gatherAll ownGuarded

theorem arm?_cases {arm : Arm} {s : Statement} {scope : ScopeId} {body : List Statement}
    (found : arm? arm s = some (scope, body)) :
    (∃ c elsScope els, arm = .main ∧ s = .conditional c scope body elsScope els) ∨
    (∃ c thnScope thn, arm = .otherwise ∧ s = .conditional c thnScope thn scope body) ∨
    arm = .main ∧ s = .block scope body := by
  cases s <;> cases arm <;> cases found
  · exact .inl ⟨_, _, _, rfl, rfl⟩
  · exact .inr (.inl ⟨_, _, _, rfl, rfl⟩)
  · exact .inr (.inr ⟨rfl, rfl⟩)

theorem blockAt?_cons {i : Nat} {arm : Arm} {rest : Address} {scope inner : ScopeId}
    {body old : List Statement}
    (found : blockAt? scope body ((i, arm) :: rest) = some (inner, old)) :
    ∃ s next inside, body[i]? = some s ∧ arm? arm s = some (next, inside) ∧
      blockAt? next inside rest = some (inner, old) ∧
      ∀ new, setBlockAt new body ((i, arm) :: rest) = body.modify i
      (setArm arm (setBlockAt new inside rest)) := by
  unfold blockAt? at found
  split at found
  · rename_i next inside stepped
    obtain ⟨s, at_i, into⟩ := Option.bind_eq_some_iff.mp stepped
    exact ⟨s, next, inside, at_i, into, found, fun new => by simp only [setBlockAt, stepped]⟩
  · cases found

section Gathering

variable {α : Type} {own : Statement → List α}

theorem gatherAll_append (ss ts : List Statement) :
    gatherAll own (ss ++ ts) = gatherAll own ss ++ gatherAll own ts := by
  induction ss with
  | nil => rfl
  | cons s ss ih => simp only [List.cons_append, gatherAll, ih, List.append_assoc]

theorem gatherAll_singleton (s : Statement) : gatherAll own [s] = gather own s := List.append_nil _

def Blind (own : Statement → List α) : Prop := ∀ arm new s, own (setArm arm new s) = own s

theorem gather_setArm (blind : Blind own) {arm : Arm} {s : Statement} {inner : ScopeId}
    {old : List Statement} (found : arm? arm s = some (inner, old)) :
    ∃ before after, ∀ new, gather own (setArm arm new s) = before ++
    gatherAll own new ++ after := by
  rcases arm?_cases found with ⟨c, elsScope, els, rfl, rfl⟩ | ⟨c, thnScope, thn, rfl,
    rfl⟩ | ⟨rfl, rfl⟩
  · refine ⟨own (.conditional c inner old elsScope els), gatherAll own els, fun new => ?_⟩
    simp only [setArm, gather, ← blind .main new (.conditional c inner old elsScope els)]
  · refine ⟨own (.conditional c thnScope thn inner old) ++ gatherAll own thn, [], fun new => ?_⟩
    simp only [setArm, gather, ← blind .otherwise new (.conditional c thnScope thn inner old),
      List.append_nil]
  · refine ⟨own (.block inner old), [], fun new => ?_⟩
    simp only [setArm, gather, ← blind .main new (.block inner old), List.append_nil]

theorem blind_ownScopes : Blind ownScopes := by
  intro arm new s
  cases s <;> cases arm <;> rfl

theorem blind_ownGuarded : Blind ownGuarded := by
  intro arm new s
  cases s <;> cases arm <;> rfl

variable (own) in
theorem gatherAll_modify {body : List Statement} {i : Nat} {s : Statement}
    (at_i : body[i]? = some s) :
    ∃ before after, gatherAll own body = before ++ gather own s ++ after ∧
      ∀ f : Statement → Statement, gatherAll own (body.modify i f) = before ++
      gather own (f s) ++ after := by
  obtain ⟨inside, rfl⟩ := List.getElem?_eq_some_iff.mp at_i
  have modified (f : Statement → Statement) : gatherAll own (body.modify i f) =
      gatherAll own (body.take i) ++ gather own (f body[i]) ++
        gatherAll own (body.drop (i + 1)) := by
    rw [List.modify_eq_take_cons_drop inside, gatherAll_append, gatherAll, List.append_assoc]
  refine ⟨_, _, ?_, modified⟩
  have same := modified id
  rwa [List.modify_id] at same

theorem gatherAll_setBlockAt (blind : Blind own) {a : Address} {scope inner : ScopeId}
    {body old : List Statement} (found : blockAt? scope body a = some (inner, old)) :
    ∃ before after, ∀ new, gatherAll own (setBlockAt new body a) = before ++
    gatherAll own new ++ after := by
  induction a generalizing scope body with
  | nil => exact ⟨[], [], fun new => by simp [setBlockAt]⟩
  | cons step rest ih =>
    obtain ⟨s, next, inside, at_i, into, deeper, set⟩ := blockAt?_cons found
    obtain ⟨before, after, whole⟩ := ih deeper
    obtain ⟨left, right, armed⟩ := gather_setArm blind into
    obtain ⟨first, last, -, modified⟩ := gatherAll_modify own at_i
    refine ⟨first ++ left ++ before, after ++ right ++ last, fun new => ?_⟩
    simp only [set, modified, armed, whole, List.append_assoc]

end Gathering

theorem mem_scopes_of_arm {arm : Arm} {s : Statement} {next inner : ScopeId} {body : List Statement}
    (into : arm? arm s = some (next, body)) (inside : inner = next ∨ inner ∈ scopesAll body) :
    inner ∈ s.scopes := by
  rcases inside with rfl | mem
  · cases s <;> cases arm <;> cases into <;> simp [scopes, gather, ownScopes]
  · cases s <;> cases arm <;> cases into <;> simp_all [scopes, scopesAll, gather, ownScopes]

theorem scope_blockAt {a : Address} {scope inner : ScopeId} {body old : List Statement}
    (found : blockAt? scope body a = some (inner, old)) :
    inner = scope ∨ inner ∈ scopesAll body := by
  induction a generalizing scope body with
  | nil =>
    cases found
    exact .inl rfl
  | cons step rest ih =>
    obtain ⟨s, next, inside, at_i, into, deeper, -⟩ := blockAt?_cons found
    obtain ⟨before, after, whole, -⟩ := gatherAll_modify ownScopes at_i
    have within := mem_scopes_of_arm into (ih deeper)
    refine .inr ?_
    rw [scopesAll, whole]
    exact List.mem_append_left _ (List.mem_append_right _ within)

theorem setBlockAt_self {a : Address} {scope inner : ScopeId} {body old : List Statement}
    (found : blockAt? scope body a = some (inner, old)) : setBlockAt old body a = body := by
  induction a generalizing scope body with
  | nil =>
    cases found
    rfl
  | cons step rest ih =>
    obtain ⟨s, next, inside, at_i, into, deeper, set⟩ := blockAt?_cons found
    have armed : setArm step.2 inside s = s := by
      rcases arm?_cases into with ⟨c, elsScope, els, arm, rfl⟩ | ⟨c, thnScope, thn, arm, rfl⟩
        | ⟨arm, rfl⟩ <;>
        rw [arm] <;> rfl
    rw [set, ih deeper]
    apply List.ext_getElem?
    intro j
    rw [List.getElem?_modify]
    by_cases same : step.1 = j
    · simp [← same, at_i, armed]
    · simp [same]

section Everywhere

variable {p : ScopeId → Statement → Prop}

theorem everyAll_iff {outer : ScopeId} {ss : List Statement} :
    EveryAll p outer ss ↔ ∀ s ∈ ss, s.Every p outer := by
  induction ss with
  | nil => simp [EveryAll]
  | cons s ss ih => simp [EveryAll, ih]

theorem Every.own {s : Statement} {outer : ScopeId} (h : s.Every p outer) : p outer s := by
  cases s with
  | declare s | assign s | contribute s => exact h
  | conditional c thnScope thn elsScope els | block inner body => exact h.1

section Weakening

variable {b q : ScopeId → Statement → Prop} {inside : ScopeId → Prop} {α : Type}
  {own : Statement → List α} {known : α → Prop}

mutual

/-- What holds of all statements may be weakened by what is known of the scopes that they stand in,
and of what is gathered from them. -/
theorem Every.imp (weaken : ∀ outer s, inside outer → (∀ x ∈ own s, known x) → s.Every p outer →
      q outer s) (inner : ∀ outer s, inside outer → (∀ x ∈ own s, known x) → b outer s →
      ∀ scope ∈ ownScopes s, inside scope)
    (s : Statement) {outer : ScopeId} (at_outer : inside outer) (all : ∀ x ∈ gather own s, known x)
    (base : s.Every b outer) (h : s.Every p outer) : s.Every q outer := by
  cases s with
  | declare s | assign s | contribute s => exact weaken _ _ at_outer all h
  | conditional c thnScope thn elsScope els =>
    simp only [gather, List.forall_mem_append] at all
    have arms := inner _ _ at_outer all.1.1 base.1
    simp only [ownScopes, List.mem_cons, List.not_mem_nil, or_false, forall_eq_or_imp,
      forall_eq] at arms
    exact ⟨weaken _ _ at_outer all.1.1 h, EveryAll.imp weaken inner thn arms.1 all.1.2
      base.2.1 h.2.1, EveryAll.imp weaken inner els arms.2 all.2 base.2.2 h.2.2⟩
  | block scope body =>
    simp only [gather, List.forall_mem_append] at all
    have into := inner _ _ at_outer all.1 base.1 scope (List.mem_singleton_self scope)
    exact ⟨weaken _ _ at_outer all.1 h, EveryAll.imp weaken inner body into all.2 base.2 h.2⟩

theorem EveryAll.imp (weaken : ∀ outer s, inside outer → (∀ x ∈ own s, known x) → s.Every p outer →
      q outer s) (inner : ∀ outer s, inside outer → (∀ x ∈ own s, known x) → b outer s →
      ∀ scope ∈ ownScopes s, inside scope)
    (ss : List Statement) {outer : ScopeId} (at_outer : inside outer)
    (all : ∀ x ∈ gatherAll own ss, known x)
    (base : EveryAll b outer ss) (h : EveryAll p outer ss) : EveryAll q outer ss := by
  cases ss with
  | nil => trivial
  | cons s ss =>
    rw [gatherAll, List.forall_mem_append] at all
    exact ⟨Every.imp weaken inner s at_outer all.1 base.1 h.1, EveryAll.imp weaken inner ss at_outer
      all.2 base.2 h.2⟩

end

theorem EveryAll.mono (weaken : ∀ outer s, inside outer → p outer s → q outer s)
    (inner : ∀ outer s, p outer s → ∀ scope ∈ ownScopes s, inside scope) {outer : ScopeId}
    (at_outer : inside outer) (ss : List Statement) (h : EveryAll p outer ss) :
    EveryAll q outer ss :=
  EveryAll.imp (fun scope _ (here : inside scope) (_ : ∀ x ∈ ([] : List Unit), True) h => weaken
    _ _ here h.own)
    (fun _ s _ _ own => inner _ s own) ss at_outer (fun _ _ => trivial) h h

theorem EveryAll.mono_own (weaken : ∀ outer s, (∀ x ∈ ownScopes s, inside x) → p outer s →
      q outer s) (ss : List Statement) {outer : ScopeId} (all : ∀ x ∈ scopesAll ss, inside x)
    (h : EveryAll p outer ss) :
    EveryAll q outer ss :=
  EveryAll.imp (fun _ s (_ : True) scopes h => weaken _ s scopes h.own)
    (fun _ _ _ _ _ _ _ => trivial) ss trivial all
    h h

end Weakening

theorem Every.arm {arm : Arm} {s : Statement} {outer inner : ScopeId} {body : List Statement}
    (h : s.Every p outer) (found : arm? arm s = some (inner, body)) : EveryAll p inner body := by
  rcases arm?_cases found with ⟨c, elsScope, els, rfl, rfl⟩ | ⟨c, thnScope, thn, rfl,
    rfl⟩ | ⟨rfl, rfl⟩
  · exact h.2.1
  · exact h.2.2
  · exact h.2

theorem EveryAll.blockAt {a : Address} {scope inner : ScopeId} {body old : List Statement}
    (h : EveryAll p scope body) (found : blockAt? scope body a = some (inner, old)) :
    EveryAll p inner old := by
  induction a generalizing scope body with
  | nil =>
    cases found
    exact h
  | cons step rest ih =>
    obtain ⟨s, next, inside, at_i, into, deeper, -⟩ := blockAt?_cons found
    exact ih ((everyAll_iff.mp h s (List.mem_of_getElem? at_i)).arm into) deeper

def Shallow (p : ScopeId → Statement → Prop) : Prop :=
  ∀ outer arm new s, p outer s → p outer (setArm arm new s)

theorem Every.setArm (shallow : Shallow p) {arm : Arm} {s : Statement} {outer inner : ScopeId}
    {old new : List Statement} (h : s.Every p outer) (found : arm? arm s = some (inner, old))
    (fits : EveryAll p inner new) : (setArm arm new s).Every p outer := by
  rcases arm?_cases found with ⟨c, elsScope, els, rfl, rfl⟩ | ⟨c, thnScope, thn, rfl,
    rfl⟩ | ⟨rfl, rfl⟩
  · exact ⟨shallow outer .main new _ h.1, fits, h.2.2⟩
  · exact ⟨shallow outer .otherwise new _ h.1, h.2.1, fits⟩
  · exact ⟨shallow outer .main new _ h.1, fits⟩

theorem EveryAll.setBlockAt (shallow : Shallow p) {a : Address} {scope inner : ScopeId}
    {body old new : List Statement} (h : EveryAll p scope body)
    (found : blockAt? scope body a = some (inner, old)) (fits : EveryAll p inner new) :
    EveryAll p scope (setBlockAt new body a) := by
  induction a generalizing scope body with
  | nil =>
    cases found
    exact fits
  | cons step rest ih =>
    obtain ⟨s, next, inside, at_i, into, deeper, set⟩ := blockAt?_cons found
    have every := everyAll_iff.mp h
    have here := every s (List.mem_of_getElem? at_i)
    have changed := here.setArm shallow into (ih (here.arm into) deeper)
    obtain ⟨inside_i, rfl⟩ := List.getElem?_eq_some_iff.mp at_i
    rw [set, everyAll_iff, List.modify_eq_take_cons_drop inside_i]
    intro t mem
    rcases List.mem_append.mp mem with earlier | mem
    · exact every t (List.mem_of_mem_take earlier)
    · rcases List.mem_cons.mp mem with rfl | later
      · exact changed
      · exact every t (List.mem_of_mem_drop later)

end Everywhere

end Analog.Statement
