import Mathlib
import Analog.Design.Basic

/-!
Reasoning about operations that can fail and keep what they did before. `Meets` says of an operation
and a state what holds of its result, and what holds of the state that a failure leaves.
-/
namespace Analog

variable {σ α : Type} {held : List Tree}

/-- From `s`, an operation gives a result for which `done` holds, or fails so that `failed`
holds. -/
def Meets {σ α : Type} (act : EStateM Failure σ α) (s : σ) (done : α → σ → Prop)
    (failed : Failure → σ → Prop) : Prop :=
  match act s with
  | .ok a s' => done a s'
  | .error f s' => failed f s'

namespace Meets

variable {β : Type} {s : σ} {done : α → σ → Prop} {failed : Failure → σ → Prop}
  {act : EStateM Failure σ α} {next : PUnit → EStateM Failure σ α} {done' : α → σ → Prop}
  {failed' : Failure → σ → Prop}

theorem pure {a : α} (h : done a s) : Meets (Pure.pure a) s done failed := h

theorem fail {f : Failure} (h : failed f s) : Meets (throw f) s done failed := h

theorem stop {f : Failure} {next : β → EStateM Failure σ α} (h : failed f s) :
    Meets (throw f >>= next) s done failed := h

theorem bind {next : α → EStateM Failure σ β} {final : β → σ → Prop}
    (first : Meets act s done failed) (rest : ∀ a s', done a s' → Meets (next a) s' final failed) :
    Meets (act >>= next) s final failed := by
  unfold Meets at first
  unfold Meets
  simp only [Bind.bind, EStateM.bind]
  cases run : act s with
  | ok a s' =>
    rw [run] at first
    exact rest a s' first
  | error f s' =>
    rw [run] at first
    exact first

theorem get {next : σ → EStateM Failure σ α} (h : Meets (next s) s done failed) :
    Meets (MonadState.get >>= next) s done failed := h

theorem set {s' : σ} (h : Meets (next ⟨⟩) s' done failed) :
    Meets (MonadStateOf.set s' >>= next) s done failed := h

theorem modify {f : σ → σ} (h : Meets (next ⟨⟩) (f s) done failed) :
    Meets (modifyGet (fun s => (⟨⟩, f s)) >>= next) s done failed := h

theorem mono (h : Meets act s done failed) (results : ∀ a s', done a s' → done' a s')
    (failures : ∀ f s', failed f s' → failed' f s') : Meets act s done' failed' := by
  unfold Meets at h ⊢
  cases run : act s with
  | ok a s' =>
    rw [run] at h
    exact results a s' h
  | error f s' =>
    rw [run] at h
    exact failures f s' h

theorem and (h : Meets act s done failed) (h' : Meets act s done' failed') :
    Meets act s (fun a s' => done a s' ∧ done' a s') fun f s' => failed f s' ∧ failed' f s' := by
  unfold Meets at h h' ⊢
  cases run : act s with
  | ok a s' | error f s' =>
    rw [run] at h h'
    exact ⟨h, h'⟩

theorem of_ok {a : α} {s' : σ} (h : Meets act s done failed) (run : act s = .ok a s') :
    done a s' := by
  unfold Meets at h
  rw [run] at h
  exact h

end Meets

abbrev Ensures {σ α : Type} (act : EStateM Failure σ α) (s : σ) (done : α → σ → Prop) : Prop :=
  Meets act s done fun _ _ => True

theorem bind_eq_ok {β : Type} {act : EStateM Failure σ α} {next : α → EStateM Failure σ β}
    {s s₁ : σ}
    {b : β} : (act >>= next) s = .ok b s₁ ↔ ∃ a s', act s = .ok a s' ∧ next a s' = .ok b s₁ := by
  simp only [Bind.bind, EStateM.bind]
  cases run : act s with
  | ok a s' => simp
  | error f s' => simp

theorem orRelease_eq_ok {act : DesignM α} {d d' : Design} {a : α} :
    DesignM.orRelease held act d = .ok a d' ↔ act d = .ok a d' := by
  unfold DesignM.orRelease
  cases run : act d with
  | ok b e => rfl
  | error f e =>
    cases f with
    | problem p =>
      simp only [reduceCtorEq, iff_false]
      split <;> exact nofun
    | underflow u => rfl
    | endless => rfl

theorem Ensures.orRelease {act : DesignM α} {d : Design} {done : α → Design → Prop}
    (h : Ensures act d done) : Ensures (DesignM.orRelease held act) d done := by
  unfold Ensures Meets
  cases run : DesignM.orRelease held act d with
  | ok a d' => exact h.of_ok (orRelease_eq_ok.mp run)
  | error f d' => trivial

def Failure.Classed (f : Failure) : Prop :=
  ∃ problem : Problem, f = .problem problem ∧ problem.cause.fault?.isSome = true

theorem Failure.Classed.inside {f : Failure} (h : f.Classed) (context : String) :
    (f.inside context).Classed := by
  obtain ⟨problem, rfl, classed⟩ := h
  exact ⟨problem.inside context, rfl, classed⟩

/-- An update fails with a problem of a known kind, or because it does not come to an end. -/
def Failure.Raised (f : Failure) : Prop := f.Classed ∨ f = .endless

/-- Any failure but that more uses were given back than taken. -/
def Failure.Reported (f : Failure) : Prop := (∃ p : Problem, f = .problem p) ∨ f = .endless

theorem Failure.Raised.reported {f : Failure} (h : f.Raised) : f.Reported :=
  h.imp_left fun ⟨p, same, _⟩ => ⟨p, same⟩

def Refuses {σ : Type} (p : σ → Prop) (f : Failure) (s : σ) : Prop := f.Classed ∧ p s

theorem Refuses.mono {p q : σ → Prop} {f : Failure} {s : σ} (h : Refuses p f s)
    (imp : ∀ s, p s → q s) : Refuses q f s :=
  ⟨h.1, imp s h.2⟩

theorem Refuses.ofCause {p : σ → Prop} {c : Cause} {s : σ} (h : p s)
    (classed : c.fault?.isSome = true := by rfl) : Refuses p (.ofCause c) s :=
  ⟨⟨.ofCause c, rfl, classed⟩, h⟩

end Analog
