import Analog.Proofs.Dataflow.MarkSpread
import Analog.Proofs.Device.OrderedAssembly

/-!
Who needs what, in a device that was finished. All that statements hold was found with the summaries
as they are now, so a summary mentions with a variable all that the variable mentions. Therefore the
marks are exact: a branch needs what the summaries mention that contributions to it stand on, and
nothing else.
-/
namespace Analog

/-- With a variable, the summary of another one mentions all that the variable mentions. -/
def Design.Closed (d : Design) : Prop :=
  ∀ z v, (d.env z).Mentions (.variable v) → ∀ x, (d.env v).Mentions x → (d.env z).Mentions x

theorem Design.complete_of_held {r : Resolver} {d : Design} {outer : ScopeId} {source : Source}
    {t : Tree}
    {a : Summary} (grounded : d.Grounded) (closed : d.Closed) (lasts : source.Lasts r outer t d)
    (read : t.refresh d.snapshot = t) (covers : a.Covers t.summary)
    (within : a.Within (t.refresh d.snapshot).summary) : d.Complete a := by
  have mentions : ∀ x, a.Mentions x ↔ ∃ y ∈ t.reads, y.Brings d.snapshot x := by
    intro x
    rw [← Tree.mentions_refresh]
    refine ⟨fun known => within.mentions known, fun known => ?_⟩
    rw [read] at known
    exact covers.mentions known
  have has := Tree.has_of_inside t lasts.inside
  refine ⟨fun x mentioned => ?_, fun v mentioned x known => ?_⟩
  · obtain ⟨y, here, brings⟩ := (mentions x).mp mentioned
    cases y with
    | probe q =>
      cases brings
      exact has _ here
    | «variable» z =>
      have brings : (d.snapshot z).Mentions x := brings
      rcases mentions_snapshot.mp brings with through | rfl
      · exact grounded z x through
      · exact has _ here
  · obtain ⟨y, here, brings⟩ := (mentions (.variable v)).mp mentioned
    refine (mentions x).mpr ⟨y, here, ?_⟩
    cases y with
    | probe q => cases brings
    | «variable» z =>
      have brings : (d.snapshot z).Mentions (.variable v) := brings
      show (d.snapshot z).Mentions x
      rcases mentions_snapshot.mp brings with through | same
      · exact mentions_snapshot.mpr (.inl (closed z v through x known))
      · cases same
        exact mentions_snapshot.mpr (.inl known)

namespace Statement

variable {r : Resolver} {d : Design}

mutual

theorem gives_of_untouched (s : Statement) {outer : ScopeId}
    (h : s.Every (fun _ => Untouched) outer) : s.gives = [] := by
  cases s with
  | declare s =>
    have none : s.value = none := h
    simp [gives, gather, ownGives, none]
  | assign s =>
    have none : s.value = none := h
    simp [gives, gather, ownGives, none]
  | contribute s => rfl
  | conditional c thnScope thn elsScope els =>
    have first := givesAll_of_untouched thn h.2.1
    have second := givesAll_of_untouched els h.2.2
    simp only [givesAll] at first second
    simp only [gives, gather, ownGives, first, second, List.append_nil]
  | block inner body => exact givesAll_of_untouched body h.2

theorem givesAll_of_untouched (ss : List Statement) {outer : ScopeId}
    (h : EveryAll (fun _ => Untouched) outer ss) : givesAll ss = [] := by
  cases ss with
  | nil => rfl
  | cons s ss =>
    have first := gives_of_untouched s h.1
    have rest := givesAll_of_untouched ss h.2
    simp only [gives, givesAll] at first rest
    simp only [givesAll, gatherAll, first, rest, List.append_nil]

end

def Taken (d : Design) (g : VariableId × Tree) : Prop :=
  ∀ x, (∃ y ∈ g.2.reads, y.Brings d.snapshot x) → (d.env g.1).Mentions x

theorem taken_of_held {v : VariableId} {t : Tree} (read : t.refresh d.snapshot = t)
    (covers : (d.env v).Covers t.summary) : Taken d (v, t) := by
  intro x brought
  rw [← Tree.mentions_refresh, read] at brought
  exact covers.mentions brought

mutual

theorem taken_of_live (s : Statement) {outer : ScopeId} (live : Live r d outer s)
    (traced : s.Every (Traced r d) outer) : ∀ g ∈ s.gives, Taken d g := by
  cases s with
  | declare s =>
    intro g mem
    obtain ⟨u, held, rfl⟩ := List.mem_map.mp mem
    obtain ⟨source, t, written, rfl, -⟩ := traced u (Option.mem_toList.mp held)
    obtain ⟨t', value, rests, covers⟩ := live.rests _ (List.mem_singleton_self _) source written
    rw [Option.mem_toList, value] at held
    cases held
    exact taken_of_held (congrArg (Tree.declaration s.symbol) rests.read) covers
  | assign s =>
    obtain ⟨v, t, symbol, value, rests, covers⟩ := live.rests _ (List.mem_singleton_self _)
    intro g mem
    simp only [gives, gather, ownGives, symbol, value, List.mem_singleton] at mem
    rw [mem]
    exact taken_of_held rests.read covers
  | contribute s => exact fun g mem => absurd mem List.not_mem_nil
  | conditional c thnScope thn elsScope els =>
    obtain ⟨⟨-, -, thnBlank, elsBlank⟩, thnTraced, elsTraced⟩ := traced
    refine List.forall_mem_append.mpr ⟨?_, ?_⟩
    · by_cases never : d.reachOf thnScope = .never
      · have none := givesAll_of_untouched thn (thnBlank (.inr never))
        exact fun g mem => absurd (none ▸ mem : g ∈ []) List.not_mem_nil
      · exact taken_of_liveAll thn (live.thn never) thnTraced
    · by_cases never : d.reachOf elsScope = .never
      · have none := givesAll_of_untouched els (elsBlank (.inr never))
        exact fun g mem => absurd (none ▸ mem : g ∈ []) List.not_mem_nil
      · exact taken_of_liveAll els (live.els never) elsTraced
  | block inner body => exact taken_of_liveAll body live.body traced.2

theorem taken_of_liveAll (ss : List Statement) {outer : ScopeId} (live : LiveAll r d outer ss)
    (traced : EveryAll (Traced r d) outer ss) : ∀ g ∈ givesAll ss, Taken d g := by
  cases ss with
  | nil => exact fun g mem => absurd mem List.not_mem_nil
  | cons s ss =>
    exact List.forall_mem_append.mpr ⟨taken_of_live s live.head traced.1,
      taken_of_liveAll ss live.tail traced.2⟩

end

theorem Traceable.closed {outer : ScopeId} {ss : List Statement} (h : Traceable r outer ss d)
    (live : LiveAll r d outer ss) : d.Closed := by
  intro z v mentioned x known
  have step : ∀ w u, Feeds (givesAll ss) w u → ∀ x, (d.env w).Mentions x →
      (d.env u).Mentions x := by
    rintro w u ⟨t, given, read⟩ x known
    refine taken_of_liveAll ss live h.traced (u, t) given x ⟨.variable w, read, ?_⟩
    exact Design.mentions_snapshot.mpr (.inl known)
  have path := h.fed z v mentioned
  clear mentioned
  induction path with
  | single fed => exact step _ _ fed x known
  | tail _ fed ih => exact step _ _ fed x ih

theorem told_of_conditions {outer : ScopeId} {around : List Condition} {s : Statement}
    (near : ∀ c ∈ around, ∀ a, c.summary = some a → d.Complete a)
    (own : ∀ b, Standing.goal? d.circuit ⟨outer, around, s⟩ = some b →
      ∃ a, Standing.summary? ⟨outer, around, s⟩ = some a)
    (complete : ∀ a, Standing.summary? ⟨outer, around, s⟩ = some a → d.Complete a) :
    Standing.Told d ⟨outer, around, s⟩ := by
  refine ⟨own, fun a mem => ?_⟩
  rcases List.mem_append.mp mem with self | outside
  · exact complete a (Option.mem_toList.mp self)
  · obtain ⟨c, inside, found⟩ := List.mem_filterMap.mp outside
    exact near c inside a found

mutual

theorem told_of_live (s : Statement) {outer : ScopeId} {around : List Condition}
    (grounded : d.Grounded)
    (closed : d.Closed) (live : Live r d outer s) (traced : s.Every (Traced r d) outer)
    (near : ∀ c ∈ around, ∀ a, c.summary = some a → d.Complete a) :
    ∀ y ∈ s.leaves outer around, d.reach y.scope ≠ .never → y.Told d := by
  cases s with
  | declare s =>
    refine List.forall_mem_singleton.mpr fun _ => told_of_conditions near ?_ ?_
    · intro b aims
      cases aims
    · intro a found
      cases found
  | assign s =>
    refine List.forall_mem_singleton.mpr fun _ => told_of_conditions near ?_ ?_
    · intro b aims
      cases aims
    · intro a found
      cases found
  | contribute s =>
    obtain ⟨q, t, a, -, value, summary, held, covers, -⟩ := live.rests _ (List.mem_singleton_self _)
    obtain ⟨lasts, a', same, within⟩ := traced.some t value
    cases summary.symm.trans same
    have complete := Design.complete_of_held grounded closed lasts held.read covers within
    refine List.forall_mem_singleton.mpr fun _ =>
      told_of_conditions near (fun _ _ => ⟨a, summary⟩) ?_
    intro a' found
    cases summary.symm.trans found
    exact complete
  | conditional c thnScope thn elsScope els =>
    obtain ⟨t, a, value, summary, held, covers, -⟩ := live.rests _ List.mem_cons_self
    obtain ⟨⟨followed, -⟩, thnTraced, elsTraced⟩ := traced
    obtain ⟨lasts, a', same, within⟩ := followed.some t value
    cases summary.symm.trans same
    have complete := Design.complete_of_held grounded closed lasts held.read covers within
    have nearer : ∀ k ∈ c :: around, ∀ a, k.summary = some a → d.Complete a := by
      refine List.forall_mem_cons.mpr ⟨fun a' found => ?_, near⟩
      cases summary.symm.trans found
      exact complete
    refine List.forall_mem_append.mpr ⟨?_, ?_⟩
    · by_cases never : d.reachOf thnScope = .never
      · have unreached := unreachedAll thn (c :: around) live.fits.2.1
          (Design.reach_eq_never List.mem_cons_self never)
        exact fun y mem reached => absurd (unreached y mem) reached
      · exact told_of_liveAll thn grounded closed (live.thn never) thnTraced nearer
    · by_cases never : d.reachOf elsScope = .never
      · have unreached := unreachedAll els (c :: around) live.fits.2.2
          (Design.reach_eq_never List.mem_cons_self never)
        exact fun y mem reached => absurd (unreached y mem) reached
      · exact told_of_liveAll els grounded closed (live.els never) elsTraced nearer
  | block inner body => exact told_of_liveAll body grounded closed live.body traced.2 near

theorem told_of_liveAll (ss : List Statement) {outer : ScopeId} {around : List Condition}
    (grounded : d.Grounded) (closed : d.Closed) (live : LiveAll r d outer ss)
    (traced : EveryAll (Traced r d) outer ss) (near : ∀ c ∈ around, ∀ a, c.summary = some a →
      d.Complete a) :
    ∀ y ∈ leavesAll outer around ss, d.reach y.scope ≠ .never → y.Told d := by
  cases ss with
  | nil => exact fun y mem => absurd mem List.not_mem_nil
  | cons s ss =>
    exact List.forall_mem_append.mpr ⟨told_of_live s grounded closed live.head traced.1 near,
      told_of_liveAll ss grounded closed live.tail traced.2 near⟩

end

end Statement

namespace Design.Unmarked

variable {d : Design}

theorem marks (h : d.Unmarked) (x : Mention) : (d.marks x).items = [] := by
  cases x with
  | probe q =>
    obtain ⟨branch, access⟩ := q
    cases access with
    | potential => exact congrArg OrderedSet.items (h.branches branch).potential
    | flow => exact congrArg OrderedSet.items (h.branches branch).flow
  | «variable» v => exact congrArg OrderedSet.items (h.vars v)

end Design.Unmarked

namespace Device

section Finished

variable {m : Device} {r : Resolver} {d : Design}

end Finished

/-- Two variables that are set from themselves and from each other, a contribution of one of them
under a condition, and one that is never reached. -/
def ringCalls : List Operation :=
  let potential (name : String) : Raw := [.marker, .identifier name, .arguments, .identifier "V"]
  let flow (name : String) : Raw := [.marker, .identifier name, .arguments, .identifier "I"]
  [.port "p", .port "q", .port "s", .variable "x" .real, .variable "y" .real, .analog,
    .assign "x" [.identifier "x", .identifier "y", .binary .add],
    .assign "y" ([.identifier "x"] ++ potential "p" ++ [.binary .add]),
    .openConditional (potential "s" ++ [.literal (.int 0), .binary .gt]),
    .contribute (flow "q") [.identifier "x"], .close,
    .openConditional [.literal (.int 0)], .contribute (flow "s") [.identifier "y"],
      .close, .settle 0]

def ring : Device := ((Editor.ofDevice (create "ring" .default)).performAll ringCalls).device

end Device

end Analog
