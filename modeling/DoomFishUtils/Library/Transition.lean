import Mathlib.Logic.Basic

/-!
# Transition systems

Labelled transition systems, their reachable states and their runs. An invariant is
proved once for the initial states and once for a step; the rules here lift it to every
reachable state and along every run. A simulation carries the runs of one system to the
runs of another.
-/

namespace DoomFishUtils.Library

/-- Initial states and a labelled step relation. -/
structure System (σ α : Type*) where
  init : σ → Prop
  step : σ → α → σ → Prop

namespace System

variable {σ α τ β : Type*}

/-- The system of a partial step function. -/
def ofNext (start : σ) (next : σ → α → Option σ) : System σ α where
  init s := s = start
  step s a s' := next s a = some s'

/-- The states that some sequence of steps reaches. -/
inductive Reachable (M : System σ α) : σ → Prop
  | init {s : σ} : M.init s → Reachable M s
  | step {s s' : σ} {a : α} : Reachable M s → M.step s a s' → Reachable M s'

/-- `Run M s as s'`: the labels `as` lead from `s` to `s'`. -/
inductive Run (M : System σ α) (s : σ) : List α → σ → Prop
  | nil : Run M s [] s
  | snoc {as : List α} {a : α} {s' s'' : σ} :
      Run M s as s' → M.step s' a s'' → Run M s (as ++ [a]) s''

variable {M : System σ α}

/-- A property of the initial states that every step keeps holds in every reachable state. -/
theorem Reachable.invariant {P : σ → Prop} (hinit : ∀ s, M.init s → P s)
    (hstep : ∀ s a s', P s → M.step s a s' → P s') {s : σ} (h : M.Reachable s) : P s := by
  induction h with
  | init hi => exact hinit _ hi
  | step _ hs ih => exact hstep _ _ _ ih hs

/-- As `Reachable.invariant`, with the reachability of the state before the step at hand. -/
theorem Reachable.invariant' {P : σ → Prop} (hinit : ∀ s, M.init s → P s)
    (hstep : ∀ s a s', M.Reachable s → P s → M.step s a s' → P s') {s : σ}
    (h : M.Reachable s) : P s := by
  induction h with
  | init hi => exact hinit _ hi
  | step hr hs ih => exact hstep _ _ _ hr ih hs

/-- A property that every step allowed by `A` keeps holds along every run of such steps. -/
theorem Run.invariant {P : σ → Prop} {A : α → Prop}
    (hstep : ∀ s a s', A a → P s → M.step s a s' → P s') {s s' : σ} {as : List α}
    (h : M.Run s as s') (hA : ∀ a ∈ as, A a) (hs : P s) : P s' := by
  induction h with
  | nil => exact hs
  | @snoc as a t t' _ ht ih =>
    have hbefore : P t := ih (fun b hb => hA b (by simp [hb]))
    exact hstep t a t' (hA a (by simp)) hbefore ht

theorem Run.reachable {s s' : σ} {as : List α} (h : M.Run s as s') (hs : M.Reachable s) :
    M.Reachable s' := by
  induction h with
  | nil => exact hs
  | snoc _ ht ih => exact ih.step ht

theorem Run.append {s s' s'' : σ} {as bs : List α} (h : M.Run s as s') (h' : M.Run s' bs s'') :
    M.Run s (as ++ bs) s'' := by
  induction h' with
  | nil => rwa [List.append_nil]
  | snoc _ hlast ih =>
    rw [← List.append_assoc]
    exact ih.snoc hlast

/-- A step before a run. -/
theorem Run.head {s s' s'' : σ} {a : α} {as : List α} (hstep : M.step s a s')
    (h : M.Run s' as s'') : M.Run s (a :: as) s'' := by
  induction h with
  | nil => exact Run.nil.snoc hstep
  | snoc _ hlast ih => exact ih.snoc hlast

/-- Where every allowed step of `M` is matched by a step of `N` with the same label, runs of
`M` are matched by runs of `N`. -/
theorem Run.simulate {N : System τ α} (rel : σ → τ → Prop) (A : α → Prop)
    (hstep : ∀ s a s' t, A a → rel s t → M.step s a s' → ∃ t', N.step t a t' ∧ rel s' t')
    {s s' : σ} {as : List α} (h : M.Run s as s') (hA : ∀ a ∈ as, A a) {t : τ} (ht : rel s t) :
    ∃ t', N.Run t as t' ∧ rel s' t' := by
  induction h with
  | nil => exact ⟨t, .nil, ht⟩
  | @snoc as a u u' _ hlast ih =>
    rcases ih fun b hb => hA b (by simp [hb]) with ⟨v, hrun, hrel⟩
    rcases hstep u a u' v (hA a (by simp)) hrel hlast with ⟨v', hv', hrel'⟩
    exact ⟨v', hrun.snoc hv', hrel'⟩

/-! ### Simulations -/

/-- A relation between the states of two systems, such that every step of the first is
matched by a step of the second or leaves the related state where it is. -/
structure Simulation (M : System σ α) (N : System τ β) where
  rel : σ → τ → Prop
  init : ∀ s, M.init s → ∃ t, N.init t ∧ rel s t
  step : ∀ s a s' t, rel s t → M.step s a s' → rel s' t ∨ ∃ b t', N.step t b t' ∧ rel s' t'

/-- Every reachable state is related to a reachable state of the simulating system. -/
theorem Simulation.reachable {N : System τ β} (S : Simulation M N) {s : σ} (h : M.Reachable s) :
    ∃ t, N.Reachable t ∧ S.rel s t := by
  induction h with
  | init hi =>
    rcases S.init _ hi with ⟨t, ht, hrel⟩
    exact ⟨t, .init ht, hrel⟩
  | step _ hs ih =>
    rcases ih with ⟨t, ht, hrel⟩
    rcases S.step _ _ _ t hrel hs with hsame | ⟨b, t', hstep, hrel'⟩
    · exact ⟨t, ht, hsame⟩
    · exact ⟨t', ht.step hstep, hrel'⟩

/-- As a simulation, where any number of steps of the second system match a step of the first. -/
structure Refinement (M : System σ α) (N : System τ β) where
  rel : σ → τ → Prop
  init : ∀ s, M.init s → ∃ t, N.init t ∧ rel s t
  step : ∀ s a s' t, rel s t → M.step s a s' → ∃ bs t', N.Run t bs t' ∧ rel s' t'

/-- Every reachable state is related to a reachable state of the refined system. -/
theorem Refinement.reachable {N : System τ β} (R : Refinement M N) {s : σ} (h : M.Reachable s) :
    ∃ t, N.Reachable t ∧ R.rel s t := by
  induction h with
  | init hi =>
    rcases R.init _ hi with ⟨t, ht, hrel⟩
    exact ⟨t, .init ht, hrel⟩
  | step _ hs ih =>
    rcases ih with ⟨t, ht, hrel⟩
    rcases R.step _ _ _ t hrel hs with ⟨bs, t', hrun, hrel'⟩
    exact ⟨t', hrun.reachable ht, hrel'⟩

/-! ### Recording a history -/

section Recorded

variable {ε : Type*} {note : σ → α → List ε}

/-- The system that also records what `note` says of each step, latest first. -/
def recorded (M : System σ α) (note : σ → α → List ε) : System (σ × List ε) α where
  init s := M.init s.1 ∧ s.2 = []
  step s a s' := M.step s.1 a s'.1 ∧ s'.2 = note s.1 a ++ s.2

/-- Forgetting the history. -/
def forget (M : System σ α) (note : σ → α → List ε) : Simulation (M.recorded note) M where
  rel s t := s.1 = t
  init s hi := ⟨s.1, hi.1, rfl⟩
  step _ a s' _ hrel hs := .inr ⟨a, s'.1, hrel ▸ hs.1, rfl⟩

theorem Reachable.of_recorded {s : σ × List ε} (h : (M.recorded note).Reachable s) :
    M.Reachable s.1 := by
  rcases (forget M note).reachable h with ⟨t, ht, hrel⟩
  exact hrel ▸ ht

end Recorded

/-! ### Replaying a list of actions -/

/-- The state after a list of actions, if every one of them is enabled in its turn. -/
def replay (next : σ → α → Option σ) (s : σ) (as : List α) : Option σ :=
  as.foldlM next s

theorem reachable_of_replay {start s : σ} {next : σ → α → Option σ} {as : List α}
    (h : replay next start as = some s) : (ofNext start next).Reachable s := by
  have key : ∀ t, (ofNext start next).Reachable t → replay next t as = some s →
      (ofNext start next).Reachable s := by
    clear h
    induction as with
    | nil =>
      intro t ht h
      obtain rfl : t = s := by simpa [replay] using h
      exact ht
    | cons a as ih =>
      intro t ht h
      simp only [replay, List.foldlM_cons, Option.bind_eq_bind, Option.bind_eq_some_iff] at h
      obtain ⟨t', hstep, hrest⟩ := h
      exact ih t' (ht.step hstep) hrest
  exact key start (.init rfl) h

theorem run_of_replay {start s s' : σ} {next : σ → α → Option σ} {as : List α}
    (h : replay next s as = some s') : (ofNext start next).Run s as s' := by
  induction as generalizing s with
  | nil =>
    obtain rfl : s = s' := by simpa [replay] using h
    exact .nil
  | cons a as ih =>
    simp only [replay, List.foldlM_cons, Option.bind_eq_bind, Option.bind_eq_some_iff] at h
    obtain ⟨t, hstep, hrest⟩ := h
    exact Run.head hstep (ih hrest)

/-- The run of a replay that goes through. -/
theorem run_replay {start s : σ} {next : σ → α → Option σ} {as : List α}
    (h : (replay next s as).isSome) : (ofNext start next).Run s as ((replay next s as).get h) :=
  run_of_replay (Option.some_get h).symm

/-- Where two step functions are enabled together and lead to related states, the runs of one are
matched by runs of the other. -/
theorem Run.lockstep {start : σ} {start' : τ} {next : σ → α → Option σ} {next' : τ → α → Option τ}
    (rel : σ → τ → Prop) (hnext : ∀ s t a, rel s t → Option.Rel rel (next s a) (next' t a))
    {s s' : σ} {as : List α} (h : (ofNext start next).Run s as s') {t : τ} (ht : rel s t) :
    ∃ t', (ofNext start' next').Run t as t' ∧ rel s' t' := by
  refine h.simulate rel (fun _ => True) ?_ (fun _ _ => trivial) ht
  intro s a s' t _ hrel hstep
  have hafter := hnext s t a hrel
  rw [show next s a = some s' from hstep] at hafter
  rcases hnext' : next' t a with _ | t' <;> rw [hnext'] at hafter <;> cases hafter
  next hrel' => exact ⟨t', hnext', hrel'⟩

/-- The end of a replay that goes through. -/
theorem reachable_replay {start : σ} {next : σ → α → Option σ} {as : List α}
    (h : (replay next start as).isSome) :
    (ofNext start next).Reachable ((replay next start as).get h) :=
  reachable_of_replay (Option.some_get h).symm

/-- A step function that records as `recorded` does. -/
def recordedNext {ε : Type*} (next : σ → α → Option σ) (note : σ → α → List ε) (s : σ × List ε)
    (a : α) : Option (σ × List ε) :=
  (next s.1 a).map fun s' => (s', note s.1 a ++ s.2)

/-- The end of a recorded replay that goes through. -/
theorem reachable_recorded_replay {ε : Type*} {start : σ} {next : σ → α → Option σ}
    {note : σ → α → List ε} {as : List α}
    (h : (replay (recordedNext next note) (start, []) as).isSome) :
    ((ofNext start next).recorded note).Reachable
      ((replay (recordedNext next note) (start, []) as).get h) := by
  refine (reachable_replay h).invariant ?_ ?_
  · rintro s rfl
    exact .init ⟨rfl, rfl⟩
  · intro s a s' hs hstep
    rcases Option.map_eq_some_iff.mp hstep with ⟨t, ht, rfl⟩
    exact hs.step ⟨ht, rfl⟩

end System

end DoomFishUtils.Library
