import Mathlib.Data.List.Basic

/-!
# Computations that unwind

Code with a state that records what it does and ends by returning, by unwinding with a payload or
by aborting.  Code that is not at hand ends in the first two ways only; an abort comes from a
destructor that unwinds while another unwinding is under way.  The rules follow the shape of the
code.
-/

namespace DoomFishUtils.Library

set_option autoImplicit false

inductive Ending (P α : Type) where
  | returned (value : α)
  | unwound (payload : P)
  | aborted

/-- How code has run: its end, the state it leaves and its events in order. -/
structure Ran (P σ E α : Type) where
  ending : Ending P α
  state : σ
  events : List E

/-- Code that may unwind. -/
def Code (P σ E α : Type) : Type :=
  σ → Ran P σ E α

/-- Foreign code, which returns or unwinds. -/
abbrev Foreign (P σ α : Type) : Type :=
  σ → Except P α × σ

namespace Code

variable {P σ E α β : Type}

def bind (code : Code P σ E α) (next : α → Code P σ E β) : Code P σ E β :=
  fun s =>
    match code s with
    | ⟨.returned value, s, events⟩ =>
      let ran := next value s
      ⟨ran.ending, ran.state, events ++ ran.events⟩
    | ⟨.unwound payload, s, events⟩ => ⟨.unwound payload, s, events⟩
    | ⟨.aborted, s, events⟩ => ⟨.aborted, s, events⟩

instance : Monad (Code P σ E) where
  pure value := fun s => ⟨.returned value, s, []⟩
  bind := bind

/-- Records one event. -/
def emit (event : E) : Code P σ E Unit :=
  fun s => ⟨.returned (), s, [event]⟩

/-- Runs foreign code and records how it ended. -/
def run (note : Except P α → E) (foreign : Foreign P σ α) : Code P σ E α :=
  fun s =>
    match foreign s with
    | (.ok value, s) => ⟨.returned value, s, [note (.ok value)]⟩
    | (.error payload, s) => ⟨.unwound payload, s, [note (.error payload)]⟩

/-- Stops an unwinding. -/
def catchUnwind (code : Code P σ E α) : Code P σ E (Except P α) :=
  fun s =>
    match code s with
    | ⟨.returned value, s, events⟩ => ⟨.returned (.ok value), s, events⟩
    | ⟨.unwound payload, s, events⟩ => ⟨.returned (.error payload), s, events⟩
    | ⟨.aborted, s, events⟩ => ⟨.aborted, s, events⟩

/-- Code that runs while its frame holds a value.  An unwinding destroys the value on its way, and
aborts if the destructor unwinds too. -/
def holding (destructor : Code P σ E Unit) (code : Code P σ E α) : Code P σ E α :=
  fun s =>
    match code s with
    | ⟨.unwound payload, s, events⟩ =>
      match destructor s with
      | ⟨.returned _, s, later⟩ => ⟨.unwound payload, s, events ++ later⟩
      | ⟨_, s, later⟩ => ⟨.aborted, s, events ++ later⟩
    | ran => ran

/-- A scope that owns a value, which it destroys when it ends or unwinds. -/
def owning (destructor : Code P σ E Unit) (code : Code P σ E α) : Code P σ E α := do
  let value ← holding destructor code
  destructor
  return value

/-- How a scope ends, given the ends of its code and of the destructor. -/
def scopeEnding : Ending P α → Ending P Unit → Ending P α
  | .aborted, _ => .aborted
  | _, .aborted => .aborted
  | .unwound _, .unwound _ => .aborted
  | .returned _, .unwound payload => .unwound payload
  | ending, .returned () => ending

/-- The code does not abort, and ends as `post` says. -/
def Ends (code : Code P σ E α) (s : σ) (post : Except P α → σ → List E → Prop) : Prop :=
  match code s with
  | ⟨.returned value, s, events⟩ => post (.ok value) s events
  | ⟨.unwound payload, s, events⟩ => post (.error payload) s events
  | ⟨.aborted, _, _⟩ => False

/-- The code returns, as `post` says. -/
def Returns (code : Code P σ E α) (s : σ) (post : α → σ → List E → Prop) : Prop :=
  code.Ends s fun ending s events => ∃ value, ending = .ok value ∧ post value s events

section Rules

variable {code : Code P σ E α} {next : α → Code P σ E β} {s : σ}

lemma Ends.mono {strong weak : Except P α → σ → List E → Prop} (h : code.Ends s strong)
    (himp : ∀ ending s' events, strong ending s' events → weak ending s' events) :
    code.Ends s weak := by
  unfold Ends at *
  rcases hcode : code s with ⟨value | payload | _, s', events⟩ <;> rw [hcode] at h
  · exact himp _ _ _ h
  · exact himp _ _ _ h
  · exact h

lemma Returns.mono {strong weak : α → σ → List E → Prop} (h : code.Returns s strong)
    (himp : ∀ value s' events, strong value s' events → weak value s' events) :
    code.Returns s weak := by
  refine Ends.mono h ?_
  rintro ending s' events ⟨value, rfl, hpost⟩
  exact ⟨value, rfl, himp value s' events hpost⟩

lemma Returns.run_eq {post : α → σ → List E → Prop} (h : code.Returns s post) :
    ∃ value s' events, code s = ⟨.returned value, s', events⟩ ∧ post value s' events := by
  unfold Returns Ends at h
  rcases hcode : code s with ⟨value | payload | _, s', events⟩ <;> rw [hcode] at h
  · rcases h with ⟨value', hvalue, hpost⟩
    cases hvalue
    exact ⟨value, s', events, rfl, hpost⟩
  · rcases h with ⟨value', hvalue, -⟩
    cases hvalue
  · exact h.elim

lemma ends_pure {value : α} {post : Except P α → σ → List E → Prop} (h : post (.ok value) s []) :
    (pure value : Code P σ E α).Ends s post :=
  h

lemma returns_pure {value : α} {post : α → σ → List E → Prop} (h : post value s []) :
    (pure value : Code P σ E α).Returns s post :=
  ⟨value, rfl, h⟩

lemma returns_emit {event : E} {post : Unit → σ → List E → Prop} (h : post () s [event]) :
    (emit event : Code P σ E Unit).Returns s post :=
  ⟨(), rfl, h⟩

/-- The rule of sequences: the second part starts where the first returns. -/
lemma Ends.bind {Q : Except P α → σ → List E → Prop} {post : Except P β → σ → List E → Prop}
    (h : code.Ends s Q)
    (hnext : ∀ value s' events, Q (.ok value) s' events →
      (next value).Ends s' fun ending s'' later => post ending s'' (events ++ later))
    (hunwound : ∀ payload s' events, Q (.error payload) s' events →
      post (.error payload) s' events) : (code >>= next).Ends s post := by
  change (code.bind next).Ends s post
  unfold Ends Code.bind at *
  rcases hcode : code s with ⟨value | payload | _, s', events⟩ <;> rw [hcode] at h
  · have hlater := hnext value s' events h
    dsimp only
    rcases hran : next value s' with ⟨value' | payload | _, s'', later⟩ <;> rw [hran] at hlater <;>
      exact hlater
  · exact hunwound payload s' events h
  · exact h.elim

/-- The rule of sequences for a first part that returns. -/
lemma Returns.bind {Q : α → σ → List E → Prop} {post : Except P β → σ → List E → Prop}
    (h : code.Returns s Q)
    (hnext : ∀ value s' events, Q value s' events →
      (next value).Ends s' fun ending s'' later => post ending s'' (events ++ later)) :
    (code >>= next).Ends s post := by
  refine Ends.bind h ?_ ?_
  · rintro value s' events ⟨value', hvalue, hfirst⟩
    cases hvalue
    exact hnext value s' events hfirst
  · rintro payload s' events ⟨value, hvalue, -⟩
    cases hvalue

lemma Ends.catchUnwind {post : Except P α → σ → List E → Prop} (h : code.Ends s post) :
    code.catchUnwind.Returns s post := by
  unfold Returns Ends Code.catchUnwind at *
  rcases hcode : code s with ⟨value | payload | _, s', events⟩ <;> rw [hcode] at h
  · exact ⟨_, rfl, h⟩
  · exact ⟨_, rfl, h⟩
  · exact h

/-- A value that is held during code that returns is not destroyed. -/
lemma Returns.holding {destructor : Code P σ E Unit} {post : α → σ → List E → Prop}
    (h : code.Returns s post) : (holding destructor code).Returns s post := by
  rcases h.run_eq with ⟨value, s', events, hcode, hpost⟩
  unfold Returns Ends Code.holding
  rw [hcode]
  exact ⟨value, rfl, hpost⟩

/-- A scope destroys its value exactly once, after its code. -/
lemma owning_run {destructor : Code P σ E Unit} {ending : Ending P α} {s' : σ} {events : List E}
    (hcode : code s = ⟨ending, s', events⟩) (hends : ending ≠ .aborted) :
    owning destructor code s =
      ⟨scopeEnding ending (destructor s').ending, (destructor s').state,
        events ++ (destructor s').events⟩ := by
  change Code.bind _ _ s = _
  unfold Code.bind Code.holding
  rw [hcode]
  rcases ending with value | payload | _
  · change Ran.mk (Code.bind _ _ s').ending (Code.bind _ _ s').state
      (events ++ (Code.bind _ _ s').events) = _
    unfold Code.bind
    rcases destructor s' with ⟨⟨⟩ | payload | _, s'', later⟩
    · exact congrArg _ (congrArg (events ++ ·) (List.append_nil later))
    · rfl
    · rfl
  · dsimp only
    rcases destructor s' with ⟨⟨⟩ | payload' | _, s'', later⟩ <;> rfl
  · exact absurd rfl hends

lemma scopeEnding_eq_returned {ending : Ending P α} {closing : Ending P Unit} {value : α} :
    scopeEnding ending closing = .returned value ↔
      ending = .returned value ∧ closing = .returned () := by
  rcases ending with _ | _ | _ <;> rcases closing with ⟨⟨⟩⟩ | _ | _ <;> simp [scopeEnding]

lemma ends_run {note : Except P α → E} {foreign : Foreign P σ α}
    {post : Except P α → σ → List E → Prop}
    (h : post (foreign s).1 (foreign s).2 [note (foreign s).1]) : (run note foreign).Ends s post := by
  unfold Ends run
  rcases hforeign : foreign s with ⟨payload | value, s'⟩ <;> rw [hforeign] at h <;> exact h

end Rules

end Code

end DoomFishUtils.Library
