import Mathlib.Data.List.Basic

/-!
# Histories

A history is a list of events, latest first.  This file relates its latest event of a kind, and
what happened since, to those of the history with one more event.
-/

namespace DoomFishUtils.Library

set_option autoImplicit false

variable {E : Type*}

/-- The latest event of a kind. -/
def Latest (kind : E → Bool) (log : List E) (event : E) : Prop :=
  log.find? kind = some event

/-- An event after the latest one of a kind. -/
def Since (kind : E → Bool) (log : List E) (event : E) : Prop :=
  event ∈ log.takeWhile fun other => !kind other

variable {kind : E → Bool} {log : List E} {event other : E}

lemma latest_cons_of_neg (h : kind event = false) :
    Latest kind (event :: log) other ↔ Latest kind log other := by
  unfold Latest
  rw [List.find?_cons_of_neg (by simp [h])]

lemma latest_cons_of_pos (h : kind event = true) :
    Latest kind (event :: log) other ↔ event = other := by
  unfold Latest
  rw [List.find?_cons_of_pos h, Option.some.injEq]

lemma latest_append_of_neg {events : List E} (h : ∀ event ∈ events, kind event = false) :
    Latest kind (events ++ log) other ↔ Latest kind log other := by
  induction events with
  | nil => rfl
  | cons head events ih =>
    rw [List.cons_append, latest_cons_of_neg (h head List.mem_cons_self),
      ih fun event hmem => h event (List.mem_cons_of_mem head hmem)]

lemma latest_map_append_of_neg {A : Type*} {f : A → E} (h : ∀ item, kind (f item) = false)
    (items : List A) : Latest kind (items.map f ++ log) other ↔ Latest kind log other := by
  refine latest_append_of_neg fun event hmem => ?_
  rcases List.mem_map.mp hmem with ⟨item, -, rfl⟩
  exact h item

lemma Latest.eq (h : Latest kind log event) (h' : Latest kind log other) : event = other :=
  Option.some.inj (h.symm.trans h')

lemma Since.cons (h : kind event = false) (hsince : Since kind log other) :
    Since kind (event :: log) other := by
  unfold Since
  rw [List.takeWhile_cons_of_pos (by simp [h])]
  exact List.mem_cons_of_mem _ hsince

lemma since_cons_self (h : kind event = false) : Since kind (event :: log) event := by
  unfold Since
  rw [List.takeWhile_cons_of_pos (by simp [h])]
  exact List.mem_cons_self

/-- Every event is as `P` says about the events before it. -/
def Throughout (P : E → List E → Prop) : List E → Prop
  | [] => True
  | event :: log => P event log ∧ Throughout P log

lemma Throughout.of_split {P : E → List E → Prop} {later earlier : List E}
    (h : Throughout P (later ++ event :: earlier)) : P event earlier := by
  induction later with
  | nil => exact h.1
  | cons head later ih => exact ih h.2

lemma Throughout.append {P : E → List E → Prop} {events : List E} (h : Throughout P log)
    (hevents : ∀ later event earlier, events = later ++ event :: earlier →
      P event (earlier ++ log)) : Throughout P (events ++ log) := by
  induction events with
  | nil => exact h
  | cons head events ih =>
    refine ⟨hevents [] head events rfl, ih fun later event earlier heq => ?_⟩
    exact hevents (head :: later) event earlier (by rw [heq, List.cons_append])

end DoomFishUtils.Library
