import Mathlib.Data.List.Basic

/-!
# Ledgers

A history is a list of events, latest first.  What its events add to a queue and what they
remove from it balance: everything added, in order, is everything removed, in order, and then
what the queue holds.
-/

namespace DoomFishUtils.Library

set_option autoImplicit false

variable {E T : Type*}

/-- What the events of a history contribute, oldest first. -/
def total (contribution : E → List T) : List E → List T
  | [] => []
  | event :: log => total contribution log ++ contribution event

/-- Additions are removals followed by what is held. -/
def Balanced (added removed : E → List T) (log : List E) (held : List T) : Prop :=
  total added log = total removed log ++ held

variable {added removed : E → List T} {log : List E} {held held' : List T} {event : E}

lemma mem_total {contribution : E → List T} {item : T} :
    item ∈ total contribution log ↔ ∃ event ∈ log, item ∈ contribution event := by
  induction log with
  | nil => simp [total]
  | cons event log ih => simp [total, ih, or_comm]

lemma total_cons_of_nil {contribution : E → List T} (h : contribution event = []) :
    total contribution (event :: log) = total contribution log := by
  rw [total, h, List.append_nil]

lemma Balanced.total_eq (h : Balanced added removed log held) :
    total added log = total removed log ++ held :=
  h

lemma balanced_nil : Balanced added removed [] [] :=
  rfl

lemma total_append (contribution : E → List T) (events log : List E) :
    total contribution (events ++ log) = total contribution log ++ total contribution events := by
  induction events with
  | nil => rw [List.nil_append, total, List.append_nil]
  | cons event events ih => rw [List.cons_append, total, ih, total, List.append_assoc]

/-- The books balance after events that balance. -/
lemma Balanced.append (h : Balanced added removed log held) (events : List E)
    (hevents : held ++ total added events = total removed events ++ held') :
    Balanced added removed (events ++ log) held' := by
  unfold Balanced at *
  rw [total_append, total_append, h, List.append_assoc, hevents, List.append_assoc]

/-- The books balance after an event that balances. -/
lemma Balanced.cons (h : Balanced added removed log held)
    (hevent : held ++ added event = removed event ++ held') :
    Balanced added removed (event :: log) held' :=
  h.append [event] (by simpa [total] using hevent)

lemma Balanced.cons_of_nil (h : Balanced added removed log held) (hadded : added event = [])
    (hremoved : removed event = []) : Balanced added removed (event :: log) held :=
  h.cons (by rw [hadded, hremoved, List.append_nil, List.nil_append])

/-- As `Balanced`, where the order does not matter. -/
def Conserved (added removed : E → List T) (log : List E) (held : List T) : Prop :=
  (total added log).Perm (total removed log ++ held)

lemma Conserved.cons (h : Conserved added removed log held)
    (hevent : (held ++ added event).Perm (removed event ++ held')) :
    Conserved added removed (event :: log) held' := by
  unfold Conserved total
  rw [List.append_assoc]
  calc
    (total added log ++ added event).Perm ((total removed log ++ held) ++ added event) :=
      h.append_right (added event)
    _ = total removed log ++ (held ++ added event) := List.append_assoc _ _ _
    List.Perm _ (total removed log ++ (removed event ++ held')) := hevent.append_left _

lemma total_sublist {part whole : E → List T} (h : ∀ event, (part event).Sublist (whole event)) :
    (total part log).Sublist (total whole log) := by
  induction log with
  | nil => exact .slnil
  | cons event log ih => exact ih.append (h event)

lemma total_congr {first second : E → List T} (h : ∀ event ∈ log, first event = second event) :
    total first log = total second log := by
  induction log with
  | nil => rfl
  | cons event log ih =>
    rw [total, total, h event List.mem_cons_self,
      ih fun event hmem => h event (List.mem_cons_of_mem _ hmem)]

lemma map_total {U : Type*} (f : T → U) (contribution : E → List T) (log : List E) :
    (total contribution log).map f = total (fun event => (contribution event).map f) log := by
  induction log with
  | nil => rfl
  | cons event log ih => rw [total, List.map_append, ih, total]

end DoomFishUtils.Library
