import Mathlib.Data.List.Basic

/-!
# A thread and its lock

What one thread does with a lock that it must not take while it holds it.  Foreign code may call
back into the operations that take the lock; where it stays out of the critical sections no such
call, however deep, meets the lock in the hands of its own thread.
-/

namespace DoomFishUtils.Library

set_option autoImplicit false

/-- What an event is to the lock. -/
inductive LockMark where
  | acquires
  | releases
  | foreign
  | neutral

namespace LockMark

/-- Whether the thread holds the lock after an event. -/
def holds : LockMark → Bool → Bool
  | .acquires, _ => true
  | .releases, _ => false
  | .foreign, held => held
  | .neutral, held => held

/-- The event may come while the thread holds the lock, or while it does not. -/
def allowed : LockMark → Bool → Bool
  | .acquires, held => !held
  | .releases, held => held
  | .foreign, held => !held
  | .neutral, _ => true

end LockMark

variable {E : Type*} (mark : E → LockMark)

/-- Whether the thread holds the lock after these events. -/
def holdsAfter : Bool → List E → Bool
  | held, [] => held
  | held, event :: events => holdsAfter ((mark event).holds held) events

/-- The thread takes the lock and runs foreign code only while it does not hold the lock, and has
released the lock in the end. -/
def apart : Bool → List E → Bool
  | held, [] => !held
  | held, event :: events => (mark event).allowed held && apart ((mark event).holds held) events

/-- What a thread does when the foreign code of its calls makes calls in its turn. -/
inductive Reentrant (Call : List E → Prop) : List E → Prop
  | nil : Reentrant Call []
  | call {events rest : List E} :
      Call events → Reentrant Call rest → Reentrant Call (events ++ rest)
  | within {before inner after : List E} {event : E} :
      Reentrant Call (before ++ event :: after) → mark event = .foreign →
      Reentrant Call inner → Reentrant Call (before ++ event :: (inner ++ after))

variable {mark} {held : Bool} {events before after rest inner : List E} {event : E}

lemma apart_cons : apart mark held (event :: events) = true ↔
    (mark event).allowed held = true ∧ apart mark ((mark event).holds held) events = true :=
  Bool.and_eq_true_iff

/-- After events that leave the lock free the thread may go on. -/
lemma apart_append (h : apart mark held events = true) (hrest : apart mark false rest = true) :
    apart mark held (events ++ rest) = true := by
  induction events generalizing held with
  | nil =>
    rw [apart, Bool.not_eq_true'] at h
    rwa [h]
  | cons event events ih =>
    rw [List.cons_append, apart_cons]
    exact (apart_cons.mp h).imp_right ih

/-- Foreign code outside of the sections. -/
lemma apart_of_foreign (h : ∀ event ∈ events, mark event = .foreign ∨ mark event = .neutral) :
    apart mark false events = true := by
  induction events with
  | nil => rfl
  | cons event events ih =>
    have hrest := ih fun other hmem => h other (List.mem_cons_of_mem _ hmem)
    rw [apart_cons]
    rcases h event List.mem_cons_self with hmark | hmark <;> rw [hmark]
    · exact ⟨rfl, hrest⟩
    · exact ⟨rfl, hrest⟩

/-- Where foreign code runs or the lock is taken, the thread does not hold the lock. -/
lemma holdsAfter_of_apart (h : apart mark held (before ++ event :: after) = true)
    (hevent : mark event = .acquires ∨ mark event = .foreign) :
    holdsAfter mark held before = false := by
  induction before generalizing held with
  | nil =>
    have hallowed := (apart_cons.mp h).1
    rcases hevent with hmark | hmark <;> rw [hmark] at hallowed
    · exact (Bool.not_eq_true' held).mp hallowed
    · exact (Bool.not_eq_true' held).mp hallowed
  | cons first before ih => exact ih (apart_cons.mp h).2

/-- Calls from foreign code. -/
lemma apart_within (h : apart mark held (before ++ event :: after) = true)
    (hevent : mark event = .foreign) (hinner : apart mark false inner = true) :
    apart mark held (before ++ event :: (inner ++ after)) = true := by
  have hfree := holdsAfter_of_apart h (.inr hevent)
  induction before generalizing held with
  | nil =>
    rw [holdsAfter] at hfree
    rw [hfree, List.nil_append, apart_cons, hevent] at h
    rw [hfree, List.nil_append, apart_cons, hevent]
    exact h.imp_right (apart_append hinner)
  | cons first before ih =>
    rw [List.cons_append, apart_cons]
    exact (apart_cons.mp h).imp_right fun hrest => ih hrest hfree

variable {Call : List E → Prop}

lemma Reentrant.apart (hcall : ∀ events, Call events → Library.apart mark false events = true)
    (h : Reentrant mark Call events) : Library.apart mark false events = true := by
  induction h with
  | nil => rfl
  | call hfirst _ ih => exact apart_append (hcall _ hfirst) ih
  | within _ hevent _ ih hinner => exact apart_within ih hevent hinner

/-- Where the calls keep foreign code out of their sections, the thread never takes the lock while
it holds it. -/
theorem Reentrant.never_blocks
    (hcall : ∀ events, Call events → Library.apart mark false events = true)
    (h : Reentrant mark Call (before ++ event :: after)) (hevent : mark event = .acquires) :
    holdsAfter mark false before = false :=
  holdsAfter_of_apart (h.apart hcall) (.inl hevent)

end DoomFishUtils.Library
