import DoomFishUtils.Library.History
import DoomFishUtils.Mutex.Model
import Mathlib.Data.List.Forall2
import Mathlib.Logic.Function.Basic

/-!
# Exclusion and remembered waiters

Who waits, since when and with which waker is read off the history.  The invariant ties the
registrations to it and says that an unlocked mutex with waiters owes its oldest waiter no
wake that is not already due.
-/

namespace DoomFishUtils.Mutex

set_option autoImplicit false

open DoomFishUtils.Library

variable {ι W : Type} [DecidableEq ι]

section History

def Event.isPollOf (future : ι) : Event ι W → Bool
  | .polled other _ _ => decide (other = future)
  | _ => false

/-- The future has not been dropped and its latest poll, with this waker, returned pending. -/
def Waiting (log : List (Event ι W)) (future : ι) (waker : W) : Prop :=
  Latest (Event.isPollOf future) log (.polled future waker .pending) ∧ .dropped future ∉ log

/-- When the future's first pending poll was, counting from its latest completion if it was
polled again after one. -/
def arrival (future : ι) : List (Event ι W) → Option ℕ
  | [] => none
  | .polled other _ .pending :: log =>
    if other = future then some ((arrival future log).getD log.length) else arrival future log
  | .polled other _ .ready :: log => if other = future then none else arrival future log
  | .dropped other :: log => if other = future then none else arrival future log
  | _ :: log => arrival future log

/-- The waker has been called after the future's latest poll. -/
def WokenSincePoll (log : List (Event ι W)) (future : ι) (waker : W) : Prop :=
  Since (Event.isPollOf future) log (.woke waker)

variable {log : List (Event ι W)} {future : ι} {waker : W}

lemma waiting_cons_of_other {event : Event ι W} (hpoll : event.isPollOf future = false)
    (hdrop : event ≠ .dropped future) :
    Waiting (event :: log) future waker ↔ Waiting log future waker := by
  unfold Waiting
  rw [latest_cons_of_neg hpoll, List.mem_cons, not_or]
  exact ⟨fun h => ⟨h.1, h.2.2⟩, fun h => ⟨h.1, Ne.symm hdrop, h.2⟩⟩

lemma waiting_cons_polled {waker' : W} {outcome : Outcome} :
    Waiting (.polled future waker outcome :: log) future waker' ↔
      outcome = .pending ∧ waker' = waker ∧ .dropped future ∉ log := by
  unfold Waiting
  rw [latest_cons_of_pos (by simp [Event.isPollOf])]
  constructor
  · rintro ⟨heq, hdrop⟩
    injection heq with _ hwaker houtcome
    exact ⟨houtcome, hwaker.symm, fun hmem => hdrop (List.mem_cons_of_mem _ hmem)⟩
  · rintro ⟨rfl, rfl, hdrop⟩
    refine ⟨rfl, fun hmem => ?_⟩
    rcases List.mem_cons.mp hmem with h | h
    · cases h
    · exact hdrop h

lemma not_waiting_cons_dropped : ¬Waiting (.dropped future :: log) future waker :=
  fun h => h.2 List.mem_cons_self

lemma arrival_cons_of_other {event : Event ι W} (hpoll : event.isPollOf future = false)
    (hdrop : event ≠ .dropped future) : arrival future (event :: log) = arrival future log := by
  rcases event with ⟨other, waker, _ | _ | _⟩ | other | granted | _ | waker
  · have hne : other ≠ future := by simpa [Event.isPollOf] using hpoll
    simp only [arrival, if_neg hne]
  · have hne : other ≠ future := by simpa [Event.isPollOf] using hpoll
    simp only [arrival, if_neg hne]
  · rfl
  · have hne : other ≠ future := fun h => hdrop (h ▸ rfl)
    simp only [arrival, if_neg hne]
  · rfl
  · rfl
  · rfl

lemma arrival_cons_pending :
    arrival future (.polled future waker .pending :: log) =
      some ((arrival future log).getD log.length) := by
  simp [arrival]

end History

section Queue

/-- The registrations against the history: which numbers the futures hold, which entries they
have and in which order they came. -/
structure Queue (waiters : List (ℕ × W)) (nextWaiter : ℕ) (waiter : ι → Option ℕ)
    (log : List (Event ι W)) : Prop where
  sorted : SortedKeys waiters
  le_next : ∀ {future id}, waiter future = some id → id ≤ nextWaiter
  injective : ∀ {future other id}, waiter future = some id → waiter other = some id →
    future = other
  numbered : ∀ {future waker}, Waiting log future waker → ∃ id, waiter future = some id
  registered : ∀ {future id waker}, waiter future = some id →
    ((id, waker) ∈ waiters ↔ Waiting log future waker)
  owned : ∀ {id waker}, (id, waker) ∈ waiters → ∃ future, waiter future = some id
  arrived : ∀ {future id}, waiter future = some id →
    ∃ time, arrival future log = some time ∧ time < log.length
  unarrived : ∀ {future}, waiter future = none → arrival future log = none
  ordered : ∀ {future other id id' time time'}, waiter future = some id →
    waiter other = some id' → arrival future log = some time →
    arrival other log = some time' → id < id' → time < time'

namespace Queue

variable {waiters : List (ℕ × W)} {nextWaiter : ℕ} {waiter : ι → Option ℕ}
  {log : List (Event ι W)} {event : Event ι W} {future : ι} {waker : W}

lemma nil : Queue ([] : List (ℕ × W)) 0 (fun _ : ι => none) [] where
  sorted := .nil
  le_next h := by cases h
  injective h := by cases h
  numbered h := by simp [Waiting, Latest] at h
  registered h := by cases h
  owned h := by cases h
  arrived h := by cases h
  unarrived _ := rfl
  ordered h := by cases h

/-- An event that polls and drops no future changes nothing. -/
lemma other (h : Queue waiters nextWaiter waiter log)
    (hpoll : ∀ future : ι, event.isPollOf future = false)
    (hdrop : ∀ future : ι, event ≠ .dropped future) :
    Queue waiters nextWaiter waiter (event :: log) where
  sorted := h.sorted
  le_next := h.le_next
  injective := h.injective
  numbered hwaiting :=
    h.numbered ((waiting_cons_of_other (hpoll _) (hdrop _)).mp hwaiting)
  registered hsome := by
    rw [waiting_cons_of_other (hpoll _) (hdrop _)]
    exact h.registered hsome
  owned := h.owned
  arrived hsome := by
    rcases h.arrived hsome with ⟨time, harrival, hlt⟩
    refine ⟨time, ?_, Nat.lt_succ_of_lt hlt⟩
    rw [arrival_cons_of_other (hpoll _) (hdrop _)]
    exact harrival
  unarrived hnone := by
    rw [arrival_cons_of_other (hpoll _) (hdrop _)]
    exact h.unarrived hnone
  ordered hsome hsome' harrival harrival' := by
    rw [arrival_cons_of_other (hpoll _) (hdrop _)] at harrival harrival'
    exact h.ordered hsome hsome' harrival harrival'

/-- A future that completes, panics unregistered or is dropped leaves with its own entry
only. -/
lemma leave (h : Queue waiters nextWaiter waiter log) {waiters' : List (ℕ × W)}
    (hsorted : SortedKeys waiters')
    (hmem : ∀ id waker, (id, waker) ∈ waiters' ↔ waiter future ≠ some id ∧ (id, waker) ∈ waiters)
    (hpoll : ∀ other, other ≠ future → event.isPollOf other = false)
    (hdrop : ∀ other, other ≠ future → event ≠ .dropped other)
    (hwaiting : ∀ waker, ¬Waiting (event :: log) future waker)
    (harrival : arrival future (event :: log) = none) :
    Queue waiters' nextWaiter (Function.update waiter future none) (event :: log) := by
  have hwaiter : ∀ {other : ι} {id : ℕ}, Function.update waiter future none other = some id →
      other ≠ future ∧ waiter other = some id := by
    intro other id hsome
    by_cases heq : other = future
    · simp [heq] at hsome
    · exact ⟨heq, by rwa [Function.update_of_ne heq] at hsome⟩
  have hstays : ∀ {other : ι} {id : ℕ}, Function.update waiter future none other = some id →
      arrival other (event :: log) = arrival other log := fun hsome =>
    arrival_cons_of_other (hpoll _ (hwaiter hsome).1) (hdrop _ (hwaiter hsome).1)
  constructor
  case sorted => exact hsorted
  case le_next => exact fun hsome => h.le_next (hwaiter hsome).2
  case injective => exact fun hsome hsome' => h.injective (hwaiter hsome).2 (hwaiter hsome').2
  case numbered =>
    intro other waker hother
    have hne : other ≠ future := fun heq => hwaiting waker (heq ▸ hother)
    rw [Function.update_of_ne hne]
    exact h.numbered ((waiting_cons_of_other (hpoll _ hne) (hdrop _ hne)).mp hother)
  case registered =>
    intro other id waker hsome
    rcases hwaiter hsome with ⟨hne, hold⟩
    rw [waiting_cons_of_other (hpoll _ hne) (hdrop _ hne), hmem, ← h.registered hold]
    exact and_iff_right fun hfuture => hne (h.injective hold hfuture)
  case owned =>
    intro id waker hentry
    rcases (hmem id waker).mp hentry with ⟨hnot, hold⟩
    rcases h.owned hold with ⟨other, hother⟩
    have hne : other ≠ future := fun heq => hnot (heq ▸ hother)
    exact ⟨other, by rw [Function.update_of_ne hne, hother]⟩
  case arrived =>
    intro other id hsome
    rcases h.arrived (hwaiter hsome).2 with ⟨time, hold, hlt⟩
    exact ⟨time, (hstays hsome).trans hold, Nat.lt_succ_of_lt hlt⟩
  case unarrived =>
    intro other hnone
    by_cases heq : other = future
    · rw [heq, harrival]
    · rw [Function.update_of_ne heq] at hnone
      rw [arrival_cons_of_other (hpoll _ heq) (hdrop _ heq), h.unarrived hnone]
  case ordered =>
    intro other other' id id' time time' hsome hsome' htime htime'
    rw [hstays hsome] at htime
    rw [hstays hsome'] at htime'
    exact h.ordered (hwaiter hsome).2 (hwaiter hsome').2 htime htime'

/-- The number that a future holds, or the next one, is no other future's. -/
lemma ne_of_entering (h : Queue waiters nextWaiter waiter log) {id next : ℕ}
    (hid : (waiter future = some id ∧ next = nextWaiter) ∨
      (waiter future = none ∧ id = nextWaiter + 1 ∧ next = nextWaiter + 1))
    {other : ι} {id' : ℕ} (hsome : waiter other = some id') (hne : other ≠ future) : id' ≠ id := by
  rintro rfl
  rcases hid with ⟨hold, -⟩ | ⟨-, hid, -⟩
  · exact hne (h.injective hsome hold)
  · have := h.le_next hsome
    omega

/-- A first pending poll comes after all others; a later one keeps its time. -/
lemma arrival_of_entering (h : Queue waiters nextWaiter waiter log) {id next : ℕ}
    (hid : (waiter future = some id ∧ next = nextWaiter) ∨
      (waiter future = none ∧ id = nextWaiter + 1 ∧ next = nextWaiter + 1)) (waker : W) :
    (waiter future = some id ∧
        arrival future (.polled future waker .pending :: log) = arrival future log) ∨
      (nextWaiter < id ∧
        arrival future (.polled future waker .pending :: log) = some log.length) := by
  rw [arrival_cons_pending]
  rcases hid with ⟨hold, -⟩ | ⟨hnone, rfl, -⟩
  · rcases h.arrived hold with ⟨time, harrival, -⟩
    exact .inl ⟨hold, by rw [harrival, Option.getD_some]⟩
  · exact .inr ⟨Nat.lt_succ_self _, by rw [h.unarrived hnone, Option.getD_none]⟩

/-- The numbers after a future has entered. -/
lemma update_eq_some {id id' : ℕ} {other : ι} :
    Function.update waiter future (some id) other = some id' ↔
      other = future ∧ id' = id ∨ other ≠ future ∧ waiter other = some id' := by
  by_cases heq : other = future
  · rw [heq, Function.update_self, Option.some.injEq]
    simp [eq_comm]
  · rw [Function.update_of_ne heq]
    simp [heq]

/-- Also with the future that enters, numbers are in the order of arrival. -/
lemma ordered_of_entering (h : Queue waiters nextWaiter waiter log) {id next : ℕ}
    (hid : (waiter future = some id ∧ next = nextWaiter) ∨
      (waiter future = none ∧ id = nextWaiter + 1 ∧ next = nextWaiter + 1))
    (hstays : ∀ {other : ι}, other ≠ future →
      arrival other (.polled future waker .pending :: log) = arrival other log)
    {first second : ι} {id₁ id₂ time₁ time₂ : ℕ}
    (hfirst : Function.update waiter future (some id) first = some id₁)
    (hsecond : Function.update waiter future (some id) second = some id₂)
    (htime₁ : arrival first (.polled future waker .pending :: log) = some time₁)
    (htime₂ : arrival second (.polled future waker .pending :: log) = some time₂)
    (hlt : id₁ < id₂) : time₁ < time₂ := by
  have htime := h.arrival_of_entering hid waker
  rcases update_eq_some.mp hfirst with ⟨heq, hid₁⟩ | ⟨hne, hfirst⟩ <;>
    rcases update_eq_some.mp hsecond with ⟨heq', hid₂⟩ | ⟨hne', hsecond⟩
  · omega
  · rw [heq] at htime₁
    rw [hstays hne'] at htime₂
    rcases htime with ⟨hold, hsame⟩ | ⟨hfresh, -⟩
    · exact h.ordered (hid₁ ▸ hold) hsecond (hsame ▸ htime₁) htime₂ hlt
    · have := h.le_next hsecond
      omega
  · rw [hstays hne] at htime₁
    rw [heq'] at htime₂
    rcases htime with ⟨hold, hsame⟩ | ⟨-, hlast⟩
    · exact h.ordered hfirst (hid₂ ▸ hold) htime₁ (hsame ▸ htime₂) hlt
    · rcases h.arrived hfirst with ⟨time, harrival, hbefore⟩
      rw [htime₁, Option.some.injEq] at harrival
      rw [htime₂, Option.some.injEq] at hlast
      omega
  · rw [hstays hne] at htime₁
    rw [hstays hne'] at htime₂
    exact h.ordered hfirst hsecond htime₁ htime₂ hlt

/-- A pending poll stores its waker under the number that the future holds or, the first time,
under the next one. -/
lemma enter (h : Queue waiters nextWaiter waiter log) {id next : ℕ}
    (hid : (waiter future = some id ∧ next = nextWaiter) ∨
      (waiter future = none ∧ id = nextWaiter + 1 ∧ next = nextWaiter + 1))
    (hlive : .dropped future ∉ log) :
    Queue (insertEntry id waker waiters) next (Function.update waiter future (some id))
      (.polled future waker .pending :: log) := by
  have hpoll : ∀ other : ι, other ≠ future →
      (Event.polled future waker Outcome.pending).isPollOf other = false := by
    intro other hne
    simp [Event.isPollOf, hne.symm]
  have hdrop : ∀ other : ι, Event.polled future waker .pending ≠ .dropped other := by
    intro other heq
    cases heq
  have hnext : nextWaiter ≤ next ∧ id ≤ next := by
    rcases hid with ⟨hsome, rfl⟩ | ⟨-, rfl, rfl⟩
    · exact ⟨le_rfl, h.le_next hsome⟩
    · exact ⟨Nat.le_succ _, le_rfl⟩
  have hown : ∀ {other : ι} {id' : ℕ}, waiter other = some id' → other ≠ future → id' ≠ id :=
    h.ne_of_entering hid
  have hstays : ∀ {other : ι}, other ≠ future →
      arrival other (.polled future waker .pending :: log) = arrival other log := fun hne =>
    arrival_cons_of_other (hpoll _ hne) (hdrop _)
  constructor
  case sorted => exact h.sorted.insertEntry id waker
  case le_next =>
    intro other id' hsome
    rcases update_eq_some.mp hsome with ⟨-, rfl⟩ | ⟨-, hold⟩
    · exact hnext.2
    · exact (h.le_next hold).trans hnext.1
  case injective =>
    intro first second id' hfirst hsecond
    rcases update_eq_some.mp hfirst with ⟨heq, hid₁⟩ | ⟨hne, hold⟩ <;>
      rcases update_eq_some.mp hsecond with ⟨heq', hid₂⟩ | ⟨hne', hold'⟩
    · rw [heq, heq']
    · exact absurd hid₁ (hown hold' hne')
    · exact absurd hid₂ (hown hold hne)
    · exact h.injective hold hold'
  case numbered =>
    intro other waker' hwaiting
    by_cases heq : other = future
    · exact ⟨id, update_eq_some.mpr (.inl ⟨heq, rfl⟩)⟩
    · rw [waiting_cons_of_other (hpoll _ heq) (hdrop _)] at hwaiting
      rw [Function.update_of_ne heq]
      exact h.numbered hwaiting
  case registered =>
    intro other id' waker' hsome
    rw [mem_insertEntry h.sorted]
    rcases update_eq_some.mp hsome with ⟨rfl, rfl⟩ | ⟨hne, hold⟩
    · rw [waiting_cons_polled]
      simp [hlive, eq_comm]
    · have hid' := hown hold hne
      rw [waiting_cons_of_other (hpoll _ hne) (hdrop _), ← h.registered hold]
      simp [hid']
  case owned =>
    intro id' waker' hentry
    rcases (mem_insertEntry h.sorted).mp hentry with ⟨rfl, -⟩ | ⟨hne, hold⟩
    · exact ⟨future, Function.update_self ..⟩
    · rcases h.owned hold with ⟨other, hsome⟩
      by_cases heq : other = future
      · rcases hid with ⟨hid, -⟩ | ⟨hnone, -⟩
        · rw [heq, hid, Option.some.injEq] at hsome
          exact absurd hsome.symm hne
        · rw [heq, hnone] at hsome
          cases hsome
      · exact ⟨other, update_eq_some.mpr (.inr ⟨heq, hsome⟩)⟩
  case arrived =>
    intro other id' hsome
    rcases update_eq_some.mp hsome with ⟨rfl, -⟩ | ⟨hne, hold⟩
    · rcases h.arrival_of_entering hid waker with ⟨hold, hsame⟩ | ⟨-, hlast⟩
      · rcases h.arrived hold with ⟨time, harrival, hlt⟩
        exact ⟨time, hsame.trans harrival, Nat.lt_succ_of_lt hlt⟩
      · exact ⟨log.length, hlast, Nat.lt_succ_self _⟩
    · rcases h.arrived hold with ⟨time, harrival, hlt⟩
      exact ⟨time, (hstays hne).trans harrival, Nat.lt_succ_of_lt hlt⟩
  case unarrived =>
    intro other hnone
    have hne : other ≠ future := by
      rintro rfl
      rw [Function.update_self] at hnone
      cases hnone
    rw [Function.update_of_ne hne] at hnone
    exact (hstays hne).trans (h.unarrived hnone)
  case ordered => exact h.ordered_of_entering hid hstays

end Queue

end Queue

section Invariant

/-- The wakes that the oldest waiter is owed. -/
def Woken (log : List (Event ι W)) (due : List W) (future : ι) (waker : W) : Prop :=
  waker ∈ due ∨ WokenSincePoll log future waker

structure Consistent (world : World ι W) : Prop where
  guards : world.guards = if world.state.locked then 1 else 0
  live : ∀ future, world.dropped future = false → .dropped future ∉ world.log
  queue : Queue world.state.waiters world.state.nextWaiter world.waiter world.log
  oldest : world.state.locked = false → ∀ id waker,
    world.state.waiters.head? = some (id, waker) → ∀ future, world.waiter future = some id →
      Woken world.log world.due future waker

variable {world : World ι W} {future : ι} {waker : W}

lemma consistent_start : Consistent (World.start : World ι W) where
  guards := rfl
  live _ _ := List.not_mem_nil
  queue := .nil
  oldest _ id waker hhead := by cases hhead

lemma Woken.of_due {log : List (Event ι W)} {due : List W} (h : waker ∈ due) :
    Woken log due future waker :=
  .inl h

/-- An event that is no poll of the future keeps what its waker is owed. -/
lemma Woken.cons {log : List (Event ι W)} {due more : List W} {event : Event ι W}
    (h : Woken log due future waker) (hpoll : event.isPollOf future = false) :
    Woken (event :: log) (due ++ more) future waker :=
  h.imp (List.mem_append_left _) (Since.cons hpoll)

lemma live_cons {event : Event ι W} (h : Consistent world)
    (hdrop : ∀ future, event ≠ .dropped future) :
    ∀ future, world.dropped future = false → .dropped future ∉ event :: world.log := by
  intro other hother hmem
  rcases List.mem_cons.mp hmem with heq | hmem
  · exact hdrop other heq.symm
  · exact h.live other hother hmem

lemma Consistent.tryLock (h : Consistent world) : Consistent world.tryLock where
  guards := by
    have hguards := h.guards
    cases hlocked : world.state.locked <;> simp_all [World.tryLock, State.tryLock]
  live := live_cons h fun future heq => by cases heq
  queue := h.queue.other (fun _ => rfl) fun future heq => by cases heq
  oldest hunlocked := by cases hunlocked

lemma firstWaker_eq {state : State W} {id : ℕ} (h : state.waiters.head? = some (id, waker)) :
    state.firstWaker = some waker := by
  rw [State.firstWaker, h]
  rfl

lemma Consistent.dropGuard (h : Consistent world) (hlive : world.guards ≠ 0) :
    Consistent world.dropGuard where
  guards := by
    have hguards := h.guards
    cases hlocked : world.state.locked <;> simp_all [World.dropGuard, State.dropGuard]
  live := live_cons h fun future heq => by cases heq
  queue := h.queue.other (fun _ => rfl) fun future heq => by cases heq
  oldest _ id waker hhead future _ := by
    have hfirst := @firstWaker_eq W waker { world.state with locked := false } id hhead
    refine .of_due (List.mem_append_right _ ?_)
    change waker ∈ ({ world.state with locked := false } : State W).firstWaker.toList
    rw [hfirst]
    exact List.mem_cons_self

/-- Removing the number that the future holds, if any, leaves the entries of the others. -/
lemma Queue.mem_leave {waiters : List (ℕ × W)} {held : Option ℕ} (id : ℕ) (waker : W) :
    (id, waker) ∈ held.elim waiters (fun own => eraseEntry own waiters) ↔
      held ≠ some id ∧ (id, waker) ∈ waiters := by
  rcases held with _ | own
  · simp
  · simp only [Option.elim, mem_eraseEntry, ne_eq, Option.some.injEq, eq_comm]

lemma Queue.sorted_leave {waiters : List (ℕ × W)} (h : SortedKeys waiters) (held : Option ℕ) :
    SortedKeys (held.elim waiters fun own => eraseEntry own waiters) := by
  rcases held with _ | own
  · exact h
  · exact h.eraseEntry own

/-- What a poll can do: take the lock, wait, or panic for want of a number. -/
lemma poll_cases (world : World ι W) (future : ι) (waker : W) :
    (world.state.locked = false ∧ world.poll future waker = { world with
      state := { world.state with
        locked := true
        waiters := (world.waiter future).elim world.state.waiters fun own =>
          eraseEntry own world.state.waiters }
      waiter := Function.update world.waiter future none
      guards := world.guards + 1
      log := .polled future waker .ready :: world.log }) ∨
    (world.state.locked = true ∧ ∃ id next,
      ((world.waiter future = some id ∧ next = world.state.nextWaiter) ∨
        (world.waiter future = none ∧ id = world.state.nextWaiter + 1 ∧
          next = world.state.nextWaiter + 1)) ∧
      world.poll future waker = { world with
        state := { world.state with
          nextWaiter := next
          waiters := insertEntry id waker world.state.waiters }
        waiter := Function.update world.waiter future (some id)
        log := .polled future waker .pending :: world.log }) ∨
    (world.state.locked = true ∧ world.waiter future = none ∧
      world.poll future waker = { world with
        waiter := Function.update world.waiter future none
        log := .polled future waker .panicked :: world.log }) := by
  unfold World.poll State.poll
  rcases hlocked : world.state.locked with _ | _
  · refine .inl ⟨rfl, ?_⟩
    rcases hwaiter : world.waiter future with _ | own <;> simp
  · refine .inr ?_
    rcases hwaiter : world.waiter future with _ | own
    · by_cases hnext : world.state.nextWaiter + 1 < 2 ^ 64
      · refine .inl ⟨rfl, _, _, .inr ⟨rfl, rfl, rfl⟩, ?_⟩
        simp only [if_pos hnext]
        simp [hlocked]
      · refine .inr ⟨rfl, rfl, ?_⟩
        simp only [if_neg hnext]
        simp
    · exact .inl ⟨rfl, _, _, .inl ⟨rfl, rfl⟩, by simp [hlocked]⟩

lemma Consistent.poll (h : Consistent world) (hlive : world.dropped future = false)
    (waker : W) : Consistent (world.poll future waker) := by
  have hpoll : ∀ outcome, ∀ other : ι, other ≠ future →
      (Event.polled future waker outcome).isPollOf other = false := by
    intro outcome other hne
    simp [Event.isPollOf, hne.symm]
  have hdrop : ∀ outcome, ∀ other : ι, Event.polled future waker outcome ≠ .dropped other := by
    intro outcome other heq
    cases heq
  have hguards := h.guards
  rcases poll_cases world future waker with ⟨hlocked, heq⟩ | ⟨hlocked, id, next, hid, heq⟩ |
    ⟨hlocked, hnone, heq⟩ <;> rw [heq] <;> rw [hlocked] at hguards
  · constructor
    case guards => simpa using hguards
    case live => exact live_cons h (hdrop _)
    case queue =>
      refine h.queue.leave (Queue.sorted_leave h.queue.sorted _) Queue.mem_leave (hpoll _)
        (fun other _ => hdrop _ other) (fun waker' hwaiting => ?_) (by simp [arrival])
      cases (waiting_cons_polled.mp hwaiting).1
    case oldest =>
      intro hunlocked
      cases hunlocked
  · constructor
    case guards => simpa [hlocked] using hguards
    case live => exact live_cons h (hdrop _)
    case queue => exact h.queue.enter hid (h.live future hlive)
    case oldest =>
      intro hunlocked
      cases hlocked.symm.trans hunlocked
  · constructor
    case guards => simpa [hlocked] using hguards
    case live => exact live_cons h (hdrop _)
    case queue =>
      refine h.queue.leave h.queue.sorted (fun id waker' => ?_) (hpoll _)
        (fun other _ => hdrop _ other) (fun waker' hwaiting => ?_) (h.queue.unarrived hnone)
      · simp [hnone]
      · cases (waiting_cons_polled.mp hwaiting).1
    case oldest =>
      intro hunlocked
      cases hlocked.symm.trans hunlocked

/-- What the drop of a future does: its entry goes, and if the mutex is free and the future
had registered, the new oldest waiter is woken. -/
lemma dropFuture_eq (world : World ι W) (future : ι) : ∃ more : Option W,
    (world.state.locked = false → world.waiter future ≠ none →
      more = (world.dropFuture future).state.firstWaker) ∧
    world.dropFuture future = { world with
      state := { world.state with
        waiters := (world.waiter future).elim world.state.waiters fun own =>
          eraseEntry own world.state.waiters }
      waiter := Function.update world.waiter future none
      dropped := Function.update world.dropped future true
      due := world.due ++ more.toList
      log := .dropped future :: world.log } := by
  refine ⟨(world.state.dropFuture (world.waiter future)).1, ?_, ?_⟩
  · intro hlocked hwaiter
    unfold World.dropFuture State.dropFuture
    rcases hheld : world.waiter future with _ | own
    · exact absurd hheld hwaiter
    · simp [hlocked]
  · unfold World.dropFuture State.dropFuture
    rcases hheld : world.waiter future with _ | own <;> simp

lemma Consistent.dropFuture (h : Consistent world) : Consistent (world.dropFuture future) := by
  rcases dropFuture_eq world future with ⟨more, hmore, heq⟩
  have hpoll : ∀ other : ι, (Event.dropped (W := W) future).isPollOf other = false :=
    fun _ => rfl
  rw [heq] at hmore ⊢
  constructor
  case guards => exact h.guards
  case live =>
    intro other hother hmem
    by_cases hsame : other = future
    · rw [hsame] at hother
      simp at hother
    · rcases List.mem_cons.mp hmem with hevent | hmem
      · injection hevent with hevent
        exact hsame hevent
      · exact h.live other (by simpa [Function.update_of_ne hsame] using hother) hmem
  case queue =>
    refine h.queue.leave (Queue.sorted_leave h.queue.sorted _) Queue.mem_leave
      (fun other _ => hpoll other) (fun other hne hevent => ?_)
      (fun waker' => not_waiting_cons_dropped) (by simp [arrival])
    injection hevent with hevent
    exact hne hevent.symm
  case oldest =>
    intro hunlocked id waker' hhead other hother
    rcases hheld : world.waiter future with _ | own
    · -- A future without a number leaves the waiters as they are.
      have hne : other ≠ future := by
        rintro rfl
        simp at hother
      have hother' : world.waiter other = some id := by
        simpa [Function.update_of_ne hne] using hother
      rw [hheld] at hhead
      exact (h.oldest hunlocked id waker' hhead other hother').cons (hpoll other)
    · refine .of_due (List.mem_append_right _ ?_)
      rw [hmore hunlocked (by simp [hheld]), firstWaker_eq hhead]
      exact List.mem_cons_self

lemma Consistent.wake (h : Consistent world) {place : ℕ}
    (hplace : world.due[place]? = some waker) :
    Consistent { world with due := world.due.eraseIdx place, log := .woke waker :: world.log } where
  guards := h.guards
  live := live_cons h fun future heq => by cases heq
  queue := h.queue.other (fun _ => rfl) fun future heq => by cases heq
  oldest hunlocked id waker' hhead other hother := by
    rcases h.oldest hunlocked id waker' hhead other hother with hdue | hwoken
    · rcases List.mem_iff_getElem?.mp hdue with ⟨place', hplace'⟩
      by_cases hsame : place' = place
      · rw [hsame, hplace, Option.some.injEq] at hplace'
        exact .inr (hplace' ▸ since_cons_self rfl)
      · exact .of_due (List.mem_eraseIdx_iff_getElem?.mpr ⟨place', hsame, hplace'⟩)
    · exact .inr (Since.cons rfl hwoken)

lemma Consistent.next {world' : World ι W} {action : Action ι W} (h : Consistent world)
    (hnext : world.next action = some world') : Consistent world' := by
  rcases action with ⟨future, waker⟩ | future | _ | _ | place <;> unfold World.next at hnext
  · rcases hdropped : world.dropped future with _ | _
    · simp only [hdropped, Bool.false_eq_true, if_false, Option.some.injEq] at hnext
      exact hnext ▸ h.poll hdropped waker
    · simp [hdropped] at hnext
  · rcases hdropped : world.dropped future with _ | _
    · simp only [hdropped, Bool.false_eq_true, if_false, Option.some.injEq] at hnext
      exact hnext ▸ h.dropFuture
    · simp [hdropped] at hnext
  · exact Option.some.inj hnext ▸ h.tryLock
  · by_cases hguards : world.guards = 0
    · simp [hguards] at hnext
    · simp only [hguards, if_false, Option.some.injEq] at hnext
      exact hnext ▸ h.dropGuard hguards
  · rcases Option.map_eq_some_iff.mp hnext with ⟨waker, hplace, rfl⟩
    exact h.wake hplace

theorem consistent_of_reachable (h : (mutexSystem ι W).Reachable world) : Consistent world :=
  h.invariant (fun _ hinit => hinit ▸ consistent_start) fun _ _ _ hworld => hworld.next

end Invariant

/-- What exclusion and remembered waiters mean in one world: at most one guard is live, exactly
while the mutex is locked; the registrations belong to the waiting futures, each with the waker
of its latest poll, in the order of their first pending polls; and while the mutex is free, the
oldest waiter has been woken since that poll or its wake is due. -/
structure ExcludesAndRemembers (world : World ι W) : Prop where
  exclusive : world.guards ≤ 1
  locked_iff : world.state.locked = true ↔ world.guards = 1
  remembers : ∃ owners : List ι,
    List.Forall₂ (fun entry owner => Waiting world.log owner entry.2) world.state.waiters owners ∧
    owners.Nodup ∧
    (∀ future waker, Waiting world.log future waker → future ∈ owners) ∧
    owners.Pairwise (fun earlier later => ∃ time time', arrival earlier world.log = some time ∧
      arrival later world.log = some time' ∧ time < time') ∧
    (world.state.locked = false →
      ∀ entry ∈ world.state.waiters.head?, ∀ owner ∈ owners.head?,
        entry.2 ∈ world.due ∨ WokenSincePoll world.log owner entry.2)

/-- Exclusion and remembered waiters hold in every reachable world. -/
theorem lock_excludes_and_remembers {world : World ι W}
    (h : (mutexSystem ι W).Reachable world) : ExcludesAndRemembers world := by
  have hworld := consistent_of_reachable h
  have hguards := hworld.guards
  have hqueue := hworld.queue
  -- Every entry belongs to the future that holds its number.
  rcases @exists_owners ι (ℕ × W)
      (fun entry owner => entry ∈ world.state.waiters ∧ world.waiter owner = some entry.1)
      world.state.waiters (fun entry hentry =>
        (hqueue.owned hentry).imp fun _ howner => ⟨hentry, howner⟩) with ⟨owners, howners⟩
  refine ⟨?_, ?_, owners, ?_, ?_, ?_, ?_, ?_⟩
  · split_ifs at hguards <;> omega
  · cases hlocked : world.state.locked <;> simp [hguards, hlocked]
  · exact howners.imp fun entry owner howner => (hqueue.registered howner.2).mp howner.1
  · refine pairwise_owners howners hqueue.sorted fun a b x y hlt hx hy heq => ?_
    have hid : some a.1 = some b.1 := hx.2.symm.trans (heq ▸ hy.2)
    exact hlt.ne (Option.some.inj hid)
  · intro future waker hwaiting
    rcases hqueue.numbered hwaiting with ⟨id, hid⟩
    rcases exists_owner_of_mem howners ((hqueue.registered hid).mpr hwaiting) with
      ⟨owner, hmem, -, howner⟩
    exact hqueue.injective hid howner ▸ hmem
  · refine pairwise_owners howners hqueue.sorted fun a b x y hlt hx hy => ?_
    rcases hqueue.arrived hx.2 with ⟨time, htime, -⟩
    rcases hqueue.arrived hy.2 with ⟨time', htime', -⟩
    exact ⟨time, time', htime, htime', hqueue.ordered hx.2 hy.2 htime htime' hlt⟩
  · intro hunlocked entry hentry owner howner
    have howns := owns_head howners hentry howner
    exact hworld.oldest hunlocked entry.1 entry.2 hentry owner howns.2

/-- Two futures wait for a guard; after its drop the wake of the first one is due. -/
theorem lock_excludes_and_remembers_two_waiters :
    let world := (System.replay World.next (World.start : World ℕ ℕ)
      [.tryLock, .poll 0 10, .poll 1 20, .dropGuard]).get rfl
    ExcludesAndRemembers world :=
  lock_excludes_and_remembers (System.reachable_replay rfl)

end DoomFishUtils.Mutex
