import DoomFishUtils.Library.Sections
import DoomFishUtils.Mutex.Exclusion
import DoomFishUtils.Waker

/-!
# Calls and the code of wakers

Each operation as the events of its thread, in the order of the code.  A waker that `insert` or
`remove` returns is not bound, so it is dropped at the end of its statement, while the state is
locked; a waker that is woken is cloned inside of the section and woken after it.
-/

namespace DoomFishUtils.Mutex

set_option autoImplicit false

open DoomFishUtils.Library

variable {ι W : Type}

inductive CallEvent (W : Type) where
  | locked
  | unlocked
  | cloned (waker : W)
  | woke (waker : W)
  | dropped (waker : W)
  deriving DecidableEq

namespace CallEvent

/-- Wakers are cloned under the lock by design; waking and dropping them is foreign code. -/
def mark : CallEvent W → LockMark
  | .locked => .acquires
  | .unlocked => .releases
  | .cloned _ => .neutral
  | .woke _ | .dropped _ => .foreign

def clonedWaker : CallEvent W → Option W
  | .cloned waker => some waker
  | _ => none

/-- The waker that an event uses up. -/
def endedWaker : CallEvent W → Option W
  | .woke waker | .dropped waker => some waker
  | _ => none

end CallEvent

/-- A call: its events and the state that it leaves. -/
structure Called (W : Type) where
  events : List (CallEvent W)
  state : State W

namespace Called

/-- What becomes of the result of `waiters.insert` and of `waiters.remove`. -/
def dropEntry (state : State W) (waiter : ℕ) : List (CallEvent W) :=
  (state.waiters.lookup waiter).toList.map .dropped

/-- `wake_first_waiter`, which is given the locked state. -/
def wakeFirstWaiter (state : State W) : List (CallEvent W) :=
  state.firstWaker.toList.map .cloned ++ .unlocked :: state.firstWaker.toList.map .woke

def tryLock (state : State W) : Called W :=
  ⟨[.locked, .unlocked], state.tryLock.2⟩

/-- `MutexGuard::drop`. -/
def dropGuard (state : State W) : Called W :=
  ⟨.locked :: wakeFirstWaiter { state with locked := false }, state.dropGuard.2⟩

/-- `MutexLockFuture::poll`. -/
def poll (state : State W) (waiter : Option ℕ) (waker : W) : Called W :=
  let after := (state.poll waiter waker).2.2
  if state.locked = false then
    match waiter with
    | some waiter => ⟨.locked :: (dropEntry state waiter ++ [.unlocked]), after⟩
    | none => ⟨[.locked, .unlocked], after⟩
  else
    match waiter with
    | some waiter => ⟨.locked :: .cloned waker :: (dropEntry state waiter ++ [.unlocked]), after⟩
    | none =>
      if state.nextWaiter + 1 < 2 ^ 64 then
        ⟨.locked :: .cloned waker :: (dropEntry state (state.nextWaiter + 1) ++ [.unlocked]), after⟩
      else ⟨[.locked, .unlocked], after⟩

/-- `MutexLockFuture::drop`. -/
def dropFuture (state : State W) (waiter : Option ℕ) : Called W :=
  let after := (state.dropFuture waiter).2
  match waiter with
  | none => ⟨[], after⟩
  | some waiter =>
    if state.locked = false then
      ⟨.locked :: (dropEntry state waiter ++ wakeFirstWaiter after), after⟩
    else ⟨.locked :: (dropEntry state waiter ++ [.unlocked]), after⟩

end Called

namespace World

/-- The call that an action is; a wake belongs to the call that unlocked before it. -/
def call (world : World ι W) : Action ι W → Option (Called W)
  | .poll future waker => some (.poll world.state (world.waiter future) waker)
  | .dropFuture future => some (.dropFuture world.state (world.waiter future))
  | .tryLock => some (.tryLock world.state)
  | .dropGuard => some (.dropGuard world.state)
  | .wake _ => none

/-- The waker that is stored for the future that an action polls or drops. -/
def stored (world : World ι W) : Action ι W → Option W
  | .poll future _ | .dropFuture future =>
    (world.waiter future).bind fun waiter => world.state.waiters.lookup waiter
  | .tryLock | .dropGuard | .wake _ => none

/-- The call of an action runs no code of wakers while it holds the lock. -/
def Unlocked (world : World ι W) (action : Action ι W) : Prop :=
  ∀ called ∈ world.call action, apart CallEvent.mark false called.events = true

variable [DecidableEq ι]

/-- Every call of a run keeps the code of wakers out of its section. -/
def UnlockedRun (world : World ι W) : List (Action ι W) → Prop
  | [] => True
  | action :: actions =>
    ∀ after ∈ world.next action, world.Unlocked action ∧ after.UnlockedRun actions

/-- No call of a run polls or drops a future that a waker is stored for. -/
def UnstoredRun (world : World ι W) : List (Action ι W) → Prop
  | [] => True
  | action :: actions =>
    ∀ after ∈ world.next action, world.stored action = none ∧ after.UnstoredRun actions

end World

/-! ### The calls are steps of the mutex -/

section Steps

variable [DecidableEq ι] {world world' : World ι W} {action : Action ι W}

lemma called_poll_state (state : State W) (waiter : Option ℕ) (waker : W) :
    (Called.poll state waiter waker).state = (state.poll waiter waker).2.2 := by
  unfold Called.poll
  rcases waiter with _ | waiter <;> split_ifs <;> rfl

lemma called_dropFuture_state (state : State W) (waiter : Option ℕ) :
    (Called.dropFuture state waiter).state = (state.dropFuture waiter).2 := by
  unfold Called.dropFuture
  rcases waiter with _ | waiter
  · rfl
  · dsimp only
    split_ifs <;> rfl

/-- A step of the mutex leaves the state that its call leaves. -/
lemma call_state (hnext : world.next action = some world') :
    world'.state = ((world.call action).elim world.state Called.state) := by
  rcases action with ⟨future, waker⟩ | future | _ | _ | place <;> unfold World.next at hnext
  case poll =>
    rw [← Option.some.inj (Option.ite_none_left_eq_some.mp hnext).2]
    exact (called_poll_state world.state _ waker).symm
  case dropFuture =>
    rw [← Option.some.inj (Option.ite_none_left_eq_some.mp hnext).2]
    exact (called_dropFuture_state world.state _).symm
  case tryLock => exact Option.some.inj hnext ▸ rfl
  case dropGuard => exact Option.some.inj (Option.ite_none_left_eq_some.mp hnext).2 ▸ rfl
  case wake =>
    rcases Option.map_eq_some_iff.mp hnext with ⟨waker, -, rfl⟩
    rfl

end Steps

/-! ### What a section drops -/

section Sections

variable {state : State W} {waiter : ℕ} {rest : List (CallEvent W)}

/-- A section that discards an entry is free of foreign code if there is no entry. -/
lemma apart_dropEntry :
    apart CallEvent.mark true (Called.dropEntry state waiter ++ rest) = true ↔
      state.waiters.lookup waiter = none ∧ apart CallEvent.mark true rest = true := by
  unfold Called.dropEntry
  rcases state.waiters.lookup waiter with _ | waker
  · simp
  · simp [apart, CallEvent.mark, LockMark.allowed]

/-- `wake_first_waiter` unlocks before it wakes. -/
lemma apart_wakeFirstWaiter (state : State W) :
    apart CallEvent.mark true (Called.wakeFirstWaiter state) = true := by
  unfold Called.wakeFirstWaiter
  rcases state.firstWaker with _ | waker <;> rfl

lemma lookup_fresh [DecidableEq ι] {world : World ι W} (h : Consistent world) :
    world.state.waiters.lookup (world.state.nextWaiter + 1) = none := by
  refine List.lookup_eq_none_iff.mpr ?_
  rintro ⟨id, waker⟩ hmem
  rcases h.queue.owned hmem with ⟨future, hfuture⟩
  have hle := h.queue.le_next hfuture
  rw [bne_iff_ne]
  dsimp only
  omega

/-- A poll leaves its section free of foreign code if no waker is stored for its future. -/
lemma apart_poll (hfresh : state.waiters.lookup (state.nextWaiter + 1) = none)
    (held : Option ℕ) (waker : W) :
    apart CallEvent.mark false (Called.poll state held waker).events = true ↔
      (held.bind fun waiter => state.waiters.lookup waiter) = none := by
  unfold Called.poll
  rcases held with _ | waiter
  · simp only [Option.bind_none, iff_true]
    split_ifs
    · rfl
    · exact apart_dropEntry.mpr ⟨hfresh, rfl⟩
    · rfl
  · dsimp only
    rw [Option.bind_some]
    split_ifs
    · exact apart_dropEntry.trans (and_iff_left rfl)
    · exact apart_dropEntry.trans (and_iff_left rfl)

lemma apart_dropFuture (held : Option ℕ) :
    apart CallEvent.mark false (Called.dropFuture state held).events = true ↔
      (held.bind fun waiter => state.waiters.lookup waiter) = none := by
  unfold Called.dropFuture
  rcases held with _ | waiter
  · exact iff_of_true rfl rfl
  · dsimp only
    rw [Option.bind_some]
    split_ifs
    · exact apart_dropEntry.trans (and_iff_left (apart_wakeFirstWaiter _))
    · exact apart_dropEntry.trans (and_iff_left rfl)

end Sections

section Calls

variable [DecidableEq ι] {world world' : World ι W} {action : Action ι W}

/-- A call runs the code of wakers in its section exactly when it polls or drops a future that a
waker is stored for. -/
lemma unlocked_iff (h : Consistent world) (action : Action ι W) :
    world.Unlocked action ↔ world.stored action = none := by
  have hcall : ∀ called : Called W, (∀ other ∈ some called,
      apart CallEvent.mark false other.events = true) ↔
        apart CallEvent.mark false called.events = true :=
    fun called => ⟨fun hall => hall called rfl, fun hone other hother =>
      Option.some.inj hother ▸ hone⟩
  unfold World.Unlocked World.call World.stored
  rcases action with ⟨future, waker⟩ | future | _ | _ | place <;> dsimp only
  case poll => exact (hcall _).trans (apart_poll (lookup_fresh h) _ waker)
  case dropFuture => exact (hcall _).trans (apart_dropFuture _)
  case tryLock => exact iff_of_true ((hcall _).mpr rfl) rfl
  case dropGuard => exact iff_of_true ((hcall _).mpr (apart_wakeFirstWaiter _)) rfl
  case wake => exact iff_of_true (fun _ hcalled => nomatch hcalled) rfl

lemma unlockedRun_iff (h : Consistent world) (actions : List (Action ι W)) :
    world.UnlockedRun actions ↔ world.UnstoredRun actions := by
  induction actions generalizing world with
  | nil => exact Iff.rfl
  | cons action actions ih =>
    refine forall₂_congr fun after hafter => ?_
    rw [unlocked_iff h action, ih (h.next hafter)]

end Calls

/-! ### No waker is lost -/

def State.wakers (state : State W) : List W :=
  state.waiters.map Prod.snd

def clonedWakers (events : List (CallEvent W)) : List W :=
  events.filterMap CallEvent.clonedWaker

def endedWakers (events : List (CallEvent W)) : List W :=
  events.filterMap CallEvent.endedWaker

section Wakers

variable {state : State W} {waiter : ℕ} {waker : W} {events later : List (CallEvent W)}

@[simp] lemma clonedWakers_append :
    clonedWakers (events ++ later) = clonedWakers events ++ clonedWakers later :=
  List.filterMap_append

@[simp] lemma endedWakers_append :
    endedWakers (events ++ later) = endedWakers events ++ endedWakers later :=
  List.filterMap_append

@[simp] lemma clonedWakers_dropEntry : clonedWakers (Called.dropEntry state waiter) = [] := by
  simp [clonedWakers, Called.dropEntry, CallEvent.clonedWaker]

@[simp] lemma endedWakers_dropEntry :
    endedWakers (Called.dropEntry state waiter) = (state.waiters.lookup waiter).toList :=
  (List.filterMap_map ..).trans List.filterMap_some

/-- `wake_first_waiter` wakes its clone. -/
lemma wakers_wakeFirstWaiter (state : State W) :
    clonedWakers (Called.wakeFirstWaiter state) = endedWakers (Called.wakeFirstWaiter state) := by
  unfold Called.wakeFirstWaiter
  rcases state.firstWaker with _ | waker <;> rfl

@[simp] lemma clonedWakers_locked :
    clonedWakers (.locked :: events) = clonedWakers events :=
  rfl

@[simp] lemma endedWakers_locked : endedWakers (.locked :: events) = endedWakers events :=
  rfl

@[simp] lemma clonedWakers_cloned :
    clonedWakers (.cloned waker :: events) = waker :: clonedWakers events :=
  rfl

@[simp] lemma endedWakers_cloned : endedWakers (.cloned waker :: events) = endedWakers events :=
  rfl

@[simp] lemma clonedWakers_unlocked : clonedWakers ([.unlocked] : List (CallEvent W)) = [] :=
  rfl

@[simp] lemma endedWakers_unlocked : endedWakers ([.unlocked] : List (CallEvent W)) = [] :=
  rfl

/-- The wakers of the state and those that a call clones are stored afterwards or woken or
dropped. -/
def Called.Accounted (state : State W) (called : Called W) : Prop :=
  (state.wakers ++ clonedWakers called.events).Perm
    (called.state.wakers ++ endedWakers called.events)

lemma accounted_poll (h : SortedKeys state.waiters) (held : Option ℕ) (waker : W) :
    (Called.poll state held waker).Accounted state := by
  unfold Called.Accounted Called.poll State.poll
  rcases held with _ | waiter <;> dsimp only <;> split_ifs
  · simp [State.wakers]
  · simpa [State.wakers] using values_insertEntry h (state.nextWaiter + 1) waker
  · simp
  · simpa [State.wakers] using values_eraseEntry h waiter
  · simpa [State.wakers] using values_insertEntry h waiter waker

lemma accounted_dropFuture (h : SortedKeys state.waiters) (held : Option ℕ) :
    (Called.dropFuture state held).Accounted state := by
  unfold Called.Accounted Called.dropFuture
  rcases held with _ | waiter
  · exact .refl _
  · have herase := values_eraseEntry h waiter
    dsimp only
    split_ifs
    · simp only [clonedWakers_locked, clonedWakers_append, clonedWakers_dropEntry,
        endedWakers_locked, endedWakers_append, endedWakers_dropEntry, wakers_wakeFirstWaiter,
        List.nil_append, ← List.append_assoc]
      exact herase.append_right _
    · simpa [State.wakers, State.dropFuture] using herase

lemma accounted_dropGuard : (Called.dropGuard state).Accounted state := by
  unfold Called.Accounted Called.dropGuard
  simp only [clonedWakers_locked, endedWakers_locked, wakers_wakeFirstWaiter]
  exact .refl _

variable [DecidableEq ι] {world : World ι W}

/-- The events of a call leave no waker out. -/
lemma accounted_call (h : Consistent world) {action : Action ι W} {called : Called W}
    (hcall : world.call action = some called) : called.Accounted world.state := by
  rcases action with ⟨future, waker⟩ | future | _ | _ | place <;> cases hcall
  case poll => exact accounted_poll h.queue.sorted _ waker
  case dropFuture => exact accounted_dropFuture h.queue.sorted _
  case tryLock => exact .refl _
  case dropGuard => exact accounted_dropGuard

end Wakers

/-- A call, in a state of a run, that polls or drops no future that a waker is stored for. -/
def IsUnstoredCall (ι : Type) [DecidableEq ι] (events : List (CallEvent W)) : Prop :=
  ∃ world : World ι W, (mutexSystem ι W).Reachable world ∧
    ∃ action, world.stored action = none ∧ (world.call action).map Called.events = some events

/-- The calls of a run keep the code of wakers out of their sections exactly when none of them polls
or drops a future that a waker is stored for, and then wakers may call the mutex again. -/
theorem mutex_runs_wakers_unlocked_iff [DecidableEq ι] :
    (∀ actions : List (Action ι W),
      World.start.UnlockedRun actions ↔ World.start.UnstoredRun actions) ∧
    (∀ world : World ι W, (mutexSystem ι W).Reachable world → ∀ action,
      (world.Unlocked action ↔ world.stored action = none) ∧
        ∀ called ∈ world.call action, called.Accounted world.state) ∧
    ∀ thread : List (CallEvent W), Reentrant CallEvent.mark (IsUnstoredCall ι) thread →
      ∀ before after, thread = before ++ .locked :: after →
        holdsAfter CallEvent.mark false before = false := by
  refine ⟨unlockedRun_iff consistent_start, fun world hworld action => ?_, ?_⟩
  · have hconsistent := consistent_of_reachable hworld
    exact ⟨unlocked_iff hconsistent action, fun called => accounted_call hconsistent⟩
  · rintro thread hthread before after rfl
    refine hthread.never_blocks ?_ rfl
    rintro events ⟨world, hworld, action, hstored, hevents⟩
    rcases Option.map_eq_some_iff.mp hevents with ⟨called, hcalled, rfl⟩
    exact (unlocked_iff (consistent_of_reachable hworld) action).mpr hstored called hcalled

/-- A pending future that is polled again drops its stored waker while the state is locked. -/
theorem second_poll_drops_waker_locked :
    ¬∀ actions : List (Action ℕ RawWaker), World.start.UnlockedRun actions := by
  intro h
  have hrun := h [.tryLock, .poll 0 ⟨1, 0⟩, .poll 0 ⟨2, 0⟩]
  have hlast := ((((hrun _ rfl).2 _ rfl).2 _ rfl).1 _ rfl)
  revert hlast
  decide

end DoomFishUtils.Mutex
