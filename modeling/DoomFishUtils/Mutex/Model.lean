import DoomFishUtils.Library.SortedEntries
import DoomFishUtils.Library.Transition
import Mathlib.Algebra.Order.Ring.Nat

/-!
# The asynchronous mutex

The source's `future::Mutex`: a flag and a map of registered wakers behind a standard mutex.
Each critical section on that state is one step, and so is each wake after it.  Waiter numbers
are counted with the overflow check of the source's `+=`.
-/

namespace DoomFishUtils.Mutex

set_option autoImplicit false

open DoomFishUtils.Library

/-- The state behind the standard mutex; `waiters` is an ordered map. -/
structure State (W : Type) where
  locked : Bool
  nextWaiter : ℕ
  waiters : List (ℕ × W)

/-- How a poll ends. -/
inductive Outcome where
  | ready
  | pending
  | panicked
  deriving DecidableEq

namespace State

variable {W : Type}

def default : State W :=
  ⟨false, 0, []⟩

/-- `try_lock`; the result tells whether it grants a guard. -/
def tryLock (state : State W) : Bool × State W :=
  (!state.locked, { state with locked := true })

/-- The waker that `wake_first_waiter` clones before it unlocks. -/
def firstWaker (state : State W) : Option W :=
  state.waiters.head?.map Prod.snd

/-- `MutexGuard::drop`, with the waker it wakes after unlocking. -/
def dropGuard (state : State W) : Option W × State W :=
  let state := { state with locked := false }
  (state.firstWaker, state)

/-- `MutexLockFuture::poll` on a future that holds the given waiter number; the number it
holds afterwards comes with the outcome. -/
def poll (state : State W) (waiter : Option ℕ) (waker : W) : Outcome × Option ℕ × State W :=
  if state.locked = false then
    let state := { state with locked := true }
    match waiter with
    | some waiter =>
      (.ready, none, { state with waiters := eraseEntry waiter state.waiters })
    | none => (.ready, none, state)
  else
    match waiter with
    | some waiter =>
      (.pending, some waiter,
        { state with waiters := insertEntry waiter waker state.waiters })
    | none =>
      if state.nextWaiter + 1 < 2 ^ 64 then
        let waiter := state.nextWaiter + 1
        (.pending, some waiter,
          { state with
            nextWaiter := waiter
            waiters := insertEntry waiter waker state.waiters })
      else (.panicked, none, state)

/-- `MutexLockFuture::drop`, with the waker it wakes after unlocking. -/
def dropFuture (state : State W) (waiter : Option ℕ) : Option W × State W :=
  match waiter with
  | none => (none, state)
  | some waiter =>
    let state := { state with waiters := eraseEntry waiter state.waiters }
    (if state.locked = false then state.firstWaker else none, state)

end State

inductive Event (ι W : Type) where
  | polled (future : ι) (waker : W) (outcome : Outcome)
  | dropped (future : ι)
  | tried (granted : Bool)
  | unlocked
  | woke (waker : W)

inductive Action (ι W : Type) where
  | poll (future : ι) (waker : W)
  | dropFuture (future : ι)
  | tryLock
  | dropGuard
  /-- Calls the waker at a place in the list of those still to be woken. -/
  | wake (place : ℕ)

/-- The mutex with its futures and live guards, the wakes that are due and the history, latest
event first. -/
structure World (ι W : Type) where
  state : State W
  waiter : ι → Option ℕ
  dropped : ι → Bool
  guards : ℕ
  due : List W
  log : List (Event ι W)

namespace World

variable {ι W : Type} [DecidableEq ι]

def start : World ι W where
  state := .default
  waiter := fun _ => none
  dropped := fun _ => false
  guards := 0
  due := []
  log := []

def poll (world : World ι W) (future : ι) (waker : W) : World ι W :=
  let (outcome, waiter, state) := world.state.poll (world.waiter future) waker
  { world with
    state := state
    waiter := Function.update world.waiter future waiter
    guards := if outcome = .ready then world.guards + 1 else world.guards
    log := .polled future waker outcome :: world.log }

def dropFuture (world : World ι W) (future : ι) : World ι W :=
  let (waker, state) := world.state.dropFuture (world.waiter future)
  { world with
    state := state
    waiter := Function.update world.waiter future none
    dropped := Function.update world.dropped future true
    due := world.due ++ waker.toList
    log := .dropped future :: world.log }

def tryLock (world : World ι W) : World ι W :=
  let (granted, state) := world.state.tryLock
  { world with
    state := state
    guards := if granted then world.guards + 1 else world.guards
    log := .tried granted :: world.log }

def dropGuard (world : World ι W) : World ι W :=
  let (waker, state) := world.state.dropGuard
  { world with
    state := state
    guards := world.guards - 1
    due := world.due ++ waker.toList
    log := .unlocked :: world.log }

/-- One step, if the action is possible: a dropped future is not polled or dropped again, and
only a live guard is dropped. -/
def next (world : World ι W) : Action ι W → Option (World ι W)
  | .poll future waker => if world.dropped future then none else some (world.poll future waker)
  | .dropFuture future => if world.dropped future then none else some (world.dropFuture future)
  | .tryLock => some world.tryLock
  | .dropGuard => if world.guards = 0 then none else some world.dropGuard
  | .wake place =>
    world.due[place]?.map fun waker =>
      { world with due := world.due.eraseIdx place, log := .woke waker :: world.log }

end World

def mutexSystem (ι W : Type) [DecidableEq ι] : System (World ι W) (Action ι W) :=
  .ofNext World.start World.next

end DoomFishUtils.Mutex
