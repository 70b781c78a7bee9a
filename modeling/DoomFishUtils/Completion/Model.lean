import DoomFishUtils.Library.Transition
import DoomFishUtils.Waker

/-!
# Completions of a callback

The source's `completion`: an allocation with two references, one for the owner and one for the
raw context that a callback consumes.  The swap of the consumed flag, each change of the reference
count, each critical section and each notification or wake is one step.
-/

namespace DoomFishUtils.Completion

set_option autoImplicit false

open DoomFishUtils.Library

/-- The two references of an allocation. -/
inductive Holder where
  | owner
  | callback
  deriving DecidableEq

inductive Event (R : Type) where
  /-- A call has swapped the consumed flag, and won if the flag was not set. -/
  | called (result : R) (won : Bool)
  | stored (result : R)
  | released (holder : Holder)
  /-- The last reference is gone, and with it the result that was stored. -/
  | freed (result : Option R)
  /-- An operation of the owner has returned; `wait_timeout` may return nothing. -/
  | returned (answer : Option R)

/-- Where the call is that won the swap; between its critical section and the release of its
reference it holds what it signals with. -/
inductive Winner (R A : Type) where
  | absent
  | storing (result : R)
  | signalling (signal : A)
  | releasing
  | done

/-- What the synchronous and the asynchronous allocations have in common. -/
structure Shared (R A : Type) where
  strong : ℕ
  consumed : Bool
  result : Option R
  winner : Winner R A
  log : List (Event R)

namespace Shared

variable {R A : Type}

/-- The references of the owner and of the context. -/
def new : Shared R A :=
  ⟨2, false, none, .absent, []⟩

/-- The swap of `complete_with_result`, after which a duplicate returns. -/
def swap (shared : Shared R A) (result : R) : Shared R A :=
  if shared.consumed then { shared with log := .called result false :: shared.log }
  else
    { shared with
      consumed := true
      winner := .storing result
      log := .called result true :: shared.log }

/-- The critical section of `complete_with_result`. -/
def store (shared : Shared R A) (result : R) (signal : A) : Shared R A :=
  { shared with
    result := some result
    winner := .signalling signal
    log := .stored result :: shared.log }

/-- The drop of a reference; the last one frees the allocation. -/
def release (shared : Shared R A) (holder : Holder) : Shared R A :=
  if shared.strong = 1 then
    { shared with
      strong := 0
      result := none
      log := .freed shared.result :: .released holder :: shared.log }
  else { shared with strong := shared.strong - 1, log := .released holder :: shared.log }

/-- `state.result.take()`. -/
def take (shared : Shared R A) : Option R × Shared R A :=
  (shared.result, { shared with result := none })

def returned (shared : Shared R A) (answer : Option R) : Shared R A :=
  { shared with log := .returned answer :: shared.log }

/-- The drop of the winner's reference, at the end of its call. -/
def finish (shared : Shared R A) : Shared R A :=
  { shared.release .callback with winner := .done }

end Shared

/-- The pointer that a callback passes. -/
inductive Context where
  | null
  | raw

/-! ### The synchronous completion -/

/-- What `wait_timeout` computes with. -/
structure Timer where
  start : ℕ
  timeout : ℕ

/-- `timeout.checked_sub(start.elapsed())`. -/
def Timer.remaining (timer : Timer) (now : ℕ) : Option ℕ :=
  if now - timer.start ≤ timer.timeout then some (timer.timeout - (now - timer.start)) else none

namespace Sync

variable {T : Type}

/-- Where the owner is: between operations, before a check under the lock, blocked without a
notification, before the drop of its reference, or done. -/
inductive Owner (T : Type) where
  | idle
  | checking (timer : Option Timer)
  | blocked (timer : Option Timer)
  | returning (answer : Option (Except String T))
  | gone

/-- What a check under the lock has found, and when. -/
structure Check (T : Type) where
  timer : Option Timer
  found : Option (Except String T)
  now : ℕ

inductive Action (T : Type) where
  | complete (context : Context) (result : Except String T)
  /-- The next step of the call that won. -/
  | winner
  | wait
  | waitTimeout (timeout : ℕ)
  | check
  /-- A blocked thread wakes up by itself: spuriously or at its timeout. -/
  | wakeUp
  | finish
  | drop
  | tick

structure World (T : Type) where
  shared : Shared (Except String T) Unit
  owner : Owner T
  now : ℕ
  checks : List (Check T)

namespace World

def start (now : ℕ) : World T where
  shared := .new
  owner := .idle
  now := now
  checks := []

/-- One round of the loop of `wait` and of `wait_timeout`, under the lock. -/
def check (world : World T) (timer : Option Timer) : World T :=
  let (found, shared) := world.shared.take
  let world := { world with
    shared := shared
    checks := ⟨timer, found, world.now⟩ :: world.checks }
  match found, timer with
  | some result, _ => { world with owner := .returning (some result) }
  | none, none => { world with owner := .blocked none }
  | none, some timer =>
    match timer.remaining world.now with
    | some _ => { world with owner := .blocked (some timer) }
    | none => { world with owner := .returning none }

def notifyOne (world : World T) : World T :=
  match world.owner with
  | .blocked timer => { world with owner := .checking timer }
  | _ => world

/-- The steps of the call that won. -/
def stepWinner (world : World T) : Option (World T) :=
  match world.shared.winner with
  | .storing result => some { world with shared := world.shared.store result () }
  | .signalling () =>
    let world := world.notifyOne
    some { world with shared := { world.shared with winner := .releasing } }
  | .releasing => some { world with shared := world.shared.finish }
  | _ => none

/-- One step, if the action is possible.  A call on the context is made while the allocation is
live. -/
def next (world : World T) : Action T → Option (World T)
  | .complete .null _ => some world
  | .complete .raw result =>
    if world.shared.strong = 0 then none
    else some { world with shared := world.shared.swap result }
  | .winner => world.stepWinner
  | .wait =>
    match world.owner with
    | .idle => some { world with owner := .checking none }
    | _ => none
  | .waitTimeout timeout =>
    match world.owner with
    | .idle => some { world with owner := .checking (some ⟨world.now, timeout⟩) }
    | _ => none
  | .check =>
    match world.owner with
    | .checking timer => some (world.check timer)
    | _ => none
  | .wakeUp =>
    match world.owner with
    | .blocked timer => some { world with owner := .checking timer }
    | _ => none
  | .finish =>
    match world.owner with
    | .returning answer =>
      some { world with shared := (world.shared.release .owner).returned answer, owner := .gone }
    | _ => none
  | .drop =>
    match world.owner with
    | .idle => some { world with shared := world.shared.release .owner, owner := .gone }
    | _ => none
  | .tick => some { world with now := world.now + 1 }

end World

/-- The runs of a new completion that is created at some time. -/
def syncSystem (T : Type) (created : ℕ) : System (World T) (Action T) :=
  .ofNext (World.start created) World.next

end Sync

/-! ### The asynchronous completion -/

namespace Async

variable {T W : Type}

/-- What happens to the wakers. -/
inductive Event (T W : Type) where
  | polled (waker : W) (answer : Poll (Except String T))
  | woke (waker : W)

inductive Action (T W : Type) where
  | complete (context : Context) (result : Except String T)
  /-- The next step of the call that won. -/
  | winner
  | poll (waker : W)
  | drop

/-- A completion with the waker of its state and whether its future lives. -/
structure World (T W : Type) where
  shared : Shared (Except String T) (Option W)
  waker : Option W
  future : Bool
  log : List (Event T W)

namespace World

def start : World T W where
  shared := .new
  waker := none
  future := true
  log := []

/-- The waker that a pending poll leaves in the state. -/
def storeWaker [TaskWaker W] (world : World T W) (waker : W) : Option W :=
  match world.waker with
  | some existing => if willWake existing waker then some existing else some waker
  | none => some waker

def poll [TaskWaker W] (world : World T W) (waker : W) : World T W :=
  let (found, shared) := world.shared.take
  match found with
  | none =>
    { world with
      shared := shared
      waker := world.storeWaker waker
      log := .polled waker .pending :: world.log }
  | some result =>
    { world with
      shared := shared.returned (some result)
      log := .polled waker (.ready result) :: world.log }

/-- The steps of the call that won. -/
def stepWinner (world : World T W) : Option (World T W) :=
  match world.shared.winner with
  | .storing result =>
    some { world with shared := world.shared.store result world.waker, waker := none }
  | .signalling waker =>
    some { world with
      shared := { world.shared with winner := .releasing }
      log := waker.toList.map .woke ++ world.log }
  | .releasing => some { world with shared := world.shared.finish }
  | _ => none

/-- One step, if the action is possible.  A call on the context is made while the allocation is
live. -/
def next [TaskWaker W] (world : World T W) : Action T W → Option (World T W)
  | .complete .null _ => some world
  | .complete .raw result =>
    if world.shared.strong = 0 then none
    else some { world with shared := world.shared.swap result }
  | .winner => world.stepWinner
  | .poll waker => if world.future then some (world.poll waker) else none
  | .drop =>
    if world.future then
      some { world with shared := world.shared.release .owner, future := false }
    else none

end World

/-- The runs of a new completion. -/
def asyncSystem (T W : Type) [TaskWaker W] : System (World T W) (Action T W) :=
  .ofNext World.start World.next

end Async

end DoomFishUtils.Completion
