import DoomFishUtils.Library.Registry
import DoomFishUtils.Library.Transition
import DoomFishUtils.Waker
import Mathlib.Algebra.Order.Ring.Nat
import Mathlib.Data.Finset.Basic
import Mathlib.Logic.Function.Basic

/-!
# The bounded asynchronous stream

The source's `BoundedAsyncStream` as it is built without its tests: a state behind a mutex and
a condition variable for the producers that wait for a free place.  Each critical section is one
step; so are each wake and each notification after it, and each return of a producer from the
condition variable, which may also be spurious.
-/

namespace DoomFishUtils.Stream

set_option autoImplicit false

open DoomFishUtils.Library

/-- The state behind the mutex. -/
structure State (T W : Type) where
  buffer : List T
  waiters : List (ℕ × W)
  nextWaiter : ℕ
  closed : Bool
  consumerGone : Bool
  senderCount : ℕ

/-- The number under which `Stream::poll_next` registers. -/
def streamWaiter : ℕ :=
  0

/-- What the critical section of a poll yields: the answer, the number that the future holds
afterwards, and the wakers to drop after unlocking, which are the one released from the state
and the unused clone. -/
structure Polled (T W : Type) where
  answer : Poll (Option T)
  waiter : Option ℕ
  released : Option W
  nextWaker : Option W
  state : State T W

namespace State

variable {T W : Type}

def new : State T W :=
  ⟨[], [], 1, false, false, 1⟩

/-- `next_waiter` after one more number is given out. -/
def followingWaiter (id : ℕ) : ℕ :=
  max ((id + 1) % 2 ^ 64) 1

/-- The number for a registration and the state that gives it out. -/
def waiterId (state : State T W) : Option ℕ → ℕ × State T W
  | some id => (id, state)
  | none =>
    (state.nextWaiter, { state with nextWaiter := followingWaiter state.nextWaiter })

/-- `register_waiter`: the released waker, the number, what is left of `next_waker`. -/
def registerWaiter [TaskWaker W] (state : State T W) (waiter : Option ℕ) (current : W)
    (nextWaker : Option W) : Option W × ℕ × Option W × State T W :=
  let (id, state) := state.waiterId waiter
  match state.waiters.lookup id with
  | some existing =>
    if willWake existing current then (none, id, nextWaker, state)
    else
      match nextWaker with
      | some waker =>
        (some existing, id, none, { state with waiters := setEntry id waker state.waiters })
      | none => (none, id, none, state)
  | none =>
    (none, id, none,
      { state with waiters := state.waiters ++ (nextWaker.map fun waker => (id, waker)).toList })

/-- `remove_waiter`, which moves the last entry to the place of the removed one. -/
def removeWaiter (state : State T W) : Option ℕ → Option W × State T W
  | none => (none, state)
  | some waiter =>
    (state.waiters.lookup waiter,
      { state with waiters := swapRemoveEntry waiter state.waiters })

/-- The critical section of `poll_next_item`. -/
def pollNextItem [TaskWaker W] (state : State T W) (waiter : Option ℕ) (waker : W) :
    Polled T W :=
  match state.buffer with
  | item :: buffer =>
    let (released, state) := { state with buffer := buffer }.removeWaiter waiter
    ⟨.ready (some item), none, released, some waker, state⟩
  | [] =>
    if state.closed then
      let (released, state) := state.removeWaiter waiter
      ⟨.ready none, none, released, some waker, state⟩
    else
      let (released, id, nextWaker, state) := state.registerWaiter waiter waker (some waker)
      ⟨.pending, some id, released, nextWaker, state⟩

def tryNext (state : State T W) : Option T × State T W :=
  (state.buffer.head?, { state with buffer := state.buffer.tail })

/-- `clear_buffer`, with the items that it drops after unlocking. -/
def clearBuffer (state : State T W) : List T × State T W :=
  (state.buffer, { state with buffer := [] })

/-- `BoundedAsyncStream::drop`, with the wakers that it drops after unlocking. -/
def dropStream (state : State T W) : List (ℕ × W) × State T W :=
  (state.waiters, { state with consumerGone := true, waiters := [] })

/-- `push`: the overwritten item, the entries to wake and the state. -/
def push (state : State T W) (capacity : ℕ) (item : T) :
    Option T × List (ℕ × W) × State T W :=
  let full := decide (capacity ≤ state.buffer.length)
  (if full then state.buffer.head? else none, state.waiters,
    { state with
      buffer := (if full then state.buffer.tail else state.buffer) ++ [item]
      waiters := [] })

/-- The condition on which `push_or_block` waits. -/
def mustWait (state : State T W) (capacity : ℕ) : Bool :=
  !state.consumerGone && decide (capacity ≤ state.buffer.length)

/-- The section of `push_or_block` that need not wait: the item comes back if the consumer is
gone, and else there are entries to wake. -/
def pushOrBlock (state : State T W) (item : T) : Except T (List (ℕ × W)) × State T W :=
  if state.consumerGone then (.error item, state)
  else (.ok state.waiters, { state with buffer := state.buffer ++ [item], waiters := [] })

/-- `AsyncStreamSender::clone`; there is no result where `checked_add` fails. -/
def cloneSender (state : State T W) : Option (State T W) :=
  if state.senderCount + 1 < 2 ^ 64 then
    some { state with senderCount := state.senderCount + 1 }
  else none

/-- `AsyncStreamSender::drop` with the entries to wake if it closes the stream; there is no
result where `sender_count -= 1` underflows. -/
def dropSender (state : State T W) : Option (Option (List (ℕ × W)) × State T W) :=
  if state.senderCount = 0 then none
  else if state.senderCount - 1 = 0 then
    some (some state.waiters, { state with senderCount := 0, closed := true, waiters := [] })
  else some (none, { state with senderCount := state.senderCount - 1 })

end State

/-- Who polls: a future of `next`, or the stream itself through `Stream::poll_next`. -/
inductive Consumer (φ : Type) where
  | next (future : φ)
  | stream
  deriving DecidableEq

/-- Where a call of `push_or_block` is: in the condition variable, before its next section after
a notification or without one, or past its last section. -/
inductive Progress where
  | waiting
  | notified
  | awake
  | finished
  deriving DecidableEq

/-- A call of `push_or_block`. -/
structure Producer (ι T : Type) where
  sender : ι
  item : T
  progress : Progress

/-- What happened; the calls that wake are numbered in the order in which they took the waiters,
the calls of `push_or_block` in the order in which they began. -/
inductive Event (φ T W : Type) where
  | polled (consumer : Consumer φ) (waker : W) (answer : Poll (Option T))
  | dropped (consumer : Consumer φ)
  | tried (answer : Option T)
  | cleared (items : List T)
  | pushed (item : T) (overwritten : Option T)
  | unblocked (call : ℕ) (item : T)
  | refused (call : ℕ) (item : T)
  | took (waking : ℕ) (entries : List (ℕ × W))
  | woke (waking : ℕ) (entry : ℕ × W)

inductive Action (φ ι T W : Type) where
  | poll (consumer : Consumer φ) (waker : W)
  | dropNext (future : φ)
  | tryNext
  | clearBuffer
  | dropStream
  | push (sender : ι) (item : T)
  | pushOrBlock (sender : ι) (item : T)
  /-- A spurious return from the condition variable. -/
  | awaken (call : ℕ)
  /-- A call that is notified or awake locks the state and checks its condition. -/
  | recheck (call : ℕ)
  /-- Issues a `notify_one` that is due; it finds the given call waiting, or none at all. -/
  | notifyOne (call : Option ℕ)
  | notifyAll
  | cloneSender (sender clone : ι)
  | dropSender (sender : ι)
  /-- Wakes the next entry of a call that wakes. -/
  | wake (waking : ℕ)

/-- A stream with its futures, handles and calls, what is still due and the history, latest
event first. -/
structure World (φ ι T W : Type) where
  state : State T W
  /-- The numbers that the futures hold. -/
  waiter : φ → Option ℕ
  dropped : φ → Bool
  /-- The futures that were polled and not dropped. -/
  live : Finset φ
  senders : Finset ι
  producers : List (Producer ι T)
  /-- The entries that each call still has to wake. -/
  wakes : List (List (ℕ × W))
  /-- How many calls of `notify_one` and of `notify_all` are due. -/
  notifyOnes : ℕ
  notifyAlls : ℕ
  /-- How many waiter numbers were given out. -/
  ids : ℕ
  log : List (Event φ T W)

namespace World

variable {φ ι T W : Type}

def start (sender : ι) : World φ ι T W where
  state := .new
  waiter := fun _ => none
  dropped := fun _ => false
  live := ∅
  senders := {sender}
  producers := []
  wakes := []
  notifyOnes := 0
  notifyAlls := 0
  ids := 0
  log := []

/-- The number that a consumer polls with. -/
def held (world : World φ ι T W) : Consumer φ → Option ℕ
  | .next future => world.waiter future
  | .stream => some streamWaiter

/-- Keeps the number that a poll leaves; the stream's own is a temporary. -/
def setHeld [DecidableEq φ] (world : World φ ι T W) (consumer : Consumer φ)
    (waiter : Option ℕ) : World φ ι T W :=
  match consumer with
  | .next future =>
    { world with
      waiter := Function.update world.waiter future waiter
      live := insert future world.live }
  | .stream => world

def poll [DecidableEq φ] [TaskWaker W] (world : World φ ι T W) (consumer : Consumer φ)
    (waker : W) : World φ ι T W :=
  let polled := world.state.pollNextItem (world.held consumer) waker
  { world.setHeld consumer polled.waiter with
    state := polled.state
    notifyOnes :=
      match polled.answer with
      | .ready (some _) => world.notifyOnes + 1
      | _ => world.notifyOnes
    ids :=
      match polled.answer, world.held consumer with
      | .pending, none => world.ids + 1
      | _, _ => world.ids
    log := .polled consumer waker polled.answer :: world.log }

/-- `NextItem::drop`, which locks only where the future holds a number. -/
def dropNext [DecidableEq φ] (world : World φ ι T W) (future : φ) : World φ ι T W :=
  { world with
    state := (world.state.removeWaiter (world.waiter future)).2
    waiter := Function.update world.waiter future none
    dropped := Function.update world.dropped future true
    live := world.live.erase future
    log := .dropped (.next future) :: world.log }

def tryNext (world : World φ ι T W) : World φ ι T W :=
  let (item, state) := world.state.tryNext
  { world with
    state := state
    notifyOnes := if item.isSome then world.notifyOnes + 1 else world.notifyOnes
    log := .tried item :: world.log }

def clearBuffer (world : World φ ι T W) : World φ ι T W :=
  let (items, state) := world.state.clearBuffer
  { world with
    state := state
    notifyAlls := world.notifyAlls + 1
    log := .cleared items :: world.log }

def dropStream (world : World φ ι T W) : World φ ι T W :=
  { world with
    state := world.state.dropStream.2
    notifyAlls := world.notifyAlls + 1
    log := .dropped .stream :: world.log }

/-- A call takes the entries that it is going to wake. -/
def take (world : World φ ι T W) (entries : List (ℕ × W)) : World φ ι T W :=
  { world with
    wakes := world.wakes ++ [entries]
    log := .took world.wakes.length entries :: world.log }

def push (world : World φ ι T W) (capacity : ℕ) (item : T) : World φ ι T W :=
  let (overwritten, entries, state) := world.state.push capacity item
  { world with state := state, log := .pushed item overwritten :: world.log }.take entries

def setProgress (world : World φ ι T W) (call : ℕ) (progress : Progress) : World φ ι T W :=
  { world with
    producers := world.producers.modify call fun producer =>
      { producer with progress := progress } }

/-- A section of `push_or_block`: waits on the condition variable, or finishes. -/
def enter (world : World φ ι T W) (capacity call : ℕ) (item : T) : World φ ι T W :=
  if world.state.mustWait capacity then world.setProgress call .waiting
  else
    let world := world.setProgress call .finished
    match world.state.pushOrBlock item with
    | (.error item, state) =>
      { world with state := state, log := .refused call item :: world.log }
    | (.ok entries, state) =>
      { world with state := state, log := .unblocked call item :: world.log }.take entries

/-- The first section of `push_or_block`. -/
def pushOrBlock (world : World φ ι T W) (capacity : ℕ) (sender : ι) (item : T) :
    World φ ι T W :=
  let called : World φ ι T W :=
    { world with producers := world.producers ++ [⟨sender, item, .awake⟩] }
  called.enter capacity world.producers.length item

/-- `notify_all` moves every waiting call. -/
def notifyAll (world : World φ ι T W) : World φ ι T W :=
  { world with
    producers := world.producers.map fun producer =>
      if producer.progress = .waiting then { producer with progress := .notified } else producer
    notifyAlls := world.notifyAlls - 1 }

def dropSender [DecidableEq ι] (world : World φ ι T W) (sender : ι) : Option (World φ ι T W) :=
  world.state.dropSender.map fun (entries, state) =>
    let world := { world with state := state, senders := world.senders.erase sender }
    match entries with
    | some entries => world.take entries
    | none => world

def progressOf (world : World φ ι T W) (call : ℕ) : Progress :=
  (world.producers[call]?).elim .finished Producer.progress

/-- No call is in the condition variable's queue. -/
def noneWaiting (world : World φ ι T W) : Bool :=
  world.producers.all fun producer => producer.progress ≠ .waiting

/-- A sender is not borrowed by a call of `push_or_block` that has not returned. -/
def unborrowed [DecidableEq ι] (world : World φ ι T W) (sender : ι) : Bool :=
  world.producers.all fun producer =>
    producer.sender ≠ sender ∨ producer.progress = .finished

/-- One step, if the action is possible.  Futures borrow the stream, so the stream is dropped
after all of them, and calls of `push_or_block` borrow their senders. -/
def next [DecidableEq φ] [DecidableEq ι] [TaskWaker W] (capacity : ℕ) (world : World φ ι T W) :
    Action φ ι T W → Option (World φ ι T W)
  | .poll consumer waker =>
    match consumer with
    | .next future =>
      if world.state.consumerGone ∨ world.dropped future then none
      else some (world.poll (.next future) waker)
    | .stream => if world.state.consumerGone then none else some (world.poll .stream waker)
  | .dropNext future => if world.dropped future then none else some (world.dropNext future)
  | .tryNext => if world.state.consumerGone then none else some world.tryNext
  | .clearBuffer => if world.state.consumerGone then none else some world.clearBuffer
  | .dropStream =>
    if world.state.consumerGone ∨ world.live ≠ ∅ then none else some world.dropStream
  | .push sender item =>
    if sender ∈ world.senders then some (world.push capacity item) else none
  | .pushOrBlock sender item =>
    if sender ∈ world.senders then some (world.pushOrBlock capacity sender item) else none
  | .awaken call =>
    if world.progressOf call = .waiting then some (world.setProgress call .awake) else none
  | .recheck call =>
    match world.producers[call]? with
    | some producer =>
      if producer.progress = .notified ∨ producer.progress = .awake then
        some (world.enter capacity call producer.item)
      else none
    | none => none
  | .notifyOne call =>
    if world.notifyOnes = 0 then none
    else
      let issued := { world with notifyOnes := world.notifyOnes - 1 }
      match call with
      | some call =>
        if world.progressOf call = .waiting then some (issued.setProgress call .notified)
        else none
      | none => if world.noneWaiting then some issued else none
  | .notifyAll => if world.notifyAlls = 0 then none else some world.notifyAll
  | .cloneSender sender clone =>
    if sender ∈ world.senders ∧ clone ∉ world.senders then
      world.state.cloneSender.map fun state =>
        { world with state := state, senders := insert clone world.senders }
    else none
  | .dropSender sender =>
    if sender ∈ world.senders ∧ world.unborrowed sender then world.dropSender sender else none
  | .wake waking =>
    match world.wakes[waking]? with
    | some (entry :: entries) =>
      some { world with
        wakes := world.wakes.set waking entries
        log := .woke waking entry :: world.log }
    | _ => none

end World

/-- The runs of a stream of this capacity that is created with this sender. -/
def streamSystem (φ ι T W : Type) [DecidableEq φ] [DecidableEq ι] [TaskWaker W]
    (capacity : ℕ) (sender : ι) : System (World φ ι T W) (Action φ ι T W) :=
  .ofNext (World.start sender) (World.next capacity)

end DoomFishUtils.Stream
