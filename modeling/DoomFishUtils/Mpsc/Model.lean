import DoomFishUtils.Library.Transition
import DoomFishUtils.Waker
import Mathlib.Algebra.Order.Ring.Nat
import Mathlib.Data.Finset.Basic

/-!
# The channels of several producers and one consumer

The source's `future::mpsc`: a queue behind a standard mutex and an atomic waker for the
receiver.  Each critical section is one step, as are the registration of the receiver's waker
between the two sections of `poll_recv` and each wake after a section.
-/

namespace DoomFishUtils.Mpsc

set_option autoImplicit false

open DoomFishUtils.Library

def usizeMax : ℕ :=
  2 ^ 64 - 1

structure State (T : Type) where
  queue : List T
  capacity : ℕ
  senders : ℕ
  isOpen : Bool

structure TrySendError (T : Type) where
  value : T
  full : Bool

inductive TryRecvError where
  | empty
  | closed
  deriving DecidableEq

namespace State

variable {T : Type}

def new (capacity : ℕ) : State T :=
  ⟨[], capacity, 1, true⟩

def send (state : State T) (value : T) : Except (TrySendError T) Unit × State T :=
  if state.isOpen = false then (.error ⟨value, false⟩, state)
  else if state.capacity ≤ state.queue.length then (.error ⟨value, true⟩, state)
  else (.ok (), { state with queue := state.queue ++ [value] })

def tryRecv (state : State T) : Except TryRecvError T × State T :=
  match state.queue with
  | value :: queue => (.ok value, { state with queue := queue })
  | [] => (.error (if state.isOpen && decide (0 < state.senders) then .empty else .closed), state)

def close (state : State T) : State T :=
  { state with isOpen := false }

/-- `drop_sender`, with whether this was the last sender; there is no result where
`senders -= 1` underflows. -/
def dropSender (state : State T) : Option (Bool × State T) :=
  if state.senders = 0 then none
  else some (decide (state.senders - 1 = 0), { state with senders := state.senders - 1 })

/-- `drop_receiver`, with the values that it drops after unlocking. -/
def dropReceiver (state : State T) : List T × State T :=
  (state.queue, { state with isOpen := false, queue := [] })

/-- `UnboundedSender::clone`.  The count stays far below the reference count of the channel,
which aborts the process before either can overflow. -/
def cloneSender (state : State T) : State T :=
  { state with senders := state.senders + 1 }

end State

/-- The two constructors of channels. -/
inductive Kind where
  | channel (buffer : ℕ)
  | unbounded
  deriving DecidableEq

/-- The capacity that the constructor passes on; `saturating_add` for a buffered channel. -/
def Kind.capacity : Kind → ℕ
  | .channel buffer => min (buffer + 1) usizeMax
  | .unbounded => usizeMax

inductive Event (T W : Type) where
  | sent (value : T) (answer : Except (TrySendError T) Unit)
  | tried (answer : Except TryRecvError T)
  | polled (waker : W) (answer : Poll (Option T))
  | discarded (values : List T)
  | woke (waker : W)

/-- Where the receiver is: between operations, at one of the later steps of `poll_recv`, or
dropped. -/
inductive Receiver (W : Type) where
  | idle
  | registering (waker : W)
  | rechecking (waker : W)
  | gone

inductive Action (ι T W : Type) where
  | send (sender : ι) (value : T)
  | cloneSender (sender clone : ι)
  | dropSender (sender : ι)
  | tryRecv
  | poll (waker : W)
  | register
  | recheck
  | close
  | dropReceiver
  /-- Calls `AtomicWaker::wake` for one of the sends and drops that still have to. -/
  | wake

/-- A channel with its live handles, the wakes that are due and the history, latest event
first. -/
structure World (ι T W : Type) where
  state : State T
  receiverWaker : AtomicWaker W
  senders : Finset ι
  receiver : Receiver W
  due : ℕ
  log : List (Event T W)

namespace World

variable {ι T W : Type}

def start (kind : Kind) (sender : ι) : World ι T W where
  state := .new kind.capacity
  receiverWaker := .new
  senders := {sender}
  receiver := .idle
  due := 0
  log := []

def send (world : World ι T W) (value : T) : World ι T W :=
  let (answer, state) := world.state.send value
  { world with
    state := state
    due := if answer.isOk then world.due + 1 else world.due
    log := .sent value answer :: world.log }

def dropSender [DecidableEq ι] (world : World ι T W) (sender : ι) : Option (World ι T W) :=
  world.state.dropSender.map fun (last, state) =>
    { world with
      state := state
      senders := world.senders.erase sender
      due := if last then world.due + 1 else world.due }

def tryRecv (world : World ι T W) : World ι T W :=
  let (answer, state) := world.state.tryRecv
  { world with state := state, log := .tried answer :: world.log }

/-- The end of `poll_recv` with the answer of one of its sections. -/
def polled (world : World ι T W) (waker : W) (answer : Poll (Option T)) : World ι T W :=
  { world with receiver := .idle, log := .polled waker answer :: world.log }

/-- The first section of `poll_recv`. -/
def poll (world : World ι T W) (waker : W) : World ι T W :=
  let (answer, state) := world.state.tryRecv
  let world := { world with state := state }
  match answer with
  | .ok value => world.polled waker (.ready (some value))
  | .error .closed => world.polled waker (.ready none)
  | .error .empty => { world with receiver := .registering waker }

/-- The second section of `poll_recv`. -/
def recheck (world : World ι T W) (waker : W) : World ι T W :=
  let (answer, state) := world.state.tryRecv
  let world := { world with state := state }
  match answer with
  | .ok value => world.polled waker (.ready (some value))
  | .error .closed => world.polled waker (.ready none)
  | .error .empty => world.polled waker .pending

def dropReceiver (world : World ι T W) : World ι T W :=
  let (values, state) := world.state.dropReceiver
  { world with state := state, receiver := .gone, log := .discarded values :: world.log }

def wake (world : World ι T W) : World ι T W :=
  let (waker, receiverWaker) := world.receiverWaker.take
  { world with
    receiverWaker := receiverWaker
    due := world.due - 1
    log := waker.toList.map .woke ++ world.log }

/-- One step, if the action is possible: handles act while they live, the receiver does one
thing at a time, only an unbounded sender is cloned and only a buffered receiver closed. -/
def next [DecidableEq ι] [TaskWaker W] (kind : Kind) (world : World ι T W) :
    Action ι T W → Option (World ι T W)
  | .send sender value => if sender ∈ world.senders then some (world.send value) else none
  | .cloneSender sender clone =>
    if kind = .unbounded ∧ sender ∈ world.senders ∧ clone ∉ world.senders then
      some { world with
        state := world.state.cloneSender
        senders := insert clone world.senders }
    else none
  | .dropSender sender => if sender ∈ world.senders then world.dropSender sender else none
  | .tryRecv =>
    match world.receiver with
    | .idle => some world.tryRecv
    | _ => none
  | .poll waker =>
    match world.receiver with
    | .idle => some (world.poll waker)
    | _ => none
  | .register =>
    match world.receiver with
    | .registering waker =>
      some { world with
        receiverWaker := world.receiverWaker.register waker
        receiver := .rechecking waker }
    | _ => none
  | .recheck =>
    match world.receiver with
    | .rechecking waker => some (world.recheck waker)
    | _ => none
  | .close =>
    match kind, world.receiver with
    | .channel _, .idle => some { world with state := world.state.close }
    | _, _ => none
  | .dropReceiver =>
    match world.receiver with
    | .idle => some world.dropReceiver
    | _ => none
  | .wake => if world.due = 0 then none else some world.wake

end World

/-- The runs of a channel of this kind that is created with this sender. -/
def mpscSystem (ι T W : Type) [DecidableEq ι] [TaskWaker W] (kind : Kind) (sender : ι) :
    System (World ι T W) (Action ι T W) :=
  .ofNext (World.start kind sender) (World.next kind)

end DoomFishUtils.Mpsc
