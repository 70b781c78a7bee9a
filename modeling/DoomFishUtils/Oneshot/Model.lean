import DoomFishUtils.Library.Transition
import DoomFishUtils.Waker

/-!
# The channel of a single value

The source's `future::oneshot`: one place for a value behind a standard mutex, and an atomic
waker for each side.  Each critical section is one step, and so is each registration and each wake
between or after them.
-/

namespace DoomFishUtils.Oneshot

set_option autoImplicit false

open DoomFishUtils.Library

structure Canceled where
  deriving DecidableEq

structure State (T : Type) where
  value : Option T
  senderDropped : Bool
  receiverDropped : Bool

namespace State

variable {T : Type}

def new : State T :=
  ⟨none, false, false⟩

def take (state : State T) : Poll (Except Canceled T) × State T :=
  match state.value with
  | some value => (.ready (.ok value), { state with value := none })
  | none => (if state.senderDropped then .ready (.error ⟨⟩) else .pending, state)

def canceled (state : State T) : Bool :=
  state.receiverDropped

/-- The critical section of `Sender::send`. -/
def send (state : State T) (value : T) : Except T Unit × State T :=
  if state.receiverDropped then (.error value, state)
  else (.ok (), { state with value := some value })

/-- The critical section of the sender's destructor. -/
def dropSender (state : State T) : State T :=
  { state with senderDropped := true }

/-- The critical section of the receiver's destructor, with the value it takes. -/
def dropReceiver (state : State T) : Option T × State T :=
  (state.value, { state with receiverDropped := true, value := none })

end State

/-- The two sides, each with a waker of its own. -/
inductive Side where
  | sender
  | receiver
  deriving DecidableEq

inductive Event (T W : Type) where
  /-- The section of a send, which settles its answer. -/
  | sent (value : T) (answer : Except T Unit)
  /-- A send has returned, after the destructor of its sender. -/
  | returned (answer : Except T Unit)
  | polled (waker : W) (answer : Poll (Except Canceled T))
  | cancellationPolled (waker : W) (answer : Poll Unit)
  /-- The receiver's destructor has dropped what it took. -/
  | discarded (value : Option T)
  | registered (side : Side) (waker : W)
  | woke (side : Side) (waker : W)

/-- Where the sender is: between operations, in a poll of its cancellation, in its destructor at
the end of a send or of a plain drop, or dropped. -/
inductive Sender (T W : Type) where
  | live
  | registering (waker : W)
  | rechecking (waker : W)
  | leaving (answer : Except T Unit)
  | waking (answer : Option (Except T Unit))
  | gone

/-- Where the receiver is: between operations, in a poll, in its destructor, or dropped. -/
inductive Receiver (T W : Type) where
  | idle
  | registering (waker : W)
  | rechecking (waker : W)
  | waking (value : Option T)
  | discarding (value : Option T)
  | gone

inductive Action (T W : Type) where
  | send (value : T)
  | dropSender
  | pollCancellation (waker : W)
  /-- The next step of what the sender is doing. -/
  | sender
  | poll (waker : W)
  | dropReceiver
  /-- The next step of what the receiver is doing. -/
  | receiver

/-- A channel with its two handles and the history, latest event first. -/
structure World (T W : Type) where
  state : State T
  receiverWaker : AtomicWaker W
  senderWaker : AtomicWaker W
  sender : Sender T W
  receiver : Receiver T W
  log : List (Event T W)

namespace World

variable {T W : Type}

def start : World T W where
  state := .new
  receiverWaker := .new
  senderWaker := .new
  sender := .live
  receiver := .idle
  log := []

def send (world : World T W) (value : T) : World T W :=
  let (answer, state) := world.state.send value
  { world with
    state := state
    sender := .leaving answer
    log := .sent value answer :: world.log }

/-- The end of a poll of the cancellation. -/
def cancellationPolled (world : World T W) (waker : W) (answer : Poll Unit) : World T W :=
  { world with sender := .live, log := .cancellationPolled waker answer :: world.log }

/-- The first section of a poll of the cancellation. -/
def pollCancellation (world : World T W) (waker : W) : World T W :=
  if world.state.canceled then world.cancellationPolled waker (.ready ())
  else { world with sender := .registering waker }

/-- The second section of a poll of the cancellation. -/
def recheckCancellation (world : World T W) (waker : W) : World T W :=
  if world.state.canceled then world.cancellationPolled waker (.ready ())
  else world.cancellationPolled waker .pending

/-- The last step of the sender's destructor, and of the send that it ends. -/
def wakeReceiver (world : World T W) (answer : Option (Except T Unit)) : World T W :=
  let (waker, receiverWaker) := world.receiverWaker.take
  { world with
    receiverWaker := receiverWaker
    sender := .gone
    log := answer.toList.map .returned ++ (waker.toList.map (.woke .receiver) ++ world.log) }

/-- The end of a poll with the answer of one of its sections. -/
def polled (world : World T W) (waker : W) (answer : Poll (Except Canceled T)) : World T W :=
  { world with receiver := .idle, log := .polled waker answer :: world.log }

/-- The first section of `Receiver::poll`. -/
def poll (world : World T W) (waker : W) : World T W :=
  let (answer, state) := world.state.take
  let world := { world with state := state }
  match answer with
  | .ready result => world.polled waker (.ready result)
  | .pending => { world with receiver := .registering waker }

/-- The second section of `Receiver::poll`. -/
def recheck (world : World T W) (waker : W) : World T W :=
  let (answer, state) := world.state.take
  { world with state := state }.polled waker answer

def dropReceiver (world : World T W) : World T W :=
  let (value, state) := world.state.dropReceiver
  { world with state := state, receiver := .waking value }

def wakeSender (world : World T W) (value : Option T) : World T W :=
  let (waker, senderWaker) := world.senderWaker.take
  { world with
    senderWaker := senderWaker
    receiver := .discarding value
    log := waker.toList.map (.woke .sender) ++ world.log }

/-- The next step of what the sender is doing. -/
def stepSender [TaskWaker W] (world : World T W) : Option (World T W) :=
  match world.sender with
  | .live => none
  | .registering waker =>
    some { world with
      senderWaker := world.senderWaker.register waker
      sender := .rechecking waker
      log := .registered .sender waker :: world.log }
  | .rechecking waker => some (world.recheckCancellation waker)
  | .leaving answer =>
    some { world with state := world.state.dropSender, sender := .waking (some answer) }
  | .waking answer => some (world.wakeReceiver answer)
  | .gone => none

/-- The next step of what the receiver is doing. -/
def stepReceiver [TaskWaker W] (world : World T W) : Option (World T W) :=
  match world.receiver with
  | .idle => none
  | .registering waker =>
    some { world with
      receiverWaker := world.receiverWaker.register waker
      receiver := .rechecking waker
      log := .registered .receiver waker :: world.log }
  | .rechecking waker => some (world.recheck waker)
  | .waking value => some (world.wakeSender value)
  | .discarding value =>
    some { world with receiver := .gone, log := .discarded value :: world.log }
  | .gone => none

/-- One step, if the action is possible: a side does one thing at a time, and sending consumes
the sender. -/
def next [TaskWaker W] (world : World T W) : Action T W → Option (World T W)
  | .send value =>
    match world.sender with
    | .live => some (world.send value)
    | _ => none
  | .dropSender =>
    match world.sender with
    | .live => some { world with state := world.state.dropSender, sender := .waking none }
    | _ => none
  | .pollCancellation waker =>
    match world.sender with
    | .live => some (world.pollCancellation waker)
    | _ => none
  | .sender => world.stepSender
  | .poll waker =>
    match world.receiver with
    | .idle => some (world.poll waker)
    | _ => none
  | .dropReceiver =>
    match world.receiver with
    | .idle => some world.dropReceiver
    | _ => none
  | .receiver => world.stepReceiver

end World

/-- The runs of a new channel. -/
def oneshotSystem (T W : Type) [TaskWaker W] : System (World T W) (Action T W) :=
  .ofNext World.start World.next

end DoomFishUtils.Oneshot
