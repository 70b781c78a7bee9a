import DoomFishUtils.Spsc.Solo
import DoomFishUtils.Waker

/-!
# The two ends of a ring

`SpscProducer` and `SpscConsumer` over the ring, the closed flag and the consumer's waker that
they share.  A push, a pop, an access to the flag, the registration of a waker and a wake are one
step each, and the steps of the two ends interleave.
-/

namespace DoomFishUtils.SpscRing

set_option autoImplicit false

open Library

inductive Event (T W : Type) where
  | pushed (item : T) (answer : Except T Unit)
  | overwrote (item : T) (displaced : Option T)
  | closed
  | popped (answer : Option T)
  | polled (waker : W) (answer : Poll (Option T))
  | registered (waker : W)
  | woke (waker : W)

/-- Where the producer is: between calls, before the wake of a call, or dropped. -/
inductive Producer where
  | live
  | waking
  | dropping
  | gone
  deriving DecidableEq

/-- The next step of the consumer: any call, or the rest of `poll_pop`. -/
inductive Consumer (W : Type) where
  | idle
  | firstClosed (waker : W)
  | firstLast (waker : W)
  | registering (waker : W)
  | secondPop (waker : W)
  | secondClosed (waker : W)
  | secondLast (waker : W)

inductive Action (T W : Type) where
  | push (item : T)
  | pushOverwrite (item : T)
  | dropProducer
  /-- `AtomicWaker::wake` at the end of a push or of the drop. -/
  | wake
  | pop
  | poll (waker : W)
  /-- The consumer goes on with `poll_pop`. -/
  | advance

/-- What the two ends share, where they are and the history, latest event first. -/
structure World (T W : Type) where
  queue : Spsc.Ring T
  producerClosed : Bool
  waker : AtomicWaker W
  producer : Producer
  consumer : Consumer W
  log : List (Event T W)

namespace World

variable {T W : Type}

def start (capacity : ℕ) : World T W where
  queue := .new capacity
  producerClosed := false
  waker := .new
  producer := .live
  consumer := .idle
  log := []

/-- `push`, up to its wake. -/
def push (world : World T W) (item : T) : Option (World T W) :=
  match world.queue.push item false with
  | some (.pushed, queue) =>
    some { world with
      queue := queue
      producer := .waking
      log := .pushed item (.ok ()) :: world.log }
  | some (.full item', queue) =>
    some { world with queue := queue, log := .pushed item (.error item') :: world.log }
  | _ => none

/-- `push_overwrite`, up to its wake; the answer that the ring is full is unreachable. -/
def pushOverwrite (world : World T W) (item : T) : Option (World T W) :=
  match world.queue.push item true with
  | some (.pushed, queue) =>
    some { world with
      queue := queue
      producer := .waking
      log := .overwrote item none :: world.log }
  | some (.displaced _ displaced, queue) =>
    some { world with
      queue := queue
      producer := .waking
      log := .overwrote item (some displaced) :: world.log }
  | _ => none

/-- The store of the closed flag. -/
def dropProducer (world : World T W) : World T W :=
  { world with producerClosed := true, producer := .dropping, log := .closed :: world.log }

def wake (world : World T W) (producer : Producer) : World T W :=
  let (woken, waker) := world.waker.take
  { world with
    waker := waker
    producer := producer
    log := woken.toList.map .woke ++ world.log }

/-- `Ring::pop`, with the item that it returns. -/
def takeItem (world : World T W) : Option (Option T × World T W) :=
  match world.queue.pop with
  | some (.popped _ item, queue) => some (some item, { world with queue := queue })
  | some (.empty, queue) => some (none, { world with queue := queue })
  | _ => none

def pop (world : World T W) : Option (World T W) :=
  world.takeItem.map fun (answer, world) => { world with log := .popped answer :: world.log }

/-- The end of `poll_pop`. -/
def polled (world : World T W) (waker : W) (answer : Poll (Option T)) : World T W :=
  { world with consumer := .idle, log := .polled waker answer :: world.log }

/-- A pop of `poll_pop` that answers with an item and else goes on. -/
def popOr (world : World T W) (waker : W) (next : Consumer W) : Option (World T W) :=
  world.takeItem.map fun (answer, world) =>
    match answer with
    | some item => world.polled waker (.ready (some item))
    | none => { world with consumer := next }

/-- The last pop of `poll_pop`, after it has seen the flag. -/
def popLast (world : World T W) (waker : W) : Option (World T W) :=
  world.takeItem.map fun (answer, world) => world.polled waker (.ready answer)

/-- The next step of `poll_pop`. -/
def advance [TaskWaker W] (world : World T W) : Option (World T W) :=
  match world.consumer with
  | .idle => none
  | .firstClosed waker =>
    some { world with
      consumer := if world.producerClosed then .firstLast waker else .registering waker }
  | .firstLast waker => world.popLast waker
  | .registering waker =>
    some { world with
      waker := world.waker.register waker
      consumer := .secondPop waker
      log := .registered waker :: world.log }
  | .secondPop waker => world.popOr waker (.secondClosed waker)
  | .secondClosed waker =>
    some (if world.producerClosed then { world with consumer := .secondLast waker }
      else world.polled waker .pending)
  | .secondLast waker => world.popLast waker

/-- One step, if the action is possible: each end does one thing at a time, and the producer
does nothing after its drop. -/
def next [TaskWaker W] (world : World T W) : Action T W → Option (World T W)
  | .push item => if world.producer = .live then world.push item else none
  | .pushOverwrite item => if world.producer = .live then world.pushOverwrite item else none
  | .dropProducer => if world.producer = .live then some world.dropProducer else none
  | .wake =>
    match world.producer with
    | .waking => some (world.wake .live)
    | .dropping => some (world.wake .gone)
    | _ => none
  | .pop =>
    match world.consumer with
    | .idle => world.pop
    | _ => none
  | .poll waker =>
    match world.consumer with
    | .idle => world.popOr waker (.firstClosed waker)
    | _ => none
  | .advance => world.advance

end World

/-- The runs of a ring of this capacity. -/
def spscSystem (T W : Type) [TaskWaker W] (capacity : ℕ) : System (World T W) (Action T W) :=
  .ofNext (World.start capacity) World.next

end DoomFishUtils.SpscRing
