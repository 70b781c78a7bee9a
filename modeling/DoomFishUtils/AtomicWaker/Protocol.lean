import DoomFishUtils.Library.Transition
import DoomFishUtils.Waker
import Mathlib.Algebra.Order.Ring.Nat
import Mathlib.Logic.Function.Basic

/-!
# The atomic waker, access by access

The source's `AtomicWaker` as it is written: a state word of two bits and a cell for a waker that
the word guards.  Any number of threads call `register`, `wake` and `take`, and every access to the
word or to the cell is one step.  `AtomicWaker` itself, with each operation as one step, is what this
code is to look like from outside.
-/

namespace DoomFishUtils.AtomicWaker.Concurrent

set_option autoImplicit false

open Library

/-- `WAITING` -/
def waiting : ℕ := 0

/-- `REGISTERING` -/
def registering : ℕ := 0b01

/-- `WAKING` -/
def waking : ℕ := 0b10

/-- The two fields of the source's structure. -/
structure Memory (W : Type) where
  state : ℕ
  waker : Option W

def Memory.new {W : Type} : Memory W :=
  ⟨waiting, none⟩

/-- Who empties the cell: `wake` calls the waker that it finds there, `take` hands it out. -/
inductive Taker where
  | wake
  | take

inductive Call (W : Type) where
  | register (waker : W)
  | taking (taker : Taker)

/-- What a step does beside its access. -/
inductive Note (W : Type) where
  | called (call : Call W)
  | returned
  /-- A registration has got hold of the cell, or has met a wake that holds it. -/
  | registered (waker : W)
  /-- A clone of the waker goes into the cell. -/
  | stored (waker : W)
  /-- The waker that another one replaces is dropped. -/
  | dropped (waker : W)
  | taken (waker : W)
  | woke (waker : W)
  | wokeByRef (waker : W)
  | handedOut (waker : W)

/-- The next access of a thread.  A failed assertion is a `fault`. -/
inductive Pc (W : Type) where
  | idle
  | compareWaiting (waker : W)
  | update (waker : W)
  | compareRegistering (waker : W)
  | retake (waker : W)
  | reset (waker : W) (taken : W)
  | wakeTaken (waker : W) (taken : W)
  | wakeByRef (waker : W)
  | fetchOr (taker : Taker)
  | remove (taker : Taker)
  | unlock (taker : Taker) (taken : Option W)
  | deliver (taker : Taker) (taken : Option W)
  | fault

/-- A step of one thread: the memory it leaves, where the thread goes on, and what has happened,
latest first. -/
structure Stepped (W : Type) where
  memory : Memory W
  pc : Pc W
  notes : List (Note W)

variable {W : Type}

def Call.pc : Call W → Pc W
  | .register waker => .compareWaiting waker
  | .taking taker => .fetchOr taker

/-- What becomes of a waker that has been taken out. -/
def Taker.give : Taker → W → Note W
  | .wake, waker => .woke waker
  | .take, waker => .handedOut waker

/-- `compare_exchange(WAITING, REGISTERING)` with the match on what it finds. -/
def compareWaiting (memory : Memory W) (waker : W) : Stepped W :=
  if memory.state = waiting then
    ⟨{ memory with state := registering }, .update waker, [.registered waker]⟩
  else if memory.state = waking then ⟨memory, .wakeByRef waker, [.registered waker]⟩
  else if memory.state = registering ∨ memory.state = registering ||| waking then
    ⟨memory, .idle, [.returned]⟩
  else ⟨memory, .fault, []⟩

/-- A waker of the same task stays in the cell; any other one is replaced. -/
def update [TaskWaker W] (memory : Memory W) (waker : W) : Stepped W :=
  match memory.waker with
  | some old =>
    if willWake old waker then ⟨memory, .compareRegistering waker, []⟩
    else
      ⟨{ memory with waker := some waker }, .compareRegistering waker,
        [.stored waker, .dropped old]⟩
  | none => ⟨{ memory with waker := some waker }, .compareRegistering waker, [.stored waker]⟩

/-- `compare_exchange(REGISTERING, WAITING)` -/
def compareRegistering (memory : Memory W) (waker : W) : Stepped W :=
  if memory.state = registering then
    ⟨{ memory with state := waiting }, .idle, [.returned]⟩
  else if memory.state = registering ||| waking then ⟨memory, .retake waker, []⟩
  else ⟨memory, .fault, []⟩

/-- `(*self.waker.get()).take().unwrap()` -/
def retake (memory : Memory W) (waker : W) : Stepped W :=
  match memory.waker with
  | some taken => ⟨{ memory with waker := none }, .reset waker taken, [.taken taken]⟩
  | none => ⟨memory, .fault, []⟩

/-- `fetch_or(WAKING)` with the match on what it finds. -/
def fetchOr (memory : Memory W) (taker : Taker) : Stepped W :=
  let after := { memory with state := memory.state ||| waking }
  if memory.state = waiting then ⟨after, .remove taker, []⟩
  else if memory.state = registering ∨ memory.state = registering ||| waking ∨
      memory.state = waking then
    ⟨after, .idle, [.returned]⟩
  else ⟨after, .fault, []⟩

/-- The swap at the end of `take`. -/
def unlock (memory : Memory W) (taker : Taker) (taken : Option W) : Stepped W :=
  if memory.state = waking then ⟨{ memory with state := waiting }, .deliver taker taken, []⟩
  else ⟨{ memory with state := waiting }, .fault, []⟩

/-- The next step of a thread that is in a call. -/
def Pc.next [TaskWaker W] (memory : Memory W) : Pc W → Option (Stepped W)
  | .idle | .fault => none
  | .compareWaiting waker => some (Concurrent.compareWaiting memory waker)
  | .update waker => some (Concurrent.update memory waker)
  | .compareRegistering waker => some (Concurrent.compareRegistering memory waker)
  | .retake waker => some (Concurrent.retake memory waker)
  | .reset waker taken => some ⟨{ memory with state := waiting }, .wakeTaken waker taken, []⟩
  | .wakeTaken _ taken => some ⟨memory, .idle, [.returned, .woke taken]⟩
  | .wakeByRef waker => some ⟨memory, .idle, [.returned, .wokeByRef waker]⟩
  | .fetchOr taker => some (Concurrent.fetchOr memory taker)
  | .remove taker =>
    some ⟨{ memory with waker := none }, .unlock taker memory.waker,
      memory.waker.toList.map .taken⟩
  | .unlock taker taken => some (Concurrent.unlock memory taker taken)
  | .deliver taker taken => some ⟨memory, .idle, .returned :: taken.toList.map taker.give⟩

/-- The threads, what they share and the history, latest event first. -/
structure World (ι W : Type) where
  memory : Memory W
  pc : ι → Pc W
  log : List (ι × Note W)

inductive Action (ι W : Type) where
  | call (thread : ι) (call : Call W)
  | step (thread : ι)

namespace World

variable {ι : Type}

def start : World ι W where
  memory := .new
  pc _ := .idle
  log := []

variable [DecidableEq ι]

def stepped (world : World ι W) (thread : ι) (result : Stepped W) : World ι W where
  memory := result.memory
  pc := Function.update world.pc thread result.pc
  log := result.notes.map (Prod.mk thread) ++ world.log

/-- One step, if the action is possible: a thread makes one call at a time. -/
def next [TaskWaker W] (world : World ι W) : Action ι W → Option (World ι W)
  | .call thread call =>
    match world.pc thread with
    | .idle => some (world.stepped thread ⟨world.memory, call.pc, [.called call]⟩)
    | _ => none
  | .step thread => ((world.pc thread).next world.memory).map (world.stepped thread)

end World

/-- The runs of threads that share one atomic waker. -/
def wakerSystem (ι W : Type) [DecidableEq ι] [TaskWaker W] :
    System (World ι W) (Action ι W) :=
  .ofNext World.start World.next

end DoomFishUtils.AtomicWaker.Concurrent
