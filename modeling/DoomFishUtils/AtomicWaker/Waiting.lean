import DoomFishUtils.AtomicWaker.Exclusion
import DoomFishUtils.Registration

/-!
# Waiting with an atomic waker

The use that the source makes of its atomic waker everywhere: one task looks at a state, registers
its waker and looks again before it waits; any number of threads change the state and then call
`wake`.  What they look at and change is a parameter; the calls of the atomic waker are run access
by access.
-/

namespace DoomFishUtils.AtomicWaker.Waiting

set_option autoImplicit false

open Library Concurrent

/-- How a step of a check ends. -/
inductive Verdict (P : Type) where
  | ready
  | more (phase : P)
  | pending

/-- The state that a task waits for.  A check goes through phases, and a poll makes it twice, before
and after it registers. -/
structure Protocol (σ A C P : Type) where
  /-- What another thread does to the state, and whether it calls `wake` next. -/
  signal : A → σ → Option (σ × Bool)
  /-- What the task does between its polls. -/
  consume : C → σ → Option σ
  first : P
  check : P → σ → Option (Verdict P × σ)

/-- What a check establishes on its way and at its end, and signals without a wake keep. -/
structure Protocol.Keeps {σ A C P : Type} (protocol : Protocol σ A C P) (established : P → σ → Prop)
    (settled : σ → Prop) : Prop where
  first : ∀ state, established protocol.first state
  more : ∀ {phase phase' state state'}, protocol.check phase state = some (.more phase', state') →
    established phase state → established phase' state'
  pending : ∀ {phase state state'}, protocol.check phase state = some (.pending, state') →
    established phase state → settled state'
  signal : ∀ {act state state'}, protocol.signal act state = some (state', false) →
    (∀ phase, established phase state → established phase state') ∧
      (settled state → settled state')

/-- Where the task is: between its polls, in a check before or after its registration, or in the
registration. -/
inductive Place (P W : Type) where
  | idle
  | checking (waker : W) (registered : Bool) (phase : P)
  | registering (waker : W) (pc : Pc W)

def Place.pc {P W : Type} : Place P W → Pc W
  | .registering _ pc => pc
  | _ => .idle

inductive Note (W : Type) where
  | registered (waker : W)
  | woke (waker : W)
  /-- An operation of the task has returned, with its waker if it was a pending poll. -/
  | finished (pending : Option W)

namespace Note

variable {W : Type}

def waker : Note W → Option (WakerNote W)
  | .registered waker => some (.registered waker)
  | .woke waker => some (.woke waker)
  | .finished _ => none

def isFinish : Note W → Bool
  | .finished _ => true
  | _ => false

def ofAccess : Concurrent.Note W → Option (Note W)
  | .registered waker => some (.registered waker)
  | .woke waker | .wokeByRef waker => some (.woke waker)
  | _ => none

end Note

structure World (σ P ι W : Type) where
  state : σ
  memory : Memory W
  /-- The threads that signal, each in a wake or between its calls. -/
  threads : ι → Pc W
  task : Place P W
  notes : List (Note W)

inductive Action (A C ι W : Type) where
  | signal (thread : ι) (act : A)
  | wake (thread : ι)
  | consume (act : C)
  | poll (waker : W)
  | advance

section

variable {σ A C P ι W : Type}

def start (state : σ) : World σ P ι W where
  state := state
  memory := .new
  threads _ := .idle
  task := .idle
  notes := []

namespace World

/-- The end of an operation of the task. -/
def finish (world : World σ P ι W) (pending : Option W) : World σ P ι W :=
  { world with task := .idle, notes := .finished pending :: world.notes }

/-- What the task does after a step of its check. -/
def checked (world : World σ P ι W) (protocol : Protocol σ A C P) (waker : W) (registered : Bool)
    (phase : P) : Option (World σ P ι W) :=
  (protocol.check phase world.state).map fun (verdict, state) =>
    let world := { world with state := state }
    match verdict with
    | .ready => world.finish none
    | .more phase => { world with task := .checking waker registered phase }
    | .pending =>
      if registered then world.finish (some waker)
      else { world with task := .registering waker (Call.register waker).pc }

/-- What the task does after an access of its registration. -/
def registered (world : World σ P ι W) (protocol : Protocol σ A C P) (waker : W)
    (result : Stepped W) : World σ P ι W :=
  { world with
    memory := result.memory
    task :=
      match result.pc with
      | .idle => .checking waker true protocol.first
      | pc => .registering waker pc
    notes := result.notes.filterMap Note.ofAccess ++ world.notes }

variable [DecidableEq ι] [TaskWaker W]

/-- A thread goes on with its wake. -/
def woken (world : World σ P ι W) (t : ι) (result : Stepped W) : World σ P ι W :=
  { world with
    memory := result.memory
    threads := Function.update world.threads t result.pc
    notes := result.notes.filterMap Note.ofAccess ++ world.notes }

/-- One step, if the action is possible: the task and the threads each do one thing at a time. -/
def next (protocol : Protocol σ A C P) (world : World σ P ι W) :
    Action A C ι W → Option (World σ P ι W)
  | .signal t act =>
    match world.threads t with
    | .idle =>
      (protocol.signal act world.state).map fun (state, wakes) =>
        { world with
          state := state
          threads :=
            if wakes then Function.update world.threads t (Call.taking .wake).pc else world.threads }
    | _ => none
  | .wake t => ((world.threads t).next world.memory).map (world.woken t)
  | .consume act =>
    match world.task with
    | .idle =>
      (protocol.consume act world.state).map fun state => { world with state := state }.finish none
    | _ => none
  | .poll waker =>
    match world.task with
    | .idle => some { world with task := .checking waker false protocol.first }
    | _ => none
  | .advance =>
    match world.task with
    | .idle => none
    | .checking waker registered phase => world.checked protocol waker registered phase
    | .registering waker pc => (pc.next world.memory).map (world.registered protocol waker)

end World

end

/-- The runs of a task and of threads that signal it. -/
def waitingSystem {σ A C P : Type} (ι W : Type) [DecidableEq ι] [TaskWaker W]
    (protocol : Protocol σ A C P) (state : σ) : System (World σ P ι W) (Action A C ι W) :=
  .ofNext (start state) (World.next protocol)

end DoomFishUtils.AtomicWaker.Waiting
