import DoomFishUtils.AtomicWaker.Exclusion

/-!
# The atomic waker as its callers see it

Each call takes effect in one step between its beginning and its return: a registration stores its
waker, a `wake` or a `take` empties the cell, and a waker that comes out is called or handed out
before the thread that has it returns.  Two calls may give way: a registration that meets a `wake` or
a `take` calls its own waker instead of storing it, and one that meets another registration does
nothing.
-/

namespace DoomFishUtils.AtomicWaker.Atomic

set_option autoImplicit false

open Library

variable {ι W : Type}

abbrev Call (W : Type) : Type :=
  Concurrent.Call W

/-- What the callers and the tasks see. -/
inductive Event (W : Type) where
  | called (call : Call W)
  | woke (waker : W)
  | handedOut (waker : W)
  | returned

/-- What a call does with the waker that it has taken out. -/
def Event.given : Call W → W → Event W
  | .taking .take, waker => .handedOut waker
  | _, waker => .woke waker

inductive Phase (W : Type) where
  | idle
  | called (call : Call W)
  /-- The call has taken effect. -/
  | done (call : Call W)

def Phase.isRegister : Phase W → Bool
  | .called (.register _) | .done (.register _) => true
  | _ => false

/-- The cell, the calls, the wakers that each thread has still to give away and the history, latest
event first. -/
structure World (ι W : Type) where
  cell : AtomicWaker W
  phase : ι → Phase W
  due : ι → Option W
  log : List (ι × Event W)

inductive Action (ι W : Type) where
  | call (thread : ι) (call : Call W)
  | effect (thread : ι)
  /-- A `wake` or a `take` takes effect and leaves it to a registration to call the waker. -/
  | handOver (thread owner : ι)
  /-- A registration meets a call that has emptied the cell. -/
  | bounce (thread other : ι)
  /-- A registration meets another one. -/
  | giveWay (thread other : ι)
  | deliver (thread : ι)
  | return (thread : ι)

namespace World

def start : World ι W where
  cell := .new
  phase _ := .idle
  due _ := none
  log := []

variable [DecidableEq ι]

/-- Where a thread is and what it owes. -/
def put (world : World ι W) (t : ι) (phase : Phase W) (due : Option W) : World ι W :=
  { world with
    phase := Function.update world.phase t phase
    due := Function.update world.due t due }

def note (world : World ι W) (t : ι) (event : Event W) : World ι W :=
  { world with log := (t, event) :: world.log }

/-- One step, if the action is possible. -/
def next [TaskWaker W] (world : World ι W) : Action ι W → Option (World ι W)
  | .call t call =>
    match world.phase t with
    | .idle => some ((world.put t (.called call) none).note t (.called call))
    | _ => none
  | .effect t =>
    match world.phase t with
    | .called (.register waker) =>
      some { world.put t (.done (.register waker)) none with cell := world.cell.register waker }
    | .called (.taking taker) =>
      some { world.put t (.done (.taking taker)) world.cell.take.1 with cell := world.cell.take.2 }
    | _ => none
  | .handOver t owner =>
    match world.phase t, world.phase owner, world.due owner with
    | .called (.taking taker), .done (.register waker), none =>
      some { (world.put owner (.done (.register waker)) world.cell.take.1).put t
          (.done (.taking taker)) none with
        cell := world.cell.take.2 }
    | _, _, _ => none
  | .bounce t other =>
    match world.phase t, world.phase other, world.cell.waker with
    | .called (.register waker), .done (.taking _), none =>
      some (world.put t (.done (.register waker)) (some waker))
    | _, _, _ => none
  | .giveWay t other =>
    match world.phase t with
    | .called (.register waker) =>
      if t ≠ other ∧ (world.phase other).isRegister = true then
        some (world.put t (.done (.register waker)) none)
      else none
    | _ => none
  | .deliver t =>
    match world.phase t, world.due t with
    | .done call, some waker => some ((world.put t (.done call) none).note t (.given call waker))
    | _, _ => none
  | .return t =>
    match world.phase t, world.due t with
    | .done _, none => some ((world.put t .idle none).note t .returned)
    | _, _ => none

end World

namespace World

variable [DecidableEq ι] {world : World ι W} {t : ι}

@[simp] lemma put_put (phase phase' : Phase W) (due due' : Option W) :
    (world.put t phase due).put t phase' due' = world.put t phase' due' := by
  simp [put, Function.update_idem]

@[simp] lemma put_phase_self (phase : Phase W) (due : Option W) :
    (world.put t phase due).phase t = phase :=
  Function.update_self ..

@[simp] lemma put_due_self (phase : Phase W) (due : Option W) :
    (world.put t phase due).due t = due :=
  Function.update_self ..

lemma put_phase_of_ne {u : ι} (hne : u ≠ t) (phase : Phase W) (due : Option W) :
    (world.put t phase due).phase u = world.phase u :=
  Function.update_of_ne hne ..

lemma put_due_of_ne {u : ι} (hne : u ≠ t) (phase : Phase W) (due : Option W) :
    (world.put t phase due).due u = world.due u :=
  Function.update_of_ne hne ..

end World

/-- The runs of threads that share one waker whose calls take effect at once. -/
def atomicSystem (ι W : Type) [DecidableEq ι] [TaskWaker W] :
    System (World ι W) (Action ι W) :=
  .ofNext World.start World.next

end DoomFishUtils.AtomicWaker.Atomic
