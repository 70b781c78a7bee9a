import Mathlib.Algebra.Order.Ring.Nat
import DoomFishUtils.Library.Transition
import DoomFishUtils.PanicSafe.Containment

/-!
# Contexts of callbacks

The source's `CallbackContext`: an allocation that a Rust handle and foreign code share by a
reference count, with a flag that stops later callbacks.  Each load and store of the flag, each
change of the count and each start and end of a callback body is one step.
-/

namespace DoomFishUtils.CallbackContext

set_option autoImplicit false

open DoomFishUtils.Library DoomFishUtils.PanicSafe

/-- The surroundings of a context: how panics are reported and destroyed, and the destructor of
its value. -/
structure Context (P σ : Type) where
  panics : Panics P σ
  destructor : Foreign P σ Unit

/-- The Rust handle, whose drop stores the flag before it releases its reference. -/
inductive Handle where
  | live
  | dropping
  | gone
  deriving DecidableEq

/-- The pointer that foreign code passes. -/
inductive Pointer where
  | null
  | raw

/-- Where a call of `with` is: before the load of the flag, before and in the callback body, or
past its return. -/
inductive Progress (P R : Type) where
  | entered
  | admitted
  | running
  | answered (answer : Ending P (Option R))

structure Call (P R : Type) where
  site : String
  progress : Progress P R

/-- What happened; calls of `with` are numbered in the order in which they began. -/
inductive Event (P R : Type) where
  /-- The flag is stored by `deactivate` or by the drop of the handle. -/
  | stored
  | loaded (call : ℕ) (active : Bool)
  | began (call : ℕ)
  | ended (call : ℕ) (ending : Except P R)
  | answered (call : ℕ) (answer : Ending P (Option R))
  | retained
  /-- The count is lowered by the handle or by `RELEASE`. -/
  | lowered
  | destroyed (ending : Except P Unit)
  /-- A call of `RELEASE` has returned, if the ending says so. -/
  | released (ending : Ending P Unit)

inductive Action (P σ R : Type) where
  | retainedPtr
  | retain (pointer : Pointer)
  | release (pointer : Pointer)
  | callWith (pointer : Pointer) (site : String)
  | load (call : ℕ)
  | start (call : ℕ)
  /-- The body of the callback comes to its end, and the call returns. -/
  | finish (call : ℕ) (body : Foreign P σ R)
  | deactivate
  | dropHandle
  /-- The drop of the handle goes on with its reference. -/
  | dropInner

structure World (P σ R : Type) where
  active : Bool
  strong : ℕ
  handle : Handle
  /-- The references that foreign code holds, which no code of the context reads or writes. -/
  refs : ℕ
  calls : List (Call P R)
  /-- What user code and the diagnostics work on. -/
  user : σ
  log : List (Event P R)

/-- The largest count that `Arc` raises: `isize::MAX`. -/
def maxRefcount : ℕ :=
  2 ^ 63 - 1

namespace Progress

variable {P R : Type}

def isPending : Progress P R → Bool
  | .answered _ => false
  | _ => true

end Progress

namespace World

variable {P σ R : Type}

/-- `CallbackContext::new`. -/
def new (user : σ) : World P σ R where
  active := true
  strong := 1
  handle := .live
  refs := 0
  calls := []
  user := user
  log := []

/-- The destructor of the value, if the reference that goes is the last one. -/
def dropValue (context : Context P σ) (world : World P σ R) :
    Code P σ (PanicSafe.Event P (Except P Unit)) Unit :=
  if world.strong = 1 then .run .own context.destructor else return ()

/-- An increment of the count for foreign code; `Arc` aborts the process past its limit. -/
def raise (world : World P σ R) : Option (World P σ R) :=
  if world.strong ≤ maxRefcount then
    some { world with strong := world.strong + 1, log := .retained :: world.log }
  else none

/-- `Arc::decrement_strong_count` under the boundary of `RELEASE`. -/
def release (context : Context P σ) (world : World P σ R) : World P σ R :=
  let ran := context.panics.catchUserPanic "CallbackContext::RELEASE"
    (world.dropValue context) world.user
  { world with
    strong := world.strong - 1
    user := ran.state
    log := .released ran.ending ::
      ((own ran.events).reverse.map Event.destroyed ++ .lowered :: world.log) }

/-- The handle's own reference goes, without a boundary. -/
def dropInner (context : Context P σ) (world : World P σ R) : World P σ R :=
  let ran := world.dropValue context world.user
  { world with
    strong := world.strong - 1
    handle := .gone
    user := ran.state
    log := (own ran.events).reverse.map Event.destroyed ++ .lowered :: world.log }

def setProgress (world : World P σ R) (call : ℕ) (progress : Progress P R) : World P σ R :=
  { world with
    calls := world.calls.modify call fun before => { before with progress := progress } }

/-- The load of the flag in `with`. -/
def load (world : World P σ R) (call : ℕ) : World P σ R :=
  if world.active then
    { world.setProgress call .admitted with log := .loaded call true :: world.log }
  else
    { world.setProgress call (.answered (.returned none)) with
      log := .answered call (.returned none) :: .loaded call false :: world.log }

/-- The end of the callback body in `with`, and what its boundary makes of it. -/
def finish (context : Context P σ) (world : World P σ R) (call : ℕ) (site : String)
    (body : Foreign P σ R) : World P σ R :=
  let ran := context.panics.catchUserPanicResult site (.run .own body) world.user
  { world.setProgress call (.answered ran.ending) with
    user := ran.state
    log := .answered call ran.ending ::
      ((own ran.events).reverse.map (Event.ended call) ++ world.log) }

def store (world : World P σ R) : World P σ R :=
  { world with active := false, log := .stored :: world.log }

/-- Foreign code has got a reference. -/
def gainRef (world : World P σ R) : World P σ R :=
  { world with refs := world.refs + 1 }

/-- Foreign code has given up a reference. -/
def loseRef (world : World P σ R) : World P σ R :=
  { world with refs := world.refs - 1 }

/-- The handle or foreign code has a reference. -/
def held (world : World P σ R) : Bool :=
  world.handle ≠ .gone || world.refs ≠ 0

/-- No call of `with` is under way. -/
def quiet (world : World P σ R) : Bool :=
  world.calls.all fun call => !call.progress.isPending

/-- One step, if the action is possible.  Foreign code releases only references that it has, and
something holds a reference during `RETAIN` and `with`. -/
def next (context : Context P σ) (world : World P σ R) : Action P σ R → Option (World P σ R)
  | .retainedPtr => if world.handle = .live then world.raise.map gainRef else none
  | .retain .null => some world
  | .retain .raw => if world.held then world.raise.map gainRef else none
  | .release .null => some world
  | .release .raw =>
    if world.refs ≠ 0 ∧ (world.quiet ∨ world.handle ≠ .gone ∨ 1 < world.refs) then
      some (world.release context).loseRef
    else none
  | .callWith .null site =>
    some { world with
      calls := world.calls ++ [⟨site, .answered (.returned none)⟩]
      log := .answered world.calls.length (.returned none) :: world.log }
  | .callWith .raw site =>
    if world.held then some { world with calls := world.calls ++ [⟨site, .entered⟩] } else none
  | .load call =>
    match world.calls[call]? with
    | some ⟨_, .entered⟩ => some (world.load call)
    | _ => none
  | .start call =>
    match world.calls[call]? with
    | some ⟨_, .admitted⟩ =>
      some { world.setProgress call .running with log := .began call :: world.log }
    | _ => none
  | .finish call body =>
    match world.calls[call]? with
    | some ⟨site, .running⟩ => some (world.finish context call site body)
    | _ => none
  | .deactivate => if world.handle = .live then some world.store else none
  | .dropHandle =>
    if world.handle = .live then some { world.store with handle := .dropping } else none
  | .dropInner =>
    if world.handle = .dropping ∧ (world.quiet ∨ world.refs ≠ 0) then
      some (world.dropInner context)
    else none

end World

/-- The runs of a context from its creation. -/
def contextSystem (P σ R : Type) (context : Context P σ) (user : σ) :
    System (World P σ R) (Action P σ R) :=
  .ofNext (World.new user) (World.next context)

end DoomFishUtils.CallbackContext
