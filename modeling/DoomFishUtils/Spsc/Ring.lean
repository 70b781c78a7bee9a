import Mathlib.Algebra.Order.Ring.Nat
import Mathlib.Data.Nat.Log
import Mathlib.Logic.Function.Basic
import DoomFishUtils.Library.Transition

/-!
# The atomic ring

`Ring::push`, `Ring::pop` and `Ring::len` of `src/spsc.rs`, one atomic access at a time.
A thread inside a call is at a program point `Pc`; `advance` performs its next load,
store, compare-exchange or slot value access and names the point that follows. Cursors
and stamps are unbounded natural numbers.
-/

namespace DoomFishUtils.Spsc
set_option autoImplicit false
open Library

/-- `usize::next_power_of_two`: the least power of two that is at least `n`. -/
def nextPowerOfTwo (n : ℕ) : ℕ :=
  2 ^ Nat.clog 2 n

/-- A slot: its stamp, and its value when it is initialised. -/
structure Slot (T : Type*) where
  stamp : ℕ
  value : Option T
  deriving DecidableEq, Repr

/-- The shared memory of a ring. -/
structure Ring (T : Type*) where
  slots : List (Slot T)
  lap : ℕ
  read : ℕ
  write : ℕ
  deriving DecidableEq, Repr

namespace Ring

variable {T : Type*}

def new (capacity : ℕ) : Ring T where
  slots := (List.range capacity).map fun index => ⟨index * 2, none⟩
  lap := nextPowerOfTwo capacity * 2
  read := 0
  write := 0

/-- The slot index of a cursor value, `(position & (lap - 1)) >> 1`. -/
def index (r : Ring T) (position : ℕ) : ℕ :=
  (position &&& (r.lap - 1)) >>> 1

def next (r : Ring T) (position : ℕ) : ℕ :=
  if r.index position + 1 = r.slots.length then
    -- `position & !(lap - 1)` clears the bits that `lap - 1` selects
    position - (position &&& (r.lap - 1)) + r.lap
  else
    position + 2

/-- `position - lap`. Below one lap the wrapped difference is no cursor value at all. -/
def oldest (r : Ring T) (position : ℕ) : Option ℕ :=
  if r.lap ≤ position then some (position - r.lap) else none

def slot (r : Ring T) (position : ℕ) : Option (Slot T) :=
  r.slots[r.index position]?

def setStamp (r : Ring T) (position stamp : ℕ) : Ring T :=
  { r with slots := r.slots.modify (r.index position) fun slot => { slot with stamp } }

def setValue (r : Ring T) (position : ℕ) (value : Option T) : Ring T :=
  { r with slots := r.slots.modify (r.index position) fun slot => { slot with value } }

end Ring

/-- The program points of `push`, `pop` and `len`, each named after the access that the
thread performs next, with the local variables that are still needed. -/
inductive Pc (T : Type*) where
  | idle
  | pushLoadWrite (item : T) (overwrite : Bool)
  | pushLoadStamp (item : T) (overwrite : Bool) (position : ℕ)
  | pushCasWrite (item : T) (overwrite : Bool) (position : ℕ)
  | pushWriteValue (item : T) (position : ℕ)
  | pushLoadRead (item : T) (overwrite : Bool) (position oldest : ℕ)
  | pushCasRead (item : T) (position oldest : ℕ)
  | pushStoreWrite (item : T) (position : ℕ)
  | pushReplace (item : T) (position : ℕ)
  | pushStoreStamp (position : ℕ) (displaced : Option T)
  | popLoadRead
  | popLoadStamp (position : ℕ)
  | popCasRead (position : ℕ)
  | popReadValue (position : ℕ)
  | popStoreStamp (position : ℕ) (item : T)
  | popLoadWrite (position : ℕ)
  | lenLoadRead
  | lenLoadWrite (read : ℕ)
  | lenReloadRead (read write : ℕ)
  /-- A slot index out of bounds, or a read of an uninitialised value. -/
  | fault
  deriving DecidableEq, Repr

/-- What a call returns. A value that leaves the ring comes with the read position under
which it was claimed. -/
inductive Answer (T : Type*) where
  | pushed
  | full (item : T)
  | displaced (position : ℕ) (item : T)
  | popped (position : ℕ) (item : T)
  | empty
  | count (n : ℕ)
  deriving DecidableEq, Repr

/-- The visible events of a run: a write position is claimed for an item, a read position
is claimed, a call returns. -/
inductive Event (T : Type*) where
  | accepted (item : T)
  | claimed (position : ℕ)
  | returned (answer : Answer T)
  deriving DecidableEq, Repr

namespace Ring

variable {T : Type*}

/-- The value that `len` computes from two cursors. -/
def count (r : Ring T) (read write : ℕ) : ℕ :=
  if read = write then 0
  else if r.index read < r.index write then r.index write - r.index read
  else r.slots.length - r.index read + r.index write

/-- One atomic access of a thread at `pc`. `spurious` makes a weak compare-exchange fail. -/
def advance (r : Ring T) (spurious : Bool) : Pc T → Ring T × Pc T × List (Event T)
  | .pushLoadWrite item overwrite => (r, .pushLoadStamp item overwrite r.write, [])
  | .pushLoadStamp item overwrite position =>
    match r.slot position with
    | none => (r, .fault, [])
    | some slot =>
      if slot.stamp = position then (r, .pushCasWrite item overwrite position, [])
      else match r.oldest position with
        | none => (r, .pushLoadWrite item overwrite, [])
        | some oldest =>
          if slot.stamp = oldest + 1 then (r, .pushLoadRead item overwrite position oldest, [])
          else (r, .pushLoadWrite item overwrite, [])
  | .pushCasWrite item overwrite position =>
    if r.write = position ∧ spurious = false then
      ({ r with write := r.next position }, .pushWriteValue item position, [.accepted item])
    else (r, .pushLoadWrite item overwrite, [])
  | .pushWriteValue item position =>
    (r.setValue position (some item), .pushStoreStamp position none, [])
  | .pushLoadRead item overwrite position oldest =>
    if r.read = oldest then
      if overwrite then (r, .pushCasRead item position oldest, [])
      else (r, .idle, [.returned (.full item)])
    else (r, .pushLoadWrite item overwrite, [])
  | .pushCasRead item position oldest =>
    if r.read = oldest then
      -- both positions are settled here: nobody else can move `write` until the store below
      ({ r with read := r.next oldest }, .pushStoreWrite item position,
        [.claimed oldest, .accepted item])
    else (r, .pushLoadWrite item true, [])
  | .pushStoreWrite item position =>
    ({ r with write := r.next position }, .pushReplace item position, [])
  | .pushReplace item position =>
    match (r.slot position).bind Slot.value with
    | none => (r, .fault, [])
    | some displaced =>
      (r.setValue position (some item), .pushStoreStamp position (some displaced), [])
  | .pushStoreStamp position none =>
    (r.setStamp position (position + 1), .idle, [.returned .pushed])
  | .pushStoreStamp position (some displaced) =>
    (r.setStamp position (position + 1), .idle,
      [.returned (.displaced (position - r.lap) displaced)])
  | .popLoadRead => (r, .popLoadStamp r.read, [])
  | .popLoadStamp position =>
    match r.slot position with
    | none => (r, .fault, [])
    | some slot =>
      if slot.stamp = position + 1 then (r, .popCasRead position, [])
      else if slot.stamp = position then (r, .popLoadWrite position, [])
      else (r, .popLoadRead, [])
  | .popCasRead position =>
    if r.read = position ∧ spurious = false then
      ({ r with read := r.next position }, .popReadValue position, [.claimed position])
    else (r, .popLoadRead, [])
  | .popReadValue position =>
    match (r.slot position).bind Slot.value with
    | none => (r, .fault, [])
    | some item => (r.setValue position none, .popStoreStamp position item, [])
  | .popStoreStamp position item =>
    (r.setStamp position (position + r.lap), .idle, [.returned (.popped position item)])
  | .popLoadWrite position =>
    if r.write = position then (r, .idle, [.returned .empty]) else (r, .popLoadRead, [])
  | .lenLoadRead => (r, .lenLoadWrite r.read, [])
  | .lenLoadWrite read => (r, .lenReloadRead read r.write, [])
  | .lenReloadRead read write =>
    if r.read = read then (r, .idle, [.returned (.count (r.count read write))])
    else (r, .lenLoadRead, [])
  | .idle => (r, .idle, [])
  | .fault => (r, .fault, [])

end Ring

/-- A ring and the threads that share it, with the events so far, oldest first. -/
structure Threads (ι T : Type*) where
  ring : Ring T
  pc : ι → Pc T
  log : List (ι × Event T)

/-- A thread starts a call, or performs the next access of the call it is in. -/
inductive Action (ι T : Type*) where
  | push (t : ι) (item : T) (overwrite : Bool)
  | pop (t : ι)
  | len (t : ι)
  | advance (t : ι) (spurious : Bool)
  deriving DecidableEq, Repr

namespace Threads

variable {ι T : Type*} [DecidableEq ι]

def new (capacity : ℕ) : Threads ι T where
  ring := .new capacity
  pc _ := .idle
  log := []

def call (s : Threads ι T) (t : ι) (entry : Pc T) : Option (Threads ι T) :=
  match s.pc t with
  | .idle => some { s with pc := Function.update s.pc t entry }
  | _ => none

def access (s : Threads ι T) (t : ι) (spurious : Bool) : Threads ι T :=
  let (ring, pc, events) := s.ring.advance spurious (s.pc t)
  { ring, pc := Function.update s.pc t pc, log := s.log ++ events.map (t, ·) }

def next (s : Threads ι T) : Action ι T → Option (Threads ι T)
  | .push t item overwrite => s.call t (.pushLoadWrite item overwrite)
  | .pop t => s.call t .popLoadRead
  | .len t => s.call t .lenLoadRead
  | .advance t spurious =>
    match s.pc t with
    | .idle | .fault => none
    | _ => some (s.access t spurious)

end Threads

/-- All interleavings of calls on a new ring. -/
def ringSystem (ι T : Type*) [DecidableEq ι] (capacity : ℕ) :
    System (Threads ι T) (Action ι T) :=
  .ofNext (Threads.new capacity) Threads.next

end DoomFishUtils.Spsc
