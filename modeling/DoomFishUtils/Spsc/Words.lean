import DoomFishUtils.Library.Words
import DoomFishUtils.Spsc.Solo

/-!
# The ring in machine words

The ring with cursors and stamps in wrapping words, and its operations as one thread performs them:
each round of a loop is one turn, which returns or has the loop go around again.
-/

namespace DoomFishUtils.Spsc
set_option autoImplicit false
open Library

/-- A round of a loop: it returns, goes around again, or has indexed out of bounds or read a value
that is not there. -/
inductive Turn (α : Type) where
  | done (answer : α)
  | again
  | fault

structure WordSlot (T : Type) where
  stamp : UInt64
  value : Option T

structure WordRing (T : Type) where
  slots : List (WordSlot T)
  lap : UInt64
  read : UInt64
  write : UInt64

namespace WordRing

variable {T : Type}

def new (capacity : ℕ) : WordRing T where
  slots := (List.range capacity).map fun index => ⟨UInt64.ofNat index * 2, none⟩
  lap := UInt64.ofNat (nextPowerOfTwo capacity) * 2
  read := 0
  write := 0

def index (ring : WordRing T) (position : UInt64) : UInt64 :=
  (position &&& (ring.lap - 1)) >>> 1

/-- `self.slots.len()`. -/
def capacity (ring : WordRing T) : UInt64 :=
  UInt64.ofNat ring.slots.length

def next (ring : WordRing T) (position : UInt64) : UInt64 :=
  if ring.index position + 1 = ring.capacity then
    (position &&& ~~~(ring.lap - 1)) + ring.lap
  else position + 2

def slot (ring : WordRing T) (position : UInt64) : Option (WordSlot T) :=
  ring.slots[(ring.index position).toNat]?

/-- The stores to the slot of a position. -/
def fill (ring : WordRing T) (position : UInt64) (value : Option T) (stamp : UInt64) :
    WordRing T :=
  { ring with slots := ring.slots.set (ring.index position).toNat ⟨stamp, value⟩ }

/-- A round of the loop of `push`. -/
def push (ring : WordRing T) (item : T) (overwrite : Bool) :
    Turn (Except T (Option T) × WordRing T) :=
  let position := ring.write
  match ring.slot position with
  | none => .fault
  | some slot =>
    let next := ring.next position
    if slot.stamp = position then
      if ring.write = position then
        .done (.ok none, { ring with write := next }.fill position (some item) (position + 1))
      else .again
    else
      let oldest := position - ring.lap
      if slot.stamp = oldest + 1 ∧ ring.read = oldest then
        if !overwrite then .done (.error item, ring)
        else if ring.read = oldest then
          match slot.value with
          | none => .fault
          | some displaced =>
            .done (.ok (some displaced), { ring with
              read := ring.next oldest
              write := next }.fill position (some item) (position + 1))
        else .again
      else .again

/-- A round of the loop of `pop`. -/
def pop (ring : WordRing T) : Turn (Option T × WordRing T) :=
  let position := ring.read
  match ring.slot position with
  | none => .fault
  | some slot =>
    if slot.stamp = position + 1 then
      if ring.read = position then
        match slot.value with
        | none => .fault
        | some item =>
          .done (some item, { ring with
            read := ring.next position }.fill position none (position + ring.lap))
      else .again
    else if slot.stamp = position ∧ ring.write = position then .done (none, ring)
    else .again

/-- A round of the loop of `len`. -/
def len (ring : WordRing T) : Turn UInt64 :=
  let read := ring.read
  let write := ring.write
  if read = ring.read then
    let readIndex := ring.index read
    let writeIndex := ring.index write
    .done (
      if read = write then 0
      else if readIndex < writeIndex then writeIndex - readIndex
      else ring.capacity - readIndex + writeIndex)
  else .again

section Rounds

variable {ring : WordRing T} {item : T} {overwrite : Bool}

/-- The slot is stamped for the write position: it is free. -/
lemma push_free {value : Option T} (hslot : ring.slot ring.write = some ⟨ring.write, value⟩) :
    ring.push item overwrite = .done (.ok none,
      { ring with write := ring.next ring.write }.fill ring.write (some item) (ring.write + 1)) := by
  unfold push
  simp [hslot]

/-- The slot still holds the item of the lap before. -/
lemma push_full {slot : WordSlot T} (hslot : ring.slot ring.write = some slot)
    (hread : ring.read = ring.write - ring.lap) (hstamp : slot.stamp = ring.read + 1)
    (hne : slot.stamp ≠ ring.write) :
    ring.push item false = .done (.error item, ring) := by
  unfold push
  rw [hread] at hstamp
  simp [hslot, hstamp ▸ hne, hstamp, hread]

lemma push_displacing {displaced : T} {stamp : UInt64}
    (hslot : ring.slot ring.write = some ⟨stamp, some displaced⟩)
    (hread : ring.read = ring.write - ring.lap) (hstamp : stamp = ring.read + 1)
    (hne : stamp ≠ ring.write) :
    ring.push item true = .done (.ok (some displaced),
      { ring with
        read := ring.next ring.read
        write := ring.next ring.write }.fill ring.write (some item) (ring.write + 1)) := by
  unfold push
  rw [hread] at hstamp
  simp [hslot, hstamp ▸ hne, hstamp, hread]

lemma pop_filled (hslot : ring.slot ring.read = some ⟨ring.read + 1, some item⟩) :
    ring.pop = .done (some item,
      { ring with read := ring.next ring.read }.fill ring.read none (ring.read + ring.lap)) := by
  unfold pop
  simp [hslot]

lemma pop_empty {value : Option T} (hslot : ring.slot ring.read = some ⟨ring.read, value⟩)
    (hwrite : ring.write = ring.read) : ring.pop = .done (none, ring) := by
  unfold pop
  simp [hslot, hwrite]

lemma len_eq (ring : WordRing T) : ring.len = .done (
    if ring.read = ring.write then 0
    else if ring.index ring.read < ring.index ring.write then
      ring.index ring.write - ring.index ring.read
    else ring.capacity - ring.index ring.read + ring.index ring.write) := by
  unfold len
  simp

end Rounds

/-- `Ring::drop` with so much fuel: the items that it drops, and what is left. -/
def drop : ℕ → WordRing T → Option (List T × WordRing T)
  | 0, _ => none
  | fuel + 1, ring =>
    match ring.pop with
    | .done (some item, ring) =>
      (drop fuel ring).map fun (items, ring) => (item :: items, ring)
    | .done (none, ring) => some ([], ring)
    | _ => none

end WordRing

/-! ### Sequences of calls -/

inductive Call (T : Type) where
  | push (item : T) (overwrite : Bool)
  | pop
  | len

inductive Reply (T : Type) where
  | pushed (result : Except T (Option T))
  | popped (result : Option T)
  | length (n : ℕ)

namespace WordRing

variable {T : Type}

/-- The first round of a call. -/
def perform (ring : WordRing T) : Call T → Turn (Reply T × WordRing T)
  | .push item overwrite =>
    match ring.push item overwrite with
    | .done (result, ring) => .done (.pushed result, ring)
    | .again => .again
    | .fault => .fault
  | .pop =>
    match ring.pop with
    | .done (result, ring) => .done (.popped result, ring)
    | .again => .again
    | .fault => .fault
  | .len =>
    match ring.len with
    | .done n => .done (.length n.toNat, ring)
    | .again => .again
    | .fault => .fault

/-- Calls one after the other, as long as each returns in its first round. -/
def performAll : WordRing T → List (Call T) → Option (List (Reply T) × WordRing T)
  | ring, [] => some ([], ring)
  | ring, call :: calls =>
    match ring.perform call with
    | .done (reply, ring) =>
      (ring.performAll calls).map fun (replies, ring) => (reply :: replies, ring)
    | _ => none

end WordRing

/-! ### A bounded queue -/

namespace Fifo

variable {T : Type}

/-- What a call does to a queue of at most `capacity` items. -/
def perform (capacity : ℕ) (items : List T) : Call T → Reply T × List T
  | .push item overwrite =>
    if items.length < capacity then (.pushed (.ok none), items ++ [item])
    else if overwrite then (.pushed (.ok items.head?), items.tail ++ [item])
    else (.pushed (.error item), items)
  | .pop => (.popped items.head?, items.tail)
  | .len => (.length items.length, items)

def performAll (capacity : ℕ) : List T → List (Call T) → List (Reply T) × List T
  | items, [] => ([], items)
  | items, call :: calls =>
    let (reply, items) := perform capacity items call
    let (replies, items) := performAll capacity items calls
    (reply :: replies, items)

end Fifo

end DoomFishUtils.Spsc
