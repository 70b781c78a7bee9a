import DoomFishUtils.ArrayVec.Runs

/-!
# The vector with inline storage

The source's `collections::small_vec`: the elements are in an array until they do not fit, and
from then on in a `Vec` on the heap.  The `Vec` is a list without a limit; the array is the one of
`collections::array_vec`, and an operation has no result where an access to its cells is undefined
or an index into a slice is out of bounds.
-/

namespace DoomFishUtils

set_option autoImplicit false

open ArrayVec (Panic RangeBounds retained usizeMax)

inductive SmallVec.Storage (T : Type) where
  | inline (array : ArrayVec T)
  | heap (vec : List T)

structure SmallVec (T : Type) where
  storage : SmallVec.Storage T

namespace SmallVec

variable {T σ : Type}

/-! ### The standard library's vector -/

/-- `Vec::remove`. -/
def Vec.remove (vec : List T) (index : ℕ) : Except Panic T × List T :=
  match vec[index]? with
  | some value => (.ok value, vec.eraseIdx index)
  | none => (.error .removal, vec)

/-- `Vec::drain`: the elements of the drain, and the vector when the drain is dropped. -/
def Vec.drain (vec : List T) (range : RangeBounds) : Except Panic (List T) × List T :=
  if range.Within vec.length then
    (.ok ((vec.take (range.endBound.upper vec.length)).drop range.startBound.lower),
      vec.take range.startBound.lower ++ vec.drop (range.endBound.upper vec.length))
  else (.error .drain, vec)

/-- `Vec::retain_mut`, with what the predicate has captured. -/
def Vec.retainMut (keep : σ → T → Bool × T × σ) (state : σ) (vec : List T) : σ × List T :=
  ((retained keep state vec).1, (retained keep state vec).2.1)

/-! ### Iterators -/

/-- The source's `IntoIter` and `Drain`, whose code is the same; on the heap each of them is the
list of the elements that are left. -/
inductive Iter (T : Type) where
  | inline (iter : ArrayVec.IntoIter T)
  | heap (items : List T)

abbrev IntoIter (T : Type) := Iter T

abbrev Drain (T : Type) := Iter T

namespace Iter

def next (N : ℕ) : Iter T → Option (Option T × Iter T)
  | .inline iter => (iter.next N).map fun yielded => (yielded.1, .inline yielded.2)
  | .heap items => some (items.head?, .heap items.tail)

def nextBack (N : ℕ) : Iter T → Option (Option T × Iter T)
  | .inline iter => (iter.nextBack N).map fun yielded => (yielded.1, .inline yielded.2)
  | .heap items => some (items.getLast?, .heap items.dropLast)

def drop (N : ℕ) : Iter T → Option (List T)
  | .inline iter => iter.drop N
  | .heap items => some items

end Iter

/-- The end of an iterator that an element is taken from. -/
inductive End where
  | front
  | back

/-- What an iterator yields at these ends before it is dropped. -/
def Iter.consume (N : ℕ) : List End → Iter T → Option (List (Option T))
  | [], iter => (iter.drop N).map fun _ => []
  | .front :: ends, iter => do
    let (value, iter) ← iter.next N
    let values ← consume N ends iter
    some (value :: values)
  | .back :: ends, iter => do
    let (value, iter) ← iter.nextBack N
    let values ← consume N ends iter
    some (value :: values)

/-- The loop of `collect`, which asks for an element at most once more than there are. -/
def collectLoop (N : ℕ) : ℕ → ArrayVec.IntoIter T → Option (List T)
  | 0, _ => none
  | rounds + 1, iter => do
    let (value, iter) ← iter.next N
    match value with
    | some value =>
      let values ← collectLoop N rounds iter
      some (value :: values)
    | none => some []

def collect (N : ℕ) (iter : ArrayVec.IntoIter T) : Option (List T) :=
  collectLoop N (iter.stop - iter.start + 1) iter

/-! ### Operations -/

/-- The array, if the elements are inline and it passes a check. -/
def Storage.inlineIf (check : ArrayVec T → Bool) : Storage T → Option (ArrayVec T)
  | .inline array => if check array then some array else none
  | .heap _ => none

def new : SmallVec T :=
  ⟨.inline ArrayVec.new⟩

def asSlice (N : ℕ) (vec : SmallVec T) : Option (List T) :=
  match vec.storage with
  | .inline array => array.asSlice N
  | .heap vec => some vec

/-- The elements, with the vector once they have been changed in place. -/
def asMutSlice (N : ℕ) (vec : SmallVec T) : Option (List T × (List T → SmallVec T)) :=
  match vec.storage with
  | .inline array =>
    (array.asMutSlice N).map fun slice => (slice.1, fun changed => ⟨.inline (slice.2 changed)⟩)
  | .heap vec => some (vec, fun changed => ⟨.heap changed⟩)

/-- The vector on the heap, where the elements of the array are moved first. -/
def heap (N : ℕ) (vec : SmallVec T) : Option (List T) :=
  match vec.storage with
  | .inline array => do
    let outcome ← array.drain N ⟨.unbounded, .unbounded⟩
    match outcome.answer with
    | .ok drained => collect N drained
    | .error _ => none
  | .heap vec => some vec

def push (N : ℕ) (vec : SmallVec T) (value : T) : Option (Except Panic Unit × SmallVec T) :=
  match vec.storage.inlineIf fun array => !array.isFull N with
  | some array => (array.push N value).map fun outcome => (outcome.answer, ⟨.inline outcome.vec⟩)
  | none => (vec.heap N).map fun stored => (.ok (), ⟨.heap (stored ++ [value])⟩)

def pop (N : ℕ) (vec : SmallVec T) : Option (Option T × SmallVec T) :=
  match vec.storage with
  | .inline array => (array.pop N).map fun result => (result.1, ⟨.inline result.2⟩)
  | .heap vec => some (vec.getLast?, ⟨.heap vec.dropLast⟩)

def remove (N : ℕ) (vec : SmallVec T) (index : ℕ) : Option (Except Panic T × SmallVec T) :=
  match vec.storage with
  | .inline array =>
    (array.remove N index).map fun outcome => (outcome.answer, ⟨.inline outcome.vec⟩)
  | .heap vec => some ((Vec.remove vec index).1, ⟨.heap (Vec.remove vec index).2⟩)

def truncate (N : ℕ) (vec : SmallVec T) (len : ℕ) : Option (SmallVec T) :=
  match vec.storage with
  | .inline array => (array.truncate N len).map fun result => ⟨.inline result.1⟩
  | .heap vec => some ⟨.heap (vec.take len)⟩

def clear (N : ℕ) (vec : SmallVec T) : Option (SmallVec T) :=
  vec.truncate N 0

def saturatingAdd (first second : ℕ) : ℕ :=
  min (first + second) usizeMax

/-- The room in a `Vec` is not modelled, so neither is the panic of `Vec::reserve` and `Vec::push` on
a capacity past `isize::MAX` bytes: a heap has room for any list, here and in the list that the vector
is compared with. -/
def reserve (N : ℕ) (vec : SmallVec T) (additional : ℕ) : Option (SmallVec T) :=
  match vec.storage.inlineIf fun array => decide (saturatingAdd array.len additional ≤ N) with
  | some _ => some vec
  | none => (vec.heap N).map fun stored => ⟨.heap stored⟩

/-- The loop of `extend`. -/
def pushAll (N : ℕ) : List T → SmallVec T → Option (Except Panic Unit × SmallVec T)
  | [], vec => some (.ok (), vec)
  | value :: values, vec => do
    let (answer, vec) ← vec.push N value
    match answer with
    | .ok () => pushAll N values vec
    | .error panic => some (.error panic, vec)

/-- Appends what an iterator yields, which says first that there will be `lower` elements; a `lower`
past any capacity does not panic here, as at `reserve`. -/
def extend (N : ℕ) (vec : SmallVec T) (lower : ℕ) (values : List T) :
    Option (Except Panic Unit × SmallVec T) := do
  let vec ← vec.reserve N lower
  pushAll N values vec

def extendFromSlice (N : ℕ) (copy : T → T) (vec : SmallVec T) (slice : List T) :
    Option (Except Panic Unit × SmallVec T) :=
  vec.extend N slice.length (slice.map copy)

def swap (slice : List T) (first second : ℕ) : Option (List T) := do
  let left ← slice[first]?
  let right ← slice[second]?
  some ((slice.set first right).set second left)

/-- The loop of `dedup` over the places from `index` on; the first `kept` elements stay. -/
def dedupLoop (differ : T → T → Bool) : ℕ → ℕ → ℕ → List T → Option (ℕ × List T)
  | 0, _, kept, slice => some (kept, slice)
  | rounds + 1, index, kept, slice => do
    let value ← slice[index]?
    let last ← slice[kept - 1]?
    if differ value last then
      let slice ← swap slice kept index
      dedupLoop differ rounds (index + 1) (kept + 1) slice
    else dedupLoop differ rounds (index + 1) kept slice

def dedup (N : ℕ) (differ : T → T → Bool) (vec : SmallVec T) : Option (SmallVec T) := do
  let (slice, update) ← vec.asMutSlice N
  let (kept, slice) ← dedupLoop differ (slice.length - 1) 1 1 slice
  (update slice).truncate N kept

def retain (N : ℕ) (keep : σ → T → Bool × T × σ) (state : σ) (vec : SmallVec T) :
    Option (σ × SmallVec T) :=
  match vec.storage with
  | .inline array =>
    (array.retain N keep state).map fun result => (result.1, ⟨.inline result.2.1⟩)
  | .heap vec => some ((Vec.retainMut keep state vec).1, ⟨.heap (Vec.retainMut keep state vec).2⟩)

def drain (N : ℕ) (vec : SmallVec T) (range : RangeBounds) :
    Option (Except Panic (Drain T) × SmallVec T) :=
  match vec.storage with
  | .inline array =>
    (array.drain N range).map fun outcome =>
      (outcome.answer.map .inline, ⟨.inline outcome.vec⟩)
  | .heap vec =>
    some ((Vec.drain vec range).1.map .heap, ⟨.heap (Vec.drain vec range).2⟩)

def fromIter (N lower : ℕ) (values : List T) : Option (Except Panic (SmallVec T)) :=
  (new.extend N lower values).map fun result => result.1.map fun _ => result.2

def fromVec (N capacity : ℕ) (vec : List T) : Option (Except Panic (SmallVec T)) :=
  if capacity ≤ N then fromIter N vec.length vec else some (.ok ⟨.heap vec⟩)

def fromSlice (N : ℕ) (copy : T → T) (slice : List T) : Option (Except Panic (SmallVec T)) :=
  fromIter N slice.length (slice.map copy)

def clone (N : ℕ) (copy : T → T) (vec : SmallVec T) : Option (Except Panic (SmallVec T)) := do
  let slice ← vec.asSlice N
  fromIter N slice.length (slice.map copy)

def intoIter (vec : SmallVec T) : IntoIter T :=
  match vec.storage with
  | .inline array => .inline array.intoIter
  | .heap vec => .heap vec

end SmallVec

end DoomFishUtils
