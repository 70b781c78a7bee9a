import DoomFishUtils.Library.Cells
import Mathlib.Algebra.Order.Ring.Nat

/-!
# The vector in an array

The source's `collections::array_vec`: a length and an array of cells that are initialised up to
it.  The operations move elements between cells; where one of them reads an uninitialised cell or
leaves the array it has no result.
-/

namespace DoomFishUtils

set_option autoImplicit false

open Library

structure ArrayVec (T : Type) where
  len : ℕ
  items : Cells T

namespace ArrayVec

def usizeMax : ℕ :=
  2 ^ 64 - 1

def checkedAdd (first second : ℕ) : Option ℕ :=
  if first + second ≤ usizeMax then some (first + second) else none

inductive Bound where
  | included (value : ℕ)
  | excluded (value : ℕ)
  | unbounded

structure RangeBounds where
  startBound : Bound
  endBound : Bound

inductive Panic where
  | full
  | insertion
  | removal
  | drain
  deriving DecidableEq

def Panic.message : Panic → String
  | .full => "ArrayVec is full"
  | .insertion => "insertion index is out of bounds"
  | .removal => "removal index is out of bounds"
  | .drain => "drain range is out of bounds"

/-- The index that `drain` starts from, unless it overflows. -/
def Bound.startIndex : Bound → Option ℕ
  | .included start => some start
  | .excluded start => checkedAdd start 1
  | .unbounded => some 0

/-- The index that `drain` stops before, unless it overflows. -/
def Bound.endIndex (len : ℕ) : Bound → Option ℕ
  | .included stop => checkedAdd stop 1
  | .excluded stop => some stop
  | .unbounded => some len

/-- The start and the end of a range in a vector of this length, unless it is out of bounds. -/
def RangeBounds.resolve (range : RangeBounds) (len : ℕ) : Option (ℕ × ℕ) :=
  match range.startBound.startIndex, range.endBound.endIndex len with
  | some start, some stop => if start ≤ stop ∧ stop ≤ len then some (start, stop) else none
  | _, _ => none

/-- What an operation answers and leaves, and the elements that it drops. -/
structure Outcome (V T α : Type) where
  answer : Except Panic α
  vec : V
  dropped : List T

structure IntoIter (T : Type) where
  items : Cells T
  start : ℕ
  stop : ℕ

namespace IntoIter

variable {T : Type}

def next (cap : ℕ) (iter : IntoIter T) : Option (Option T × IntoIter T) :=
  if iter.start = iter.stop then some (none, iter)
  else do
    let (value, items) ← iter.items.read cap iter.start
    some (some value, { iter with items := items, start := iter.start + 1 })

def nextBack (cap : ℕ) (iter : IntoIter T) : Option (Option T × IntoIter T) :=
  if iter.start = iter.stop then some (none, iter)
  else do
    let (value, items) ← iter.items.read cap (iter.stop - 1)
    some (some value, { iter with items := items, stop := iter.stop - 1 })

/-- The elements that dropping the iterator drops. -/
def drop (cap : ℕ) (iter : IntoIter T) : Option (List T) :=
  (iter.items.drain cap iter.start (iter.stop - iter.start)).map Prod.fst

end IntoIter

section

variable {T σ : Type}

def new : ArrayVec T :=
  ⟨0, .uninit⟩

def asSlice (cap : ℕ) (vec : ArrayVec T) : Option (List T) :=
  vec.items.contents cap 0 vec.len

/-- The live elements, with the vector once they have been changed in place. -/
def asMutSlice (cap : ℕ) (vec : ArrayVec T) : Option (List T × (List T → ArrayVec T)) :=
  (vec.items.contents cap 0 vec.len).map fun slice =>
    (slice, fun changed => { vec with items := vec.items.overwrite changed })

def isFull (cap : ℕ) (vec : ArrayVec T) : Bool :=
  decide (vec.len = cap)

def push (cap : ℕ) (vec : ArrayVec T) (value : T) : Option (Outcome (ArrayVec T) T Unit) :=
  if vec.len < cap then do
    let items ← vec.items.write cap vec.len value
    some ⟨.ok (), ⟨vec.len + 1, items⟩, []⟩
  else some ⟨.error .full, vec, [value]⟩

def pop (cap : ℕ) (vec : ArrayVec T) : Option (Option T × ArrayVec T) :=
  if vec.len = 0 then some (none, vec)
  else do
    let (value, items) ← vec.items.read cap (vec.len - 1)
    some (some value, ⟨vec.len - 1, items⟩)

def insert (cap : ℕ) (vec : ArrayVec T) (index : ℕ) (value : T) :
    Option (Outcome (ArrayVec T) T Unit) :=
  if index ≤ vec.len then
    if vec.len < cap then do
      let items ← vec.items.move cap index (index + 1) (vec.len - index)
      let items ← items.write cap index value
      some ⟨.ok (), ⟨vec.len + 1, items⟩, []⟩
    else some ⟨.error .full, vec, [value]⟩
  else some ⟨.error .insertion, vec, [value]⟩

def remove (cap : ℕ) (vec : ArrayVec T) (index : ℕ) : Option (Outcome (ArrayVec T) T T) :=
  if index < vec.len then do
    let (value, items) ← vec.items.read cap index
    let items ← items.move cap (index + 1) index (vec.len - 1 - index)
    some ⟨.ok value, ⟨vec.len - 1, items⟩, []⟩
  else some ⟨.error .removal, vec, []⟩

/-- The loop of `truncate`, which pops at most once for each element. -/
def truncateLoop (cap len : ℕ) : ℕ → ArrayVec T → Option (ArrayVec T × List T)
  | 0, vec => some (vec, [])
  | rounds + 1, vec =>
    if len < vec.len then do
      let (value, vec) ← vec.pop cap
      let (vec, dropped) ← truncateLoop cap len rounds vec
      some (vec, value.toList ++ dropped)
    else some (vec, [])

def truncate (cap : ℕ) (vec : ArrayVec T) (len : ℕ) : Option (ArrayVec T × List T) :=
  truncateLoop cap len vec.len vec

def clear (cap : ℕ) (vec : ArrayVec T) : Option (ArrayVec T × List T) :=
  vec.truncate cap 0

/-- The loop of `retain` over the cells from `index` on.  The predicate may change the element
and what it has captured. -/
def retainLoop (cap : ℕ) (keep : σ → T → Bool × T × σ) :
    ℕ → ℕ → σ → ArrayVec T → Option (σ × ArrayVec T × List T)
  | 0, _, state, vec => some (state, vec, [])
  | rounds + 1, index, state, vec => do
    let (value, items) ← vec.items.read cap index
    match keep state value with
    | (true, value, state) =>
      let items ← items.write cap vec.len value
      retainLoop cap keep rounds (index + 1) state ⟨vec.len + 1, items⟩
    | (false, value, state) =>
      let (state, vec, dropped) ← retainLoop cap keep rounds (index + 1) state ⟨vec.len, items⟩
      some (state, vec, value :: dropped)

def retain (cap : ℕ) (keep : σ → T → Bool × T × σ) (state : σ) (vec : ArrayVec T) :
    Option (σ × ArrayVec T × List T) :=
  retainLoop cap keep vec.len 0 state { vec with len := 0 }

def intoIter (vec : ArrayVec T) : IntoIter T :=
  ⟨vec.items, 0, vec.len⟩

def drain (cap : ℕ) (vec : ArrayVec T) (range : RangeBounds) :
    Option (Outcome (ArrayVec T) T (IntoIter T)) :=
  match range.resolve vec.len with
  | some (start, stop) => do
    let (items, drained) ← vec.items.transfer cap .uninit start 0 (stop - start)
    let items ← items.move cap (start + (stop - start)) start (vec.len - stop)
    some ⟨.ok (intoIter ⟨stop - start, drained⟩), ⟨vec.len - (stop - start), items⟩, []⟩
  | none => some ⟨.error .drain, vec, []⟩

/-- The elements that dropping the vector drops. -/
def drop (cap : ℕ) (vec : ArrayVec T) : Option (List T) :=
  (vec.items.drain cap 0 vec.len).map Prod.fst

end

end ArrayVec

end DoomFishUtils
