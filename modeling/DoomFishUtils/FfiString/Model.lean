import DoomFishUtils.Library.Unwind
import DoomFishUtils.Library.Utf8

/-!
# Strings from foreign code

The source's helpers for C functions that write a string to a buffer or return an owned C string.
Addresses are numbers with null at 0, and a heap holds the C strings that have not been freed.
-/

namespace DoomFishUtils.FfiString

set_option autoImplicit false

open DoomFishUtils.Library

def defaultBufferSize : ℕ :=
  1024

def smallBufferSize : ℕ :=
  256

def stackBufferBytes : ℕ :=
  256

def isizeMax : ℕ :=
  2 ^ 63 - 1

/-! ### Buffers -/

/-- Scans for the terminator and decodes the bytes before it. -/
def parseBuffer (buffer : List Int8) : Option (List Char) :=
  let bytes := buffer.map Int8.toUInt8
  match bytes.idxOf? 0 with
  | none => none
  | some nulPos =>
    let s := fromUtf8Lossy (bytes.take nulPos)
    if s.isEmpty then none else some s

/-- A foreign call that writes no cell beyond the length that it is given. -/
structure FfiCall where
  write : List Int8 → Bool × List Int8
  length_write : ∀ cells, (write cells).2.length = cells.length

/-- The call with a pointer to a buffer and the length of the cells that it may write. -/
def FfiCall.call (ffiCall : FfiCall) (buffer : List Int8) (bufferLen : ℕ) : Bool × List Int8 :=
  let (success, cells) := ffiCall.write (buffer.take bufferLen)
  (success, cells ++ buffer.drop bufferLen)

/-- The panic of an allocation of more than `isize::MAX` bytes. -/
inductive Panic where
  | capacityOverflow
  deriving DecidableEq

def ffiStringFromBuffer (bufferSize : ℕ) (ffiCall : FfiCall) : Except Panic (Option (List Char)) :=
  if bufferSize ≤ stackBufferBytes then
    let (success, buffer) := ffiCall.call (.replicate stackBufferBytes 0) bufferSize
    if !success then .ok none else .ok (parseBuffer (buffer.take bufferSize))
  else if isizeMax < bufferSize then .error .capacityOverflow
  else
    let (success, buffer) := ffiCall.call (.replicate bufferSize 0) bufferSize
    if !success then .ok none else .ok (parseBuffer buffer)

def ffiStringFromBufferOrEmpty (bufferSize : ℕ) (ffiCall : FfiCall) : Except Panic (List Char) :=
  (ffiStringFromBuffer bufferSize ffiCall).map (·.getD [])

/-! ### Owned strings -/

abbrev Heap : Type :=
  ℕ → Option (List UInt8)

inductive Event (P : Type) where
  | called (ending : Except P ℕ)
  /-- The bytes up to the terminator; no bytes where there is no string any more. -/
  | read (ptr : ℕ) (bytes : Option (List UInt8))
  | freed (ptr : ℕ) (ending : Except P Unit)

/-- What the helpers of owned strings are given, and the allocations that may panic. -/
structure Bridge (P : Type) where
  freeFn : ℕ → Foreign P Heap Unit
  /-- The allocation of a copy of these bytes. -/
  toVec : List UInt8 → Option P
  /-- The allocation of the text of these bytes. -/
  intoOwned : List UInt8 → Option P

namespace Bridge

variable {P : Type} (bridge : Bridge P)

/-- `CStr::from_ptr(ptr).to_bytes()`. -/
def toBytes (ptr : ℕ) : Code P Heap (Event P) (List UInt8) :=
  fun heap => ⟨.returned ((heap ptr).getD []), heap, [.read ptr (heap ptr)]⟩

/-- An allocation. -/
def allocate {α : Type} (panic : Option P) (value : α) : Code P Heap (Event P) α :=
  fun heap =>
    match panic with
    | none => ⟨.returned value, heap, []⟩
    | some payload => ⟨.unwound payload, heap, []⟩

def free (ptr : ℕ) : Code P Heap (Event P) Unit :=
  .run (.freed ptr) (bridge.freeFn ptr)

/-- `String::from_utf8_lossy(bytes).into_owned()`. -/
def decode (bytes : List UInt8) : Code P Heap (Event P) (List Char) :=
  allocate (bridge.intoOwned bytes) (fromUtf8Lossy bytes)

/-- The guard frees the pointer when the scope ends or unwinds. -/
def ffiStringOwned (ffiCall : Foreign P Heap ℕ) : Code P Heap (Event P) (Option (List Char)) := do
  let ptr ← Code.run .called ffiCall
  if ptr = 0 then return none
  else
    Code.owning (bridge.free ptr) do
      let bytes ← toBytes ptr
      if bytes.isEmpty then return none
      else return some (← bridge.decode bytes)

def ffiStringOwnedOrEmpty (ffiCall : Foreign P Heap ℕ) : Code P Heap (Event P) (List Char) := do
  return (← bridge.ffiStringOwned ffiCall).getD []

def takeOwnedCstring (ptr : ℕ) : Code P Heap (Event P) (Option (List Char)) :=
  if ptr = 0 then return none else bridge.ffiStringOwned fun heap => (.ok ptr, heap)

/-- `take_owned_cstring_c`, which has no guard and copies the bytes first. -/
def takeOwnedCstringC (ptr : ℕ) : Code P Heap (Event P) (Option (List Char)) :=
  if ptr = 0 then return none
  else do
    let bytes ← toBytes ptr
    let bytes ← allocate (bridge.toVec bytes) bytes
    bridge.free ptr
    if bytes.isEmpty then return none
    else return some (← bridge.decode bytes)

end Bridge

end DoomFishUtils.FfiString
