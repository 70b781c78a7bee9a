import DoomFishUtils.Library.Transition
import Mathlib.Algebra.Order.Ring.Nat
import Mathlib.Data.List.Basic

/-!
# The generational slot map

The source's `SlotMap` over its vector of versioned slots, with vacant slots linked into a
free list.  Every operation returns the map it leaves behind together with its result, also
when it panics.
-/

namespace DoomFishUtils.SlotMap

set_option autoImplicit false

/-- A key.  Every constructor of the source sets the lowest bit of the version. -/
structure KeyData where
  idx : UInt32
  version : UInt32
  odd : version.toNat % 2 = 1
  deriving DecidableEq

lemma toNat_or_one (version : UInt32) :
    (version ||| 1).toNat = 2 * (version.toNat / 2) + 1 := by
  have hsplit : 2 * (version.toNat / 2) + version.toNat % 2 =
      2 * (version.toNat / 2) ||| version.toNat % 2 := by
    simpa using Nat.two_pow_add_eq_or_of_lt (i := 1)
      (Nat.mod_lt version.toNat (by decide : 0 < 2)) (version.toNat / 2)
  have hone : 2 * (version.toNat / 2) + 1 = 2 * (version.toNat / 2) ||| 1 := by
    simpa using Nat.two_pow_add_eq_or_of_lt (i := 1) (by decide : 1 < 2 ^ 1) (version.toNat / 2)
  rw [UInt32.toNat_or, hone]
  conv_lhs => rw [← Nat.div_add_mod version.toNat 2, hsplit]
  rw [Nat.or_assoc]
  congr 1
  rcases Nat.mod_two_eq_zero_or_one version.toNat with h | h <;> rw [h] <;> rfl

lemma or_one_odd (version : UInt32) : (version ||| 1).toNat % 2 = 1 := by
  rw [toNat_or_one]
  omega

lemma or_one_of_odd {version : UInt32} (h : version.toNat % 2 = 1) : version ||| 1 = version := by
  apply UInt32.toNat_inj.mp
  rw [toNat_or_one]
  omega

/-- A successor in `u32` has the other parity, also when it wraps. -/
lemma toNat_add_one_mod_two (version : UInt32) :
    (version + 1).toNat % 2 = (version.toNat + 1) % 2 := by
  rw [UInt32.toNat_add]
  have : (1 : UInt32).toNat = 1 := rfl
  omega

namespace KeyData

def new (idx version : UInt32) : KeyData :=
  ⟨idx, version ||| 1, or_one_odd version⟩

def asFfi (key : KeyData) : UInt64 :=
  (key.version.toUInt64 <<< 32) ||| key.idx.toUInt64

def fromFfi (value : UInt64) : KeyData :=
  new (value &&& 0xffffffff).toUInt32 (value >>> 32).toUInt32

def isNull (key : KeyData) : Bool :=
  key.idx == 0xffffffff

/-- The null key. -/
def default : KeyData :=
  new 0xffffffff 1

end KeyData

inductive State (V : Type) where
  | occupied (value : V)
  | vacant (next : UInt32)
  deriving DecidableEq

structure Slot (V : Type) where
  version : UInt32
  state : State V
  deriving DecidableEq

inductive Panic where
  /-- `expect("SlotMap is full")` -/
  | full
  /-- `expect("invalid SlotMap key used")` -/
  | invalidKey
  /-- The subtraction from `len` underflows. -/
  | underflow
  /-- An index outside the vector. -/
  | outOfBounds
  /-- A destructor of a value panics. -/
  | destructor
  deriving DecidableEq

end DoomFishUtils.SlotMap

namespace DoomFishUtils

set_option autoImplicit false

/-- The source's map; `slots` is its vector. -/
structure SlotMap (V : Type) where
  slots : List (SlotMap.Slot V)
  freeHead : UInt32
  len : ℕ
  deriving DecidableEq

namespace SlotMap

variable {V : Type}

/-- The capacity only reserves memory. -/
def withCapacity (_capacity : ℕ) : SlotMap V where
  slots := [⟨0, .vacant 0⟩]
  freeHead := 1
  len := 0

def isEmpty (map : SlotMap V) : Bool :=
  map.len == 0

/-- `u32::try_from` of an index, when it is below `u32::MAX`. -/
def pushIndex (length : ℕ) : Option UInt32 :=
  if length < 2 ^ 32 - 1 then some (UInt32.ofNat length) else none

/-- Panicking as full leaves the increment of `len` behind. -/
def insert (map : SlotMap V) (value : V) : Except Panic KeyData × SlotMap V :=
  let map := { map with len := map.len + 1 }
  match map.slots[map.freeHead.toNat]? with
  | some slot =>
    let index := map.freeHead
    let version := slot.version ||| 1
    let freeHead := match slot.state with
      | .vacant nextFree => nextFree
      | .occupied _ => map.freeHead
    (.ok (KeyData.new index version),
      { map with
        slots := map.slots.set index.toNat ⟨version, .occupied value⟩
        freeHead := freeHead })
  | none =>
    match pushIndex map.slots.length with
    | none => (.error .full, map)
    | some index =>
      (.ok (KeyData.new index 1),
        { map with
          slots := map.slots ++ [⟨1, .occupied value⟩]
          freeHead := index + 1 })

def remove (map : SlotMap V) (key : KeyData) : Except Panic (Option V) × SlotMap V :=
  match map.slots[key.idx.toNat]? with
  | none => (.ok none, map)
  | some slot =>
    if slot.version ≠ key.version then (.ok none, map)
    else
      let map := { map with
        slots := map.slots.set key.idx.toNat ⟨slot.version + 1, .vacant map.freeHead⟩
        freeHead := key.idx }
      if map.len = 0 then (.error .underflow, map)
      else
        let map := { map with len := map.len - 1 }
        match slot.state with
        | .occupied value => (.ok (some value), map)
        | .vacant _ => (.ok none, map)

/-- The loop of `clear` over the indices left.  Storing into a slot drops its value, and a
destructor that panics stops the loop there. -/
def clearLoop (dropPanics : V → Bool) : List ℕ → SlotMap V → Except Panic Unit × SlotMap V
  | [], map => (.ok (), map)
  | index :: indices, map =>
    match map.slots[index]? with
    | none => (.error .outOfBounds, map)
    | some ⟨_, .vacant _⟩ => clearLoop dropPanics indices map
    | some ⟨version, .occupied value⟩ =>
      let map := { map with
        slots := map.slots.set index ⟨version + 1, .vacant map.freeHead⟩ }
      if dropPanics value then (.error .destructor, map)
      else
        let freeHead := if index < 2 ^ 32 then UInt32.ofNat index else 0xffffffff
        clearLoop dropPanics indices { map with freeHead := freeHead }

def clear (dropPanics : V → Bool) (map : SlotMap V) : Except Panic Unit × SlotMap V :=
  match clearLoop dropPanics (List.range' 1 (map.slots.length - 1)) map with
  | (.ok _, map) => (.ok (), { map with len := 0 })
  | (.error panic, map) => (.error panic, map)

/-- The value that a slot gives to a key of its version. -/
def Slot.valueFor (version : UInt32) : Slot V → Option V
  | ⟨slotVersion, .occupied value⟩ => if slotVersion = version then some value else none
  | ⟨_, .vacant _⟩ => none

def get (map : SlotMap V) (key : KeyData) : Option V :=
  map.slots[key.idx.toNat]?.bind (Slot.valueFor key.version)

/-- `get_mut`, with what its caller writes through the reference. -/
def getMut (map : SlotMap V) (key : KeyData) (write : V → V) : Option V × SlotMap V :=
  match map.slots[key.idx.toNat]? with
  | none => (none, map)
  | some slot =>
    match slot.valueFor key.version with
    | none => (none, map)
    | some value =>
      (some value,
        { map with slots := map.slots.set key.idx.toNat ⟨slot.version, .occupied (write value)⟩ })

/-- `KeyData` of an occupied slot, when its index is a `u32`. -/
def Slot.key (slot : Slot V) (index : ℕ) : Option KeyData :=
  match slot.state with
  | .occupied _ =>
    if index < 2 ^ 32 then some (KeyData.new (UInt32.ofNat index) slot.version) else none
  | .vacant _ => none

def Slot.value (slot : Slot V) : Option V :=
  match slot.state with
  | .occupied value => some value
  | .vacant _ => none

def keys (map : SlotMap V) : List KeyData :=
  map.slots.zipIdx.filterMap fun (slot, index) => slot.key index

def values (map : SlotMap V) : List V :=
  map.slots.filterMap Slot.value

/-- What a caller of `values_mut` writes into the slot at an index. -/
def Slot.write (write : ℕ → V → V) (index : ℕ) (slot : Slot V) : Slot V :=
  match slot.state with
  | .occupied value => ⟨slot.version, .occupied (write index value)⟩
  | .vacant _ => slot

/-- `values_mut`, whose caller may write any value over each. -/
def valuesMut (map : SlotMap V) (write : ℕ → V → V) : List V × SlotMap V :=
  (map.values, { map with slots := map.slots.mapIdx (Slot.write write) })

def index (map : SlotMap V) (key : KeyData) : Except Panic V :=
  match map.get key with
  | some value => .ok value
  | none => .error .invalidKey

/-- `index_mut`, with what its caller writes through the reference. -/
def indexMut (map : SlotMap V) (key : KeyData) (write : V → V) : Except Panic V × SlotMap V :=
  match map.getMut key write with
  | (some value, map) => (.ok value, map)
  | (none, map) => (.error .invalidKey, map)

/-! ### Sequences of operations -/

inductive Op (V : Type) where
  | insert (value : V)
  | remove (key : KeyData)
  | clear
  | get (key : KeyData)
  | getMut (key : KeyData) (write : V → V)
  | valuesMut (write : ℕ → V → V)
  | index (key : KeyData)
  | indexMut (key : KeyData) (write : V → V)

inductive Response (V : Type) where
  | key (key : KeyData)
  | value (value : Option V)
  | values (values : List V)
  | unit

/-- What an operation returns, unless it panics, and the map it leaves. -/
def apply (dropPanics : V → Bool) (map : SlotMap V) :
    Op V → Except Panic (Response V) × SlotMap V
  | .insert value => ((map.insert value).1.map .key, (map.insert value).2)
  | .remove key => ((map.remove key).1.map .value, (map.remove key).2)
  | .clear => ((map.clear dropPanics).1.map fun _ => .unit, (map.clear dropPanics).2)
  | .get key => (.ok (.value (map.get key)), map)
  | .getMut key write => (.ok (.value (map.getMut key write).1), (map.getMut key write).2)
  | .valuesMut write => (.ok (.values (map.valuesMut write).1), (map.valuesMut write).2)
  | .index key => ((map.index key).map fun value => .value (some value), map)
  | .indexMut key write =>
    ((map.indexMut key write).1.map fun value => .value (some value), (map.indexMut key write).2)

/-- The map as a system whose labels are the operations with their outcomes. -/
def slotMapSystem (dropPanics : V → Bool) (capacity : ℕ) :
    Library.System (SlotMap V) (Op V × Except Panic (Response V)) where
  init map := map = withCapacity capacity
  step map label map' := map.apply dropPanics label.1 = (label.2, map')

end SlotMap

end DoomFishUtils
