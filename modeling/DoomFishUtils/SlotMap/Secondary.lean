import DoomFishUtils.SlotMap.Lookup

/-!
# The secondary map

The source's `SecondaryMap` over its vector of optional entries.  What a key finds depends on the
entry in the slot of the key alone, so each operation is described by the entries it leaves.
-/

namespace DoomFishUtils

set_option autoImplicit false

open SlotMap (KeyData Panic)

structure SecondaryMap.Entry (V : Type) where
  version : UInt32
  value : V
  deriving DecidableEq

/-- `slots` is the source's vector. -/
structure SecondaryMap (V : Type) where
  slots : List (Option (SecondaryMap.Entry V))
  deriving DecidableEq

namespace SecondaryMap

variable {V : Type}

/-- The capacity only reserves memory. -/
def withCapacity (_capacity : ℕ) : SecondaryMap V where
  slots := []

/-- `resize_with` of the vector to a greater length. -/
def resize (map : SecondaryMap V) (length : ℕ) : SecondaryMap V where
  slots := map.slots ++ List.replicate (length - map.slots.length) none

/-- The assignment to a slot. -/
def store (map : SecondaryMap V) (index : ℕ) (slot : Option (Entry V)) : SecondaryMap V where
  slots := map.slots.set index slot

def insert (map : SecondaryMap V) (key : KeyData) (value : V) :
    Except Panic (Option V) × SecondaryMap V :=
  if key.isNull then (.ok none, map)
  else
    let index := key.idx.toNat
    let map := if map.slots.length ≤ index then map.resize (index + 1) else map
    match map.slots[index]? with
    | none => (.error .outOfBounds, map)
    | some none => (.ok none, map.store index (some ⟨key.version, value⟩))
    | some (some entry) =>
      if entry.version = key.version then
        (.ok (some entry.value), map.store index (some { entry with value := value }))
      else if 2 ^ 31 ≤ (key.version - entry.version).toNat then (.ok none, map)
      else (.ok none, map.store index (some ⟨key.version, value⟩))

def remove (map : SecondaryMap V) (key : KeyData) : Option V × SecondaryMap V :=
  match map.slots[key.idx.toNat]? with
  | some (some entry) =>
    if entry.version ≠ key.version then (none, map)
    else (some entry.value, map.store key.idx.toNat none)
  | _ => (none, map)

def get (map : SecondaryMap V) (key : KeyData) : Option V :=
  match map.slots[key.idx.toNat]? with
  | some (some entry) => if entry.version = key.version then some entry.value else none
  | _ => none

/-- `get_mut`, with what its caller writes through the reference. -/
def getMut (map : SecondaryMap V) (key : KeyData) (write : V → V) : Option V × SecondaryMap V :=
  match map.slots[key.idx.toNat]? with
  | some (some entry) =>
    if entry.version = key.version then
      (some entry.value, map.store key.idx.toNat (some { entry with value := write entry.value }))
    else (none, map)
  | _ => (none, map)

/-! ### The entries -/

/-- The entry in the slot of an index, if there is one. -/
def entryAt (map : SecondaryMap V) (idx : UInt32) : Option (Entry V) :=
  map.slots[idx.toNat]?.join

variable {map : SecondaryMap V} {key : KeyData} {value : V} {idx : UInt32} {entry : Entry V}

lemma entryAt_eq_some : map.entryAt idx = some entry ↔ map.slots[idx.toNat]? = some (some entry) := by
  unfold entryAt
  exact Option.join_eq_some_iff

lemma entryAt_resize (length : ℕ) : (map.resize length).entryAt idx = map.entryAt idx := by
  unfold entryAt resize
  rcases Nat.lt_or_ge idx.toNat map.slots.length with hlt | hge
  · rw [List.getElem?_append_left hlt]
  · rw [List.getElem?_append_right hge, List.getElem?_eq_none hge, List.getElem?_replicate]
    split_ifs <;> rfl

lemma entryAt_store {slot : Option (Entry V)} (hlt : key.idx.toNat < map.slots.length) :
    (map.store key.idx.toNat slot).entryAt idx =
      if idx = key.idx then slot else map.entryAt idx := by
  unfold entryAt store
  rw [List.getElem?_set]
  by_cases hidx : idx = key.idx
  · rcases hidx with rfl
    rw [if_pos rfl, if_pos hlt, if_pos rfl]
    rfl
  · rw [if_neg fun heq => hidx (UInt32.toNat_inj.mp heq).symm, if_neg hidx]

/-- A key finds the value of the entry with its version. -/
lemma get_eq_some : map.get key = some value ↔ map.entryAt key.idx = some ⟨key.version, value⟩ := by
  unfold get entryAt
  rcases map.slots[key.idx.toNat]? with _ | _ | ⟨version, value'⟩
  · simp
  · simp
  · simp

/-- A key finds nothing where the entry of its slot has another version. -/
lemma get_eq_none (h : ∀ entry, map.entryAt key.idx = some entry → entry.version ≠ key.version) :
    map.get key = none := by
  refine Option.eq_none_iff_forall_ne_some.mpr fun value hget => ?_
  exact h _ (get_eq_some.mp hget) rfl

/-- Keys that both find a value belong to different slots. -/
lemma idx_ne_of_get {other : KeyData} {value' : V} (hkey : map.get key = some value)
    (hother : map.get other = some value') (hne : key ≠ other) : key.idx ≠ other.idx := by
  intro hidx
  rw [get_eq_some] at hkey hother
  rw [← hidx, hkey, Option.some.injEq, Entry.mk.injEq] at hother
  exact hne (KeyData.ext hidx hother.1)

lemma get_congr {map' : SecondaryMap V} (h : map'.entryAt key.idx = map.entryAt key.idx) :
    map'.get key = map.get key :=
  Option.ext fun value => by rw [get_eq_some, get_eq_some, h]

/-! ### The operations -/

lemma insert_of_null (hnull : key.isNull = true) (value : V) :
    map.insert key value = (.ok none, map) :=
  if_pos hnull

lemma lt_length_of_entryAt (h : map.entryAt idx = some entry) : idx.toNat < map.slots.length :=
  (List.getElem?_eq_some_iff.mp (entryAt_eq_some.mp h)).1

/-- An insert is refused where the wrapped distance to the stored version is half the range. -/
lemma insert_of_far (hentry : map.entryAt key.idx = some entry)
    (hfar : 2 ^ 31 ≤ (key.version - entry.version).toNat) (value : V) :
    map.insert key value = (.ok none, map) := by
  have hlt := lt_length_of_entryAt hentry
  have hne : entry.version ≠ key.version := by
    rintro hsame
    rw [hsame, UInt32.sub_self] at hfar
    exact absurd hfar (by decide)
  unfold insert
  dsimp only
  split_ifs with hnull hshort
  · rfl
  · omega
  · rw [entryAt_eq_some.mp hentry]
    dsimp only
    rw [if_neg hne, if_pos hfar]

/-- An insert elsewhere stores its value and leaves the other slots. -/
lemma insert_of_near (hnull : key.isNull = false)
    (hnear : ∀ entry, map.entryAt key.idx = some entry →
      (key.version - entry.version).toNat < 2 ^ 31) (value : V) :
    (map.insert key value).1 = .ok (map.get key) ∧
      ∀ idx, (map.insert key value).2.entryAt idx =
        if idx = key.idx then some ⟨key.version, value⟩ else map.entryAt idx := by
  have hgrown : ∃ grown : SecondaryMap V,
      (if map.slots.length ≤ key.idx.toNat then map.resize (key.idx.toNat + 1) else map) = grown ∧
        key.idx.toNat < grown.slots.length ∧ ∀ idx, grown.entryAt idx = map.entryAt idx := by
    split_ifs with hshort
    · refine ⟨_, rfl, ?_, fun idx => entryAt_resize _⟩
      simp only [resize, List.length_append, List.length_replicate]
      omega
    · exact ⟨map, rfl, Nat.not_le.mp hshort, fun _ => rfl⟩
  rcases hgrown with ⟨grown, hgrow, hlt, hsame⟩
  rw [← get_congr (hsame key.idx)]
  simp only [← hsame] at hnear ⊢
  unfold insert get
  rw [hnull, if_neg Bool.false_ne_true]
  dsimp only
  rw [hgrow]
  rcases hslot : grown.slots[key.idx.toNat]? with _ | _ | entry
  · exact absurd (List.getElem?_eq_none_iff.mp hslot) (Nat.not_le.mpr hlt)
  · exact ⟨rfl, fun idx => entryAt_store hlt⟩
  · have hclose := hnear entry (entryAt_eq_some.mpr hslot)
    dsimp only
    split_ifs with hversion hfar
    · refine ⟨rfl, fun idx => ?_⟩
      rw [entryAt_store hlt, ← hversion]
    · omega
    · exact ⟨rfl, fun idx => entryAt_store hlt⟩

/-- An insert is ignored, for a null key or one that is behind, or it stores its value. -/
lemma insert_cases (map : SecondaryMap V) (key : KeyData) (value : V) :
    ((key.isNull = true ∨ ∃ entry, map.entryAt key.idx = some entry ∧
        2 ^ 31 ≤ (key.version - entry.version).toNat) ∧
      map.insert key value = (.ok none, map)) ∨
    (key.isNull = false ∧
      (∀ entry, map.entryAt key.idx = some entry → (key.version - entry.version).toNat < 2 ^ 31) ∧
      (map.insert key value).1 = .ok (map.get key) ∧
      ∀ idx, (map.insert key value).2.entryAt idx =
        if idx = key.idx then some ⟨key.version, value⟩ else map.entryAt idx) := by
  rcases hnull : key.isNull with _ | _
  · by_cases hfar : ∃ entry, map.entryAt key.idx = some entry ∧
        2 ^ 31 ≤ (key.version - entry.version).toNat
    · rcases hfar with ⟨entry, hentry, hfar⟩
      exact .inl ⟨.inr ⟨entry, hentry, hfar⟩, insert_of_far hentry hfar value⟩
    · have hnear : ∀ entry, map.entryAt key.idx = some entry →
          (key.version - entry.version).toNat < 2 ^ 31 :=
        fun entry hentry => Nat.not_le.mp fun hle => hfar ⟨entry, hentry, hle⟩
      exact .inr ⟨rfl, hnear, insert_of_near hnull hnear value⟩
  · exact .inl ⟨.inl rfl, insert_of_null hnull value⟩

/-- A key that finds nothing removes nothing. -/
lemma remove_of_get_none (hnone : map.get key = none) : map.remove key = (none, map) := by
  unfold get at hnone
  unfold remove
  rcases hslot : map.slots[key.idx.toNat]? with _ | _ | entry
  · rfl
  · rfl
  · rw [hslot] at hnone
    dsimp only at hnone ⊢
    split_ifs at hnone with hversion
    exact if_pos hversion

lemma remove_of_get (hget : map.get key = some value) :
    (map.remove key).1 = some value ∧
      ∀ idx, (map.remove key).2.entryAt idx = if idx = key.idx then none else map.entryAt idx := by
  have hentry := get_eq_some.mp hget
  have hlt := lt_length_of_entryAt hentry
  unfold remove
  rw [entryAt_eq_some.mp hentry]
  dsimp only
  rw [if_neg (not_not_intro rfl)]
  exact ⟨rfl, fun idx => entryAt_store hlt⟩

lemma getMut_of_get_none (hnone : map.get key = none) (write : V → V) :
    map.getMut key write = (none, map) := by
  unfold get at hnone
  unfold getMut
  rcases hslot : map.slots[key.idx.toNat]? with _ | _ | entry
  · rfl
  · rfl
  · rw [hslot] at hnone
    dsimp only at hnone ⊢
    split_ifs at hnone with hversion
    exact if_neg hversion

lemma getMut_of_get (hget : map.get key = some value) (write : V → V) :
    (map.getMut key write).1 = some value ∧
      ∀ idx, (map.getMut key write).2.entryAt idx =
        if idx = key.idx then some ⟨key.version, write value⟩ else map.entryAt idx := by
  have hentry := get_eq_some.mp hget
  have hlt := lt_length_of_entryAt hentry
  unfold getMut
  rw [entryAt_eq_some.mp hentry]
  dsimp only
  rw [if_pos rfl]
  exact ⟨rfl, fun idx => entryAt_store hlt⟩

end SecondaryMap

end DoomFishUtils
