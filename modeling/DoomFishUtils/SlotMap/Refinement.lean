import DoomFishUtils.SlotMap.Lookup
import Mathlib.Data.Finmap
import Mathlib.Data.List.Nodup

/-!
# The slot map refines a finite map

`MapStep` says what each operation means for a finite map from keys to values.  Every step of
the slot map that neither panics as full nor unwinds from a destructor is such a step, and
between steps the slot map's length and listings are those of the finite map.
-/

namespace DoomFishUtils.SlotMap

set_option autoImplicit false

variable {V : Type}

/-- Finite maps from keys to values. -/
abbrev KeyMap (V : Type) :=
  Finmap fun _ : KeyData => V

/-- The meaning of the operations on a finite map. -/
inductive MapStep : KeyMap V → Op V × Except Panic (Response V) → KeyMap V → Prop where
  | insert {M : KeyMap V} {key : KeyData} {value : V} (h : key ∉ M) :
      MapStep M (.insert value, .ok (.key key)) (M.insert key value)
  | remove {M : KeyMap V} {key : KeyData} :
      MapStep M (.remove key, .ok (.value (M.lookup key))) (M.erase key)
  | clear {M : KeyMap V} : MapStep M (.clear, .ok .unit) ∅
  | get {M : KeyMap V} {key : KeyData} :
      MapStep M (.get key, .ok (.value (M.lookup key))) M
  | getMut {M : KeyMap V} {key : KeyData} {write : V → V} {value : V}
      (h : M.lookup key = some value) :
      MapStep M (.getMut key write, .ok (.value (some value))) (M.insert key (write value))
  | getMut_missing {M : KeyMap V} {key : KeyData} {write : V → V} (h : key ∉ M) :
      MapStep M (.getMut key write, .ok (.value none)) M
  | valuesMut {M M' : KeyMap V} {write : ℕ → V → V} {keys : List KeyData} {values : List V}
      (hnodup : keys.Nodup) (hkeys : ∀ key, key ∈ keys ↔ key ∈ M)
      (hvalues : keys.map M.lookup = values.map some)
      (h : ∀ key, M'.lookup key = (M.lookup key).map (write key.idx.toNat)) :
      MapStep M (.valuesMut write, .ok (.values values)) M'
  | index {M : KeyMap V} {key : KeyData} {value : V} (h : M.lookup key = some value) :
      MapStep M (.index key, .ok (.value (some value))) M
  | index_missing {M : KeyMap V} {key : KeyData} (h : key ∉ M) :
      MapStep M (.index key, .error .invalidKey) M
  | indexMut {M : KeyMap V} {key : KeyData} {write : V → V} {value : V}
      (h : M.lookup key = some value) :
      MapStep M (.indexMut key write, .ok (.value (some value))) (M.insert key (write value))
  | indexMut_missing {M : KeyMap V} {key : KeyData} {write : V → V} (h : key ∉ M) :
      MapStep M (.indexMut key write, .error .invalidKey) M

/-- The finite map as a system with the same labels. -/
def mapSystem (V : Type) : Library.System (KeyMap V) (Op V × Except Panic (Response V)) where
  init M := M = ∅
  step := MapStep

/-- What can be observed of a slot map agrees with a finite map. -/
structure Represents (map : SlotMap V) (M : KeyMap V) : Prop where
  get : ∀ key, map.get key = M.lookup key
  len : map.len = M.keys.card
  keys_nodup : map.keys.Nodup
  mem_keys : ∀ key, key ∈ map.keys ↔ key ∈ M
  values : map.keys.map M.lookup = map.values.map some
  sentinel : ∀ key ∈ M, key.idx ≠ 0
  occupied : ∀ key ∈ M, ∃ value,
    map.slots[key.idx.toNat]? = some ⟨key.version, .occupied value⟩

section Listings

variable {map : SlotMap V}

lemma key_eq_some {slot : Slot V} {index : ℕ} {key : KeyData} (hindex : index < 2 ^ 32)
    (hodd : slot.version.toNat % 2 = 1) :
    slot.key index = some key ↔ key.idx.toNat = index ∧ key.version = slot.version ∧
      ∃ value, slot.state = .occupied value := by
  have hnat : (UInt32.ofNat index).toNat = index := UInt32.toNat_ofNat_of_lt' hindex
  have hversion := KeyData.new_version_of_odd (UInt32.ofNat index) hodd
  rcases slot with ⟨version, value | next⟩
  · unfold Slot.key
    dsimp only at hversion ⊢
    rw [if_pos hindex, Option.some.injEq]
    constructor
    · rintro rfl
      exact ⟨hnat, hversion, value, rfl⟩
    · rintro ⟨hidx, hkey, -⟩
      exact KeyData.ext (UInt32.toNat_inj.mp (hnat.trans hidx.symm)) (hversion.trans hkey.symm)
  · simp [Slot.key]

lemma Chained.key_eq_some (h : Chained map.slots map.freeHead) {slot : Slot V} {index : ℕ}
    (hslot : map.slots[index]? = some slot) {key : KeyData} :
    slot.key index = some key ↔ key.idx.toNat = index ∧ key.version = slot.version ∧
      ∃ value, slot.state = .occupied value := by
  have hindex : index < 2 ^ 32 := (lt_length_of_getElem?_eq_some hslot).trans h.length_lt
  rcases slot with ⟨version, value | next⟩
  · exact SlotMap.key_eq_some hindex (h.parity hslot)
  · simp [Slot.key]

/-- `keys` lists the keys of the occupied slots. -/
lemma mem_keys (h : Chained map.slots map.freeHead) {key : KeyData} :
    key ∈ map.keys ↔
      ∃ value, map.slots[key.idx.toNat]? = some ⟨key.version, .occupied value⟩ := by
  unfold keys
  rw [List.mem_filterMap]
  constructor
  · rintro ⟨⟨slot, index⟩, hmem, hkey⟩
    have hslot := List.mem_zipIdx_iff_getElem?.mp hmem
    rcases (h.key_eq_some hslot).mp hkey with ⟨rfl, hversion, value, hstate⟩
    refine ⟨value, hslot.trans ?_⟩
    rw [hversion, ← hstate]
  · rintro ⟨value, hslot⟩
    exact ⟨(⟨key.version, .occupied value⟩, key.idx.toNat),
      List.mem_zipIdx_iff_getElem?.mpr hslot, (h.key_eq_some hslot).mpr ⟨rfl, rfl, value, rfl⟩⟩

lemma keys_nodup (h : Chained map.slots map.freeHead) : map.keys.Nodup := by
  have hindices : map.slots.zipIdx.Pairwise fun first second =>
      first ∈ map.slots.zipIdx ∧ second ∈ map.slots.zipIdx ∧ first.2 ≠ second.2 := by
    apply List.Pairwise.and_mem.mp
    have hrange : (map.slots.zipIdx.map Prod.snd).Nodup := by
      rw [List.zipIdx_map_snd]
      exact List.nodup_range'
    exact (List.pairwise_map.mp hrange).imp fun hne => hne
  apply List.Pairwise.filterMap _ _ hindices
  rintro ⟨slot, index⟩ ⟨slot', index'⟩ ⟨hmem, hmem', hne⟩ key hkey key' hkey' rfl
  have hfirst := (h.key_eq_some (List.mem_zipIdx_iff_getElem?.mp hmem)).mp hkey
  have hsecond := (h.key_eq_some (List.mem_zipIdx_iff_getElem?.mp hmem')).mp hkey'
  exact hne (hfirst.1.symm.trans hsecond.1)

/-- `values` lists what a lookup finds under the keys, in the same order. -/
lemma map_listed (lookup : KeyData → Option V) : ∀ (slots : List (Slot V)) (start : ℕ),
    start + slots.length ≤ 2 ^ 32 →
    (∀ (i : ℕ) (slot : Slot V), slots[i]? = some slot → ∀ key, slot.key (start + i) = some key →
      lookup key = slot.value) →
    ((slots.zipIdx start).filterMap fun (slot, index) => slot.key index).map lookup =
      (slots.filterMap Slot.value).map some
  | [], _, _, _ => rfl
  | slot :: slots, start, hlength, h => by
    rw [List.length_cons] at hlength
    have hrest := map_listed lookup slots (start + 1) (by omega) fun i slot' hslot key hkey =>
      h (i + 1) slot' (by rw [List.getElem?_cons_succ]; exact hslot) key
        (by rw [Nat.add_comm i 1, ← Nat.add_assoc]; exact hkey)
    have hhead := h 0 slot rfl
    rw [List.zipIdx_cons, List.filterMap_cons, List.filterMap_cons]
    rcases slot with ⟨version, value | next⟩
    · have hkey : Slot.key ⟨version, .occupied value⟩ start =
          some (KeyData.new (UInt32.ofNat start) version) := if_pos (by omega)
      have hlookup := hhead _ hkey
      dsimp only
      rw [hkey]
      simp only [List.map_cons, hlookup, hrest, Slot.value]
    · exact hrest

end Listings

section Simulation

variable {map : SlotMap V} {M : KeyMap V}

/-- Between operations the invariant makes equal lookups enough. -/
theorem represents_of_get (h : Inv map) (hget : ∀ key, map.get key = M.lookup key) :
    Represents map M := by
  have hmem : ∀ key, key ∈ map.keys ↔ key ∈ M := by
    intro key
    rw [mem_keys h.linked.chained, Finmap.mem_iff]
    simp only [← hget, get_eq_some]
  have hvalues : map.keys.map M.lookup = map.values.map some := by
    apply map_listed M.lookup map.slots 0 (by rw [Nat.zero_add]; exact h.linked.length_lt.le)
    intro i slot hslot key hkey
    rw [Nat.zero_add] at hkey
    rcases (h.linked.chained.key_eq_some hslot).mp hkey with ⟨rfl, hversion, value, hstate⟩
    rw [← hget]
    unfold Slot.value
    rw [hstate]
    apply get_eq_some.mpr
    rw [hslot, hversion, ← hstate]
  have hnodup := keys_nodup h.linked.chained
  have hoccupied : ∀ key ∈ M, ∃ value,
      map.slots[key.idx.toNat]? = some ⟨key.version, .occupied value⟩ :=
    fun key hkey => (mem_keys h.linked.chained).mp ((hmem key).mpr hkey)
  refine ⟨hget, ?_, hnodup, hmem, hvalues, fun key hkey hzero => ?_, hoccupied⟩
  · have hkeys : M.keys = map.keys.toFinset := by
      ext key
      rw [Finmap.mem_keys, List.mem_toFinset, hmem]
    have hlength := congrArg List.length hvalues
    rw [List.length_map, List.length_map] at hlength
    rw [hkeys, List.toFinset_card_of_nodup hnodup, hlength, h.len_eq]
  · rcases hoccupied key hkey with ⟨value, hslot⟩
    have hpos := h.linked.pos_of_occupied hslot
    rw [hzero] at hpos
    exact absurd hpos (by decide)

lemma dlookup_filterMap (lookup : KeyData → Option V) (key : KeyData) (keys : List KeyData) :
    (keys.filterMap fun k => (lookup k).map fun value =>
      (⟨k, value⟩ : (_ : KeyData) × V)).dlookup key =
      if key ∈ keys then lookup key else none := by
  induction keys with
  | nil => rfl
  | cons k keys ih =>
    rw [List.filterMap_cons]
    cases hvalue : lookup k with
    | none =>
      simp only [Option.map_none, ih, List.mem_cons]
      by_cases hk : key = k
      · rcases hk with rfl
        simp [hvalue]
      · simp [hk]
    | some value =>
      simp only [Option.map_some]
      by_cases hk : key = k
      · rcases hk with rfl
        rw [List.dlookup_cons_eq, if_pos List.mem_cons_self, hvalue]
      · rw [List.dlookup_cons_ne _ (⟨k, value⟩ : (_ : KeyData) × V) hk, ih]
        simp [hk]

/-- Every slot map has a finite map with the same lookups. -/
lemma exists_keyMap (h : Inv map) : ∃ M : KeyMap V, ∀ key, map.get key = M.lookup key := by
  refine ⟨(map.keys.filterMap fun k => (map.get k).map fun value => ⟨k, value⟩).toFinmap,
    fun key => ?_⟩
  rw [Finmap.dlookup_list_toFinmap, dlookup_filterMap]
  split_ifs with hmem
  · rfl
  · cases hkey : map.get key with
    | none => rfl
    | some value => exact absurd ((mem_keys h.linked.chained).mpr ⟨value, get_eq_some.mp hkey⟩) hmem

/-- `index_mut` is `get_mut` with a panic in place of `None`. -/
lemma indexMut_eq (key : KeyData) (write : V → V) :
    map.indexMut key write =
      (match (map.getMut key write).1 with
        | some value => .ok value
        | none => .error .invalidKey, (map.getMut key write).2) := by
  unfold indexMut
  generalize map.getMut key write = result
  rcases result with ⟨value | _, map'⟩ <;> rfl

lemma inv_withCapacity (capacity : ℕ) : Inv (withCapacity capacity : SlotMap V) := by
  refine ⟨⟨rfl, ?_, ?_, Nat.one_lt_two_pow (by decide), [], .done, List.nodup_nil, ?_⟩, rfl⟩
  · intro i version value hi
    rcases i with _ | i <;> simp [withCapacity] at hi
  · intro i version next hi
    rcases i with _ | i
    · simp only [withCapacity, List.getElem?_cons_zero, Option.some.injEq, Slot.mk.injEq] at hi
      rw [← hi.1]
      rfl
    · simp [withCapacity] at hi
  · intro i
    simp only [List.not_mem_nil, false_iff, not_and]
    rintro hi ⟨version, next, hslot⟩
    rcases i with _ | i
    · exact absurd hi (by decide)
    · simp [withCapacity] at hslot

/-- The outcomes that leave an operation half done: `insert` panicking as full and a destructor
panicking. -/
def UnwindsMidway (label : Op V × Except Panic (Response V)) : Prop :=
  label.2 = .error .full ∨ label.2 = .error .destructor

lemma lookup_insert_eq (M : KeyMap V) (key k : KeyData) (value : V) :
    (M.insert key value).lookup k = if k = key then some value else M.lookup k := by
  split_ifs with hk
  · rw [hk, Finmap.lookup_insert]
  · rw [Finmap.lookup_insert_of_ne _ hk]

lemma lookup_erase_eq (M : KeyMap V) (key k : KeyData) :
    (M.erase key).lookup k = if k = key then none else M.lookup k := by
  split_ifs with hk
  · rw [hk, Finmap.lookup_erase]
  · rw [Finmap.lookup_erase_ne hk]

/-- A write through `get_mut` or `index_mut` replaces one value. -/
lemma getMut_spec (h : Inv map) (key : KeyData) (write : V → V) :
    (map.getMut key write).1 = map.get key ∧ Inv (map.getMut key write).2 ∧
      ∀ k, (map.getMut key write).2.get k =
        if k = key then (map.get key).map write else map.get k := by
  rw [getMut_eq]
  cases hkey : map.get key with
  | none =>
    refine ⟨rfl, h, fun k => ?_⟩
    split_ifs with hk
    · rw [hk]
      exact hkey
    · rfl
  | some value =>
    refine ⟨rfl, inv_write h _, fun k => ?_⟩
    dsimp only
    rw [get_write]
    split_ifs with hidx hk hk
    · rw [hk, hkey]
    · have hnone := get_eq_none_of_ne hkey (UInt32.toNat_inj.mp hidx) hk
      rw [hnone]
      rfl
    · exact absurd (by rw [hk]) hidx
    · cases map.get k <;> rfl

/-- Where the key is missing, the map of the slots is left as it is. -/
lemma getMut_of_missing (h : Inv map) (hget : ∀ key, map.get key = M.lookup key) {key : KeyData}
    (hkey : map.get key = none) (write : V → V) :
    key ∉ M ∧ (map.getMut key write).1 = none ∧ Inv (map.getMut key write).2 ∧
      ∀ k, (map.getMut key write).2.get k = M.lookup k := by
  rcases getMut_spec h key write with ⟨hresult, hinv, hlookup⟩
  refine ⟨by rw [← Finmap.lookup_eq_none, ← hget, hkey], hresult.trans hkey, hinv, fun k => ?_⟩
  rw [hlookup, hkey]
  split_ifs with hk
  · rw [hk, ← hget, hkey]
    rfl
  · exact hget k

/-- Where it is there, its value is replaced. -/
lemma getMut_of_found (h : Inv map) (hget : ∀ key, map.get key = M.lookup key) {key : KeyData}
    {value : V} (hkey : map.get key = some value) (write : V → V) :
    M.lookup key = some value ∧ (map.getMut key write).1 = some value ∧
      Inv (map.getMut key write).2 ∧
      ∀ k, (map.getMut key write).2.get k = (M.insert key (write value)).lookup k := by
  rcases getMut_spec h key write with ⟨hresult, hinv, hlookup⟩
  refine ⟨by rw [← hget, hkey], hresult.trans hkey, hinv, fun k => ?_⟩
  rw [hlookup, hkey, lookup_insert_eq, hget]
  rfl

/-- One operation of the slot map is one step of the finite map. -/
theorem apply_simulates {dropPanics : V → Bool} (h : Inv map)
    (hget : ∀ key, map.get key = M.lookup key) {label : Op V × Except Panic (Response V)}
    {map' : SlotMap V} (hstep : map.apply dropPanics label.1 = (label.2, map'))
    (hno : ¬UnwindsMidway label) :
    ∃ M', MapStep M label M' ∧ Inv map' ∧ ∀ key, map'.get key = M'.lookup key := by
  rcases label with ⟨op, outcome⟩
  dsimp only at hstep
  cases op with
  | insert value =>
    rcases Prod.mk.inj hstep with ⟨houtcome, rfl⟩
    rcases insert_spec h value with hfull | ⟨key, hok, hinserted⟩
    · rw [hfull] at houtcome
      exact absurd (.inl houtcome.symm) hno
    · rw [hok] at houtcome
      rcases houtcome with rfl
      have hfresh : key ∉ M := by
        rw [← Finmap.lookup_eq_none, ← hget]
        exact hinserted.fresh
      refine ⟨M.insert key value, .insert hfresh, hinserted.inv, fun k => ?_⟩
      rw [hinserted.get, lookup_insert_eq, hget]
  | remove key =>
    rcases Prod.mk.inj hstep with ⟨houtcome, rfl⟩
    rcases remove_spec h key with ⟨hok, hremoved⟩
    rw [hok, hget] at houtcome
    rcases houtcome with rfl
    refine ⟨M.erase key, .remove, hremoved.inv, fun k => ?_⟩
    rw [hremoved.get, lookup_erase_eq, hget]
  | clear =>
    rcases Prod.mk.inj hstep with ⟨houtcome, rfl⟩
    rcases clear_spec h with hpanic | ⟨hok, hcleared⟩
    · rw [hpanic] at houtcome
      exact absurd (.inr houtcome.symm) hno
    · rw [hok] at houtcome
      rcases houtcome with rfl
      refine ⟨∅, .clear, hcleared.inv, fun k => ?_⟩
      rw [hcleared.get, Finmap.lookup_empty]
  | get key =>
    rcases Prod.mk.inj hstep with ⟨rfl, rfl⟩
    rw [hget]
    exact ⟨M, .get, h, hget⟩
  | getMut key write =>
    rcases Prod.mk.inj hstep with ⟨rfl, rfl⟩
    cases hkey : map.get key with
    | none =>
      rcases getMut_of_missing h hget hkey write with ⟨hmissing, hresult, hinv, hlookup⟩
      rw [hresult]
      exact ⟨M, .getMut_missing hmissing, hinv, hlookup⟩
    | some value =>
      rcases getMut_of_found h hget hkey write with ⟨hfound, hresult, hinv, hlookup⟩
      rw [hresult]
      exact ⟨M.insert key (write value), .getMut hfound, hinv, hlookup⟩
  | valuesMut write =>
    rcases Prod.mk.inj hstep with ⟨rfl, rfl⟩
    have hinv := inv_write h write
    have hrepresents := represents_of_get h hget
    rcases exists_keyMap hinv with ⟨M', hM'⟩
    refine ⟨M', .valuesMut hrepresents.keys_nodup hrepresents.mem_keys hrepresents.values ?_,
      hinv, hM'⟩
    intro key
    rw [← hM', get_write, hget]
  | index key =>
    rcases Prod.mk.inj hstep with ⟨rfl, rfl⟩
    unfold SlotMap.index
    cases hkey : map.get key with
    | none =>
      have hmissing : key ∉ M := by rw [← Finmap.lookup_eq_none, ← hget, hkey]
      exact ⟨M, .index_missing hmissing, h, hget⟩
    | some value => exact ⟨M, .index (by rw [← hget, hkey]), h, hget⟩
  | indexMut key write =>
    rw [apply, indexMut_eq] at hstep
    cases hkey : map.get key with
    | none =>
      rcases getMut_of_missing h hget hkey write with ⟨hmissing, hresult, hinv, hlookup⟩
      rw [hresult] at hstep
      rcases Prod.mk.inj hstep with ⟨rfl, rfl⟩
      exact ⟨M, .indexMut_missing hmissing, hinv, hlookup⟩
    | some value =>
      rcases getMut_of_found h hget hkey write with ⟨hfound, hresult, hinv, hlookup⟩
      rw [hresult] at hstep
      rcases Prod.mk.inj hstep with ⟨rfl, rfl⟩
      exact ⟨M.insert key (write value), .indexMut hfound, hinv, hlookup⟩

/-- Along every run from an empty map in which no operation unwinds, the outcomes are those of
a finite map, and the slot map represents it. -/
theorem slotMap_refines_finmap (dropPanics : V → Bool) (capacity : ℕ)
    {labels : List (Op V × Except Panic (Response V))} {map : SlotMap V}
    (hrun : (slotMapSystem dropPanics capacity).Run (withCapacity capacity) labels map)
    (hno : ∀ label ∈ labels, ¬UnwindsMidway label) :
    ∃ M, (mapSystem V).Run ∅ labels M ∧ Represents map M := by
  have hstart : Inv (withCapacity capacity : SlotMap V) ∧
      ∀ key, (withCapacity capacity : SlotMap V).get key = (∅ : KeyMap V).lookup key := by
    have h := inv_withCapacity (V := V) capacity
    refine ⟨h, fun key => ?_⟩
    rw [Finmap.lookup_empty]
    cases hkey : (withCapacity capacity : SlotMap V).get key with
    | none => rfl
    | some value =>
      have hmem := (mem_keys h.linked.chained).mpr ⟨value, get_eq_some.mp hkey⟩
      simp [keys, withCapacity, Slot.key] at hmem
  have hsimulate := hrun.simulate (N := mapSystem V)
    (fun map M => Inv map ∧ ∀ key, map.get key = M.lookup key) (fun label => ¬UnwindsMidway label)
    (fun map label map' M hlabel hrel hstep => apply_simulates hrel.1 hrel.2 hstep hlabel)
    hno hstart
  rcases hsimulate with ⟨M, hM, hinv, hget⟩
  exact ⟨M, hM, represents_of_get hinv hget⟩

/-- A value inserted and removed under its key, and then missed under the same key. -/
theorem slotMap_refines_finmap_removed :
    ∃ M, (mapSystem Bool).Run ∅
      [(.insert true, .ok (.key (KeyData.new 1 1))),
        (.remove (KeyData.new 1 1), .ok (.value (some true))),
        (.index (KeyData.new 1 1), .error .invalidKey)] M ∧
      Represents ⟨[⟨0, .vacant 0⟩, ⟨2, .vacant 2⟩], 1, 0⟩ M := by
  have hinsert : (slotMapSystem (fun _ : Bool => false) 0).step (withCapacity 0)
      (.insert true, .ok (.key (KeyData.new 1 1)))
      ⟨[⟨0, .vacant 0⟩, ⟨1, .occupied true⟩], 2, 1⟩ := rfl
  have hremove : (slotMapSystem (fun _ : Bool => false) 0).step
      ⟨[⟨0, .vacant 0⟩, ⟨1, .occupied true⟩], 2, 1⟩
      (.remove (KeyData.new 1 1), .ok (.value (some true)))
      ⟨[⟨0, .vacant 0⟩, ⟨2, .vacant 2⟩], 1, 0⟩ := rfl
  have hindex : (slotMapSystem (fun _ : Bool => false) 0).step
      ⟨[⟨0, .vacant 0⟩, ⟨2, .vacant 2⟩], 1, 0⟩
      (.index (KeyData.new 1 1), .error .invalidKey)
      ⟨[⟨0, .vacant 0⟩, ⟨2, .vacant 2⟩], 1, 0⟩ := rfl
  exact slotMap_refines_finmap (fun _ => false) 0
    (((Library.System.Run.nil.snoc hinsert).snoc hremove).snoc hindex) (by simp [UnwindsMidway])

end Simulation

end DoomFishUtils.SlotMap
