import DoomFishUtils.SlotMap.FreeList

/-!
# What each operation does to the lookups

An operation changes the value of at most the keys it is about.  The number of live values and
the listings of keys and values follow from the lookups.
-/

namespace DoomFishUtils.SlotMap

set_option autoImplicit false

variable {V : Type} {map : SlotMap V}

/-- The invariant between operations: `len` counts the occupied slots. -/
structure Inv (map : SlotMap V) : Prop where
  linked : Linked map.slots map.freeHead
  len_eq : map.len = map.values.length

lemma KeyData.ext {first second : KeyData} (hidx : first.idx = second.idx)
    (hversion : first.version = second.version) : first = second := by
  cases first
  cases second
  cases hidx
  cases hversion
  rfl

lemma KeyData.new_version_of_odd (idx : UInt32) {version : UInt32} (h : version.toNat % 2 = 1) :
    (KeyData.new idx version).version = version :=
  or_one_of_odd h

/-- A key finds a value exactly in an occupied slot of its version. -/
lemma get_eq_some {key : KeyData} {value : V} :
    map.get key = some value ↔ map.slots[key.idx.toNat]? = some ⟨key.version, .occupied value⟩ := by
  unfold get
  rcases map.slots[key.idx.toNat]? with _ | ⟨version, value' | next⟩
  · simp
  · simp [Slot.valueFor]
  · simp [Slot.valueFor]

lemma get_eq_none_of_vacant {key : KeyData} {version next : UInt32}
    (h : map.slots[key.idx.toNat]? = some ⟨version, .vacant next⟩) : map.get key = none := by
  unfold get
  rw [h]
  rfl

/-- The slots decide the lookups. -/
lemma get_congr {map' : SlotMap V} {key : KeyData}
    (h : map'.slots[key.idx.toNat]? = map.slots[key.idx.toNat]?) : map'.get key = map.get key := by
  unfold get
  rw [h]

section Insert

lemma length_filterMap_set {slots : List (Slot V)} {i : ℕ} {slot : Slot V} (slot' : Slot V)
    (hi : slots[i]? = some slot) :
    ((slots.set i slot').filterMap Slot.value).length + slot.value.toList.length =
      (slots.filterMap Slot.value).length + slot'.value.toList.length := by
  induction slots generalizing i with
  | nil => simp at hi
  | cons head slots ih =>
    cases i with
    | zero =>
      rw [List.getElem?_cons_zero, Option.some.injEq] at hi
      rcases hi with rfl
      rw [List.set_cons_zero]
      cases hold : head.value <;> cases hnew : slot'.value <;>
        simp [hold, hnew]
    | succ i =>
      rw [List.getElem?_cons_succ] at hi
      have hrest := ih hi
      rw [List.set_cons_succ]
      cases hvalue : head.value <;> simp only [List.filterMap_cons, hvalue, List.length_cons]
      · exact hrest
      · omega

/-- What `insert` does when it does not panic. -/
structure Inserted (map : SlotMap V) (value : V) (key : KeyData) (map' : SlotMap V) : Prop where
  fresh : map.get key = none
  get : ∀ k, map'.get k = if k = key then some value else map.get k
  inv : Inv map'

/-- The lookups after slot `i` has been set to hold a value under an odd version. -/
lemma get_of_store {map' : SlotMap V} {idx version : UInt32} {value : V}
    (hversion : version.toNat % 2 = 1)
    (hslots : ∀ j, map'.slots[j]? =
      if idx.toNat = j then some ⟨version, .occupied value⟩ else map.slots[j]?)
    (hnone : ∀ k : KeyData, k.idx = idx → map.get k = none) (k : KeyData) :
    map'.get k = if k = KeyData.new idx version then some value else map.get k := by
  have hnew := KeyData.new_version_of_odd idx hversion
  by_cases hidx : k.idx = idx
  · have hslot := hslots k.idx.toNat
    rw [hidx, if_pos rfl, ← hidx] at hslot
    rw [hnone k hidx]
    unfold SlotMap.get
    rw [hslot, Option.bind_some, Slot.valueFor]
    by_cases hk : k.version = version
    · rw [if_pos hk.symm, if_pos (KeyData.ext hidx (hk.trans hnew.symm))]
    · have hkey : k ≠ KeyData.new idx version := by
        rintro rfl
        exact hk hnew
      rw [if_neg (Ne.symm hk), if_neg hkey]
  · have hkey : k ≠ KeyData.new idx version := by
      rintro rfl
      exact hidx rfl
    rw [if_neg hkey]
    apply get_congr
    rw [hslots, if_neg fun h => hidx (UInt32.toNat_inj.mp h.symm)]

lemma inserted_fill (h : Inv map) {version next : UInt32}
    (hslot : map.slots[map.freeHead.toNat]? = some ⟨version, .vacant next⟩) (value : V) :
    Inserted map value (KeyData.new map.freeHead (version ||| 1))
      ⟨map.slots.set map.freeHead.toNat ⟨version ||| 1, .occupied value⟩, next, map.len + 1⟩ where
  fresh := get_eq_none_of_vacant hslot
  get := get_of_store (or_one_odd version) (getElem?_set_eq hslot _)
    fun k hk => get_eq_none_of_vacant (by rw [hk]; exact hslot)
  inv := by
    refine ⟨h.linked.fill hslot value, ?_⟩
    have hcount := length_filterMap_set ⟨version ||| 1, .occupied value⟩ hslot
    have hlen := h.len_eq
    simp only [Slot.value, Option.toList_none, Option.toList_some, List.length_nil,
      List.length_singleton] at hcount
    unfold values at hlen ⊢
    dsimp only at hcount ⊢
    omega

lemma inserted_push (h : Inv map) (hslot : map.slots[map.freeHead.toNat]? = none)
    {index : UInt32} (hindex : pushIndex map.slots.length = some index) (value : V) :
    Inserted map value (KeyData.new index 1)
      ⟨map.slots ++ [⟨1, .occupied value⟩], index + 1, map.len + 1⟩ := by
  rcases pushIndex_eq_some hindex with ⟨-, hlength⟩
  have hnone : ∀ k : KeyData, k.idx = index → map.get k = none := by
    intro k hk
    unfold SlotMap.get
    rw [hk, hlength, List.getElem?_eq_none (Nat.le_refl _)]
    rfl
  refine ⟨hnone _ rfl, get_of_store rfl (fun j => ?_) hnone, h.linked.push hslot hindex value, ?_⟩
  · rw [hlength]
    simp only [getElem?_push, eq_comm]
  · have hlen := h.len_eq
    simp only [values, List.filterMap_append, List.length_append] at hlen ⊢
    rw [hlen]
    rfl

lemma insert_spec (h : Inv map) (value : V) :
    (map.insert value).1 = .error .full ∨
      ∃ key, (map.insert value).1 = .ok key ∧ Inserted map value key (map.insert value).2 := by
  unfold insert
  dsimp only
  cases hslot : map.slots[map.freeHead.toNat]? with
  | some slot =>
    rcases slot with ⟨version, state⟩
    rcases h.linked.head_vacant hslot with ⟨next, hstate⟩
    dsimp only at hstate
    rcases hstate with rfl
    exact .inr ⟨_, rfl, inserted_fill h hslot value⟩
  | none =>
    cases hindex : pushIndex map.slots.length with
    | none => exact .inl rfl
    | some index => exact .inr ⟨_, rfl, inserted_push h hslot hindex value⟩

end Insert

section Remove

/-- What `remove` does: it returns what the key finds and deletes that. -/
structure Removed (map : SlotMap V) (key : KeyData) (map' : SlotMap V) : Prop where
  get : ∀ k, map'.get k = if k = key then none else map.get k
  inv : Inv map'

/-- An occupied slot answers to one key only. -/
lemma get_eq_none_of_ne {key k : KeyData} {value : V} (hkey : map.get key = some value)
    (hidx : k.idx = key.idx) (hne : k ≠ key) : map.get k = none := by
  have hslot := get_eq_some.mp hkey
  unfold SlotMap.get
  rw [hidx, hslot, Option.bind_some, Slot.valueFor]
  exact if_neg fun hversion => hne (KeyData.ext hidx hversion.symm)

lemma removed_of_get (h : Inv map) {key : KeyData} {value : V}
    (hkey : map.get key = some value) :
    Removed map key
      ⟨map.slots.set key.idx.toNat ⟨key.version + 1, .vacant map.freeHead⟩, key.idx,
        map.len - 1⟩ ∧ map.len ≠ 0 := by
  have hslot := get_eq_some.mp hkey
  have hcount := length_filterMap_set ⟨key.version + 1, .vacant map.freeHead⟩ hslot
  have hlen := h.len_eq
  simp only [Slot.value, Option.toList_none, Option.toList_some, List.length_nil,
    List.length_singleton] at hcount
  unfold values at hlen
  refine ⟨⟨fun k => ?_, h.linked.vacate hslot, ?_⟩, by omega⟩
  · have hget := getElem?_set_eq hslot ⟨key.version + 1, .vacant map.freeHead⟩ k.idx.toNat
    by_cases hidx : k.idx = key.idx
    · rw [if_pos (by rw [hidx])] at hget
      have hgone : SlotMap.get ⟨map.slots.set key.idx.toNat ⟨key.version + 1,
          .vacant map.freeHead⟩, key.idx, map.len - 1⟩ k = none := get_eq_none_of_vacant hget
      rw [hgone]
      split_ifs with hk
      · rfl
      · exact (get_eq_none_of_ne hkey hidx hk).symm
    · rw [if_neg fun hk => hidx (by rw [hk])]
      apply get_congr
      rw [hget, if_neg fun h => hidx (UInt32.toNat_inj.mp h.symm)]
  · unfold values
    dsimp only at hcount ⊢
    omega

lemma remove_spec (h : Inv map) (key : KeyData) :
    (map.remove key).1 = .ok (map.get key) ∧ Removed map key (map.remove key).2 := by
  have hmissing : map.get key = none → Removed map key map := by
    intro hnone
    refine ⟨fun k => ?_, h⟩
    split_ifs with hk
    · rw [hk, hnone]
    · rfl
  unfold remove
  cases hslot : map.slots[key.idx.toNat]? with
  | none =>
    have hnone : map.get key = none := by
      unfold SlotMap.get
      rw [hslot]
      rfl
    rw [hnone]
    exact ⟨rfl, hmissing hnone⟩
  | some slot =>
    rcases slot with ⟨version, state⟩
    dsimp only
    by_cases hversion : version = key.version
    · rcases hversion with rfl
      cases state with
      | vacant next =>
        -- no key has the version of a vacant slot
        have := h.linked.vacant_even hslot
        have := key.odd
        omega
      | occupied value =>
        have hkey := get_eq_some.mpr hslot
        rcases removed_of_get h hkey with ⟨hremoved, hlen⟩
        rw [if_neg (not_not_intro rfl), if_neg hlen, hkey]
        exact ⟨rfl, hremoved⟩
    · have hnone : map.get key = none := by
        unfold SlotMap.get
        rw [hslot, Option.bind_some]
        cases state with
        | occupied value => exact if_neg hversion
        | vacant next => rfl
      rw [if_pos hversion, hnone]
      exact ⟨rfl, hmissing hnone⟩

end Remove

section Clear

variable {dropPanics : V → Bool}

/-- What the loop of `clear` leaves when it goes through. -/
structure Vacated (map : SlotMap V) (indices : List ℕ) (map' : SlotMap V) : Prop where
  linked : Linked map'.slots map'.freeHead
  length_eq : map'.slots.length = map.slots.length
  vacant : ∀ i, (i ∈ indices ∨ ∃ version next, map.slots[i]? = some ⟨version, .vacant next⟩) →
    ∃ version next, map'.slots[i]? = some ⟨version, .vacant next⟩

lemma clearLoop_spec : ∀ {indices : List ℕ} {map : SlotMap V},
    Linked map.slots map.freeHead → (∀ i ∈ indices, i < map.slots.length) →
    (clearLoop dropPanics indices map).1 = .error .destructor ∨
      (clearLoop dropPanics indices map).1 = .ok () ∧
        Vacated map indices (clearLoop dropPanics indices map).2
  | [], map, h, _ => .inr ⟨rfl, h, rfl, fun i hi => hi.resolve_left (by simp)⟩
  | index :: indices, map, h, hlt => by
    have hindex := hlt index List.mem_cons_self
    have hrest : ∀ i ∈ indices, i < map.slots.length := fun i hi =>
      hlt i (List.mem_cons_of_mem _ hi)
    have hsmall : index < 2 ^ 32 := hindex.trans h.length_lt
    have hnat : (UInt32.ofNat index).toNat = index := UInt32.toNat_ofNat_of_lt' hsmall
    unfold clearLoop
    cases hslot : map.slots[index]? with
    | none =>
      rw [List.getElem?_eq_getElem hindex] at hslot
      cases hslot
    | some slot =>
      rcases slot with ⟨version, value | next⟩
      · dsimp only
        split_ifs with hpanic
        · exact .inl rfl
        · have hslot' : map.slots[(UInt32.ofNat index).toNat]? =
              some ⟨version, .occupied value⟩ := by rw [hnat]; exact hslot
          have hlinked := h.vacate hslot'
          rw [hnat] at hlinked
          have hget := getElem?_set_eq hslot ⟨version + 1, .vacant map.freeHead⟩
          have ih := @clearLoop_spec indices
            ⟨map.slots.set index ⟨version + 1, .vacant map.freeHead⟩, UInt32.ofNat index, map.len⟩
            hlinked (by rw [List.length_set]; exact hrest)
          rcases ih with hpanic | ⟨hok, hvacated⟩
          · exact .inl hpanic
          · refine .inr ⟨hok, hvacated.linked, ?_, fun i hi => hvacated.vacant i ?_⟩
            · rw [hvacated.length_eq, List.length_set]
            · dsimp only
              rw [hget]
              by_cases hi' : index = i
              · rw [if_pos hi']
                exact .inr ⟨_, _, rfl⟩
              · rw [if_neg hi']
                exact hi.imp_left fun hmem => (List.mem_cons.mp hmem).resolve_left (Ne.symm hi')
      · have ih := clearLoop_spec h hrest
        rcases ih with hpanic | ⟨hok, hvacated⟩
        · exact .inl hpanic
        · refine .inr ⟨hok, hvacated.linked, hvacated.length_eq, fun i hi => ?_⟩
          apply hvacated.vacant
          rcases hi with hmem | hvacant
          · rcases List.mem_cons.mp hmem with rfl | hmem
            · exact .inr ⟨version, next, hslot⟩
            · exact .inl hmem
          · exact .inr hvacant

/-- What `clear` does when no destructor panics. -/
structure Cleared (map' : SlotMap V) : Prop where
  get : ∀ k, map'.get k = none
  inv : Inv map'

lemma clear_spec (h : Inv map) :
    (map.clear dropPanics).1 = .error .destructor ∨
      (map.clear dropPanics).1 = .ok () ∧ Cleared (map.clear dropPanics).2 := by
  have hrange : ∀ i ∈ List.range' 1 (map.slots.length - 1), i < map.slots.length := by
    intro i hi
    have := List.mem_range'_1.mp hi
    omega
  unfold clear
  rcases @clearLoop_spec V dropPanics _ _ h.linked hrange with hpanic | ⟨hok, hvacated⟩
  · generalize clearLoop dropPanics (List.range' 1 (map.slots.length - 1)) map = result at hpanic
    rcases result with ⟨outcome, map'⟩
    rcases hpanic with rfl
    exact .inl rfl
  · generalize clearLoop dropPanics (List.range' 1 (map.slots.length - 1)) map = result
      at hok hvacated
    rcases result with ⟨outcome, map'⟩
    rcases hok with rfl
    dsimp only at hvacated ⊢
    have hall : ∀ i, i < map'.slots.length →
        ∃ version next, map'.slots[i]? = some ⟨version, .vacant next⟩ := by
      intro i hi
      rcases Nat.eq_zero_or_pos i with rfl | hpos
      · exact ⟨_, _, hvacated.linked.sentinel⟩
      · rw [hvacated.length_eq] at hi
        exact hvacated.vacant i (.inl (List.mem_range'_1.mpr ⟨hpos, by omega⟩))
    refine .inr ⟨rfl, fun k => ?_, hvacated.linked, ?_⟩
    · rcases Nat.lt_or_ge k.idx.toNat map'.slots.length with hlt | hge
      · rcases hall _ hlt with ⟨version, next, hslot⟩
        exact get_eq_none_of_vacant hslot
      · unfold SlotMap.get
        dsimp only
        rw [List.getElem?_eq_none hge]
        rfl
    · have hnone : ∀ slot ∈ map'.slots, slot.value = none := by
        intro slot hslot
        rcases List.getElem?_of_mem hslot with ⟨i, hi⟩
        rcases hall i (lt_length_of_getElem?_eq_some hi) with ⟨version, next, hvacant⟩
        rw [hi] at hvacant
        cases hvacant
        rfl
      unfold values
      rw [List.filterMap_eq_nil_iff.mpr hnone]
      rfl

end Clear

section Write

lemma get_write (write : ℕ → V → V) (key : KeyData) :
    (map.valuesMut write).2.get key = (map.get key).map (write key.idx.toNat) := by
  unfold SlotMap.get valuesMut
  dsimp only
  rw [getElem?_write]
  rcases map.slots[key.idx.toNat]? with _ | ⟨version, value | next⟩
  · rfl
  · simp only [Option.map_some, Option.bind_some, Slot.write, Slot.valueFor]
    split_ifs <;> rfl
  · rfl

lemma value_write (write : ℕ → V → V) (index : ℕ) (slot : Slot V) :
    (slot.write write index).value = slot.value.map (write index) := by
  rcases slot with ⟨version, value | next⟩ <;> rfl

lemma inv_write (h : Inv map) (write : ℕ → V → V) : Inv (map.valuesMut write).2 := by
  refine ⟨h.linked.write write, h.len_eq.trans ?_⟩
  unfold values valuesMut
  generalize map.slots = slots
  dsimp only
  induction slots generalizing write with
  | nil => rfl
  | cons slot slots ih =>
    rw [List.mapIdx_cons, List.filterMap_cons, List.filterMap_cons, value_write]
    have hrest := ih fun i => write (i + 1)
    cases slot.value with
    | none => exact hrest
    | some value => exact congrArg Nat.succ hrest

/-- A write through `get_mut` is a write to one slot. -/
lemma getMut_eq (key : KeyData) (write : V → V) :
    map.getMut key write =
      (map.get key, match map.get key with
        | none => map
        | some _ => (map.valuesMut fun i value =>
            if i = key.idx.toNat then write value else value).2) := by
  unfold getMut
  cases hslot : map.slots[key.idx.toNat]? with
  | none =>
    have hget : map.get key = none := by
      unfold SlotMap.get
      rw [hslot]
      rfl
    rw [hget]
  | some slot =>
    have hget : map.get key = slot.valueFor key.version := by
      unfold SlotMap.get
      rw [hslot]
      rfl
    rw [hget]
    rcases slot with ⟨version, value | next⟩
    · unfold Slot.valueFor
      by_cases hversion : version = key.version
      · simp only [if_pos hversion, valuesMut]
        congr 2
        apply List.ext_getElem?
        intro j
        rw [getElem?_set_eq hslot, getElem?_write]
        by_cases hj : key.idx.toNat = j
        · rcases hj with rfl
          rw [if_pos rfl, hslot]
          simp [Slot.write]
        · rw [if_neg hj]
          rcases map.slots[j]? with _ | ⟨version', value' | next'⟩
          · rfl
          · simp [Slot.write, Ne.symm hj]
          · rfl
      · simp only [if_neg hversion]
    · rfl

end Write

end DoomFishUtils.SlotMap
