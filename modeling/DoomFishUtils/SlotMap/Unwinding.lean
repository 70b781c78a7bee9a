import DoomFishUtils.SlotMap.Refinement

/-!
# Operations that unwind

An `insert` that panics as full and a `clear` whose value's destructor panics leave a map that its
caller can go on using.  The links of such a map still visit vacant slots only, and an operation
still changes the version of a slot by one or not at all.
-/

namespace DoomFishUtils.SlotMap

set_option autoImplicit false

variable {V : Type}

section Steps

variable {map : SlotMap V} {dropPanics : V → Bool}

/-- What an operation does to a slot that it does not reuse: nothing, a write over its value, or
emptying it. -/
inductive Kept : Slot V → Slot V → Prop
  | same (slot : Slot V) : Kept slot slot
  | written (version : UInt32) (value value' : V) :
      Kept ⟨version, .occupied value⟩ ⟨version, .occupied value'⟩
  | emptied (version : UInt32) (value : V) (next : UInt32) :
      Kept ⟨version, .occupied value⟩ ⟨version + 1, .vacant next⟩

/-- Every slot that the map has is kept. -/
def KeepsSlots (map map' : SlotMap V) : Prop :=
  ∀ {i : ℕ} {slot : Slot V}, map.slots[i]? = some slot →
    ∃ slot', map'.slots[i]? = some slot' ∧ Kept slot slot'

lemma keepsSlots_of_eq {map' : SlotMap V} (h : map'.slots = map.slots) : KeepsSlots map map' :=
  fun {_ slot} hi => ⟨slot, by rw [h]; exact hi, .same slot⟩

lemma keepsSlots_of_set {map' : SlotMap V} {index : ℕ} {slot slot' : Slot V}
    (hslot : map.slots[index]? = some slot) (hslots : map'.slots = map.slots.set index slot')
    (hkept : Kept slot slot') : KeepsSlots map map' := by
  intro i other hi
  rw [hslots, getElem?_set_eq hslot]
  by_cases hindex : index = i
  · rcases hindex with rfl
    rw [hslot] at hi
    cases hi
    exact ⟨slot', by rw [if_pos rfl], hkept⟩
  · exact ⟨other, by rw [if_neg hindex]; exact hi, .same other⟩

/-- The loop of `clear`, also when a destructor stops it. -/
lemma clearLoop_keeps : ∀ {indices : List ℕ} {map : SlotMap V},
    Chained map.slots map.freeHead →
    Chained (clearLoop dropPanics indices map).2.slots (clearLoop dropPanics indices map).2.freeHead ∧
      ∀ {i : ℕ} {slot : Slot V}, map.slots[i]? = some slot →
        ∃ slot', (clearLoop dropPanics indices map).2.slots[i]? = some slot' ∧
          (slot' = slot ∨ ∃ version value next, slot = ⟨version, .occupied value⟩ ∧
            slot' = ⟨version + 1, .vacant next⟩)
  | [], map, h => ⟨h, fun {_ slot} hi => ⟨slot, hi, .inl rfl⟩⟩
  | index :: indices, map, h => by
    unfold clearLoop
    rcases hslot : map.slots[index]? with _ | ⟨version, value | next⟩
    · exact ⟨h, fun {_ slot} hi => ⟨slot, hi, .inl rfl⟩⟩
    · have hemptied : ∀ head len {i : ℕ} {slot : Slot V}, map.slots[i]? = some slot →
          ∃ slot', (SlotMap.mk (map.slots.set index ⟨version + 1, .vacant map.freeHead⟩) head
            len).slots[i]? = some slot' ∧
            (slot' = slot ∨ ∃ version value next, slot = ⟨version, .occupied value⟩ ∧
              slot' = ⟨version + 1, .vacant next⟩) := by
        intro head len i slot hi
        dsimp only
        rw [getElem?_set_eq hslot]
        by_cases hindex : index = i
        · rcases hindex with rfl
          rw [hslot] at hi
          cases hi
          exact ⟨_, by rw [if_pos rfl], .inr ⟨version, value, map.freeHead, rfl, rfl⟩⟩
        · exact ⟨slot, by rw [if_neg hindex]; exact hi, .inl rfl⟩
      have hsmall : index < 2 ^ 32 := (lt_length_of_getElem?_eq_some hslot).trans h.length_lt
      have hnat : (UInt32.ofNat index).toNat = index := UInt32.toNat_ofNat_of_lt' hsmall
      dsimp only
      split_ifs with hpanic
      · exact ⟨h.abandon hslot, hemptied _ _⟩
      · have hchained := Chained.vacate h (by rw [hnat]; exact hslot)
        rw [hnat] at hchained
        rcases @clearLoop_keeps indices ⟨map.slots.set index ⟨version + 1, .vacant map.freeHead⟩,
          UInt32.ofNat index, map.len⟩ hchained with ⟨hrest, hkeeps⟩
        refine ⟨hrest, fun {i slot} hi => ?_⟩
        rcases hemptied _ _ hi with ⟨slot', hi', heq | ⟨version', value', next, hold, hnew⟩⟩
        · exact heq ▸ hkeeps hi'
        · -- an emptied slot stays as it is
          rcases hkeeps hi' with ⟨slot'', hi'', heq | ⟨_, _, _, hoccupied, -⟩⟩
          · exact ⟨slot'', hi'', .inr ⟨version', value', next, hold, heq.trans hnew⟩⟩
          · rw [hnew] at hoccupied
            cases hoccupied
    · exact clearLoop_keeps h

/-- The loop of `clear` leaves its vacant slots alone. -/
lemma clearLoop_vacant (dropPanics : V → Bool) (h : Chained map.slots map.freeHead)
    (indices : List ℕ) {i : ℕ} {version next : UInt32}
    (hi : map.slots[i]? = some ⟨version, .vacant next⟩) :
    (clearLoop dropPanics indices map).2.slots[i]? = some ⟨version, .vacant next⟩ := by
  rcases (clearLoop_keeps h).2 hi with ⟨slot', hslot', rfl | ⟨_, _, _, hoccupied, -⟩⟩
  · exact hslot'
  · cases hoccupied

lemma length_clearLoop : ∀ (indices : List ℕ) (map : SlotMap V),
    (clearLoop dropPanics indices map).2.slots.length = map.slots.length
  | [], _ => rfl
  | index :: indices, map => by
    unfold clearLoop
    rcases map.slots[index]? with _ | ⟨version, value | next⟩
    · rfl
    · dsimp only
      split_ifs
      · exact List.length_set
      · exact (length_clearLoop indices _).trans List.length_set
      · exact (length_clearLoop indices _).trans List.length_set
    · exact length_clearLoop indices map

/-- A loop of `clear` that goes through has emptied every slot of its indices. -/
lemma clearLoop_emptied : ∀ {indices : List ℕ} {map : SlotMap V},
    Chained map.slots map.freeHead → (clearLoop dropPanics indices map).1 = .ok () →
    ∀ i ∈ indices, ∃ version next,
      (clearLoop dropPanics indices map).2.slots[i]? = some ⟨version, .vacant next⟩
  | [], _, _ => fun _ _ hi => absurd hi List.not_mem_nil
  | index :: indices, map, h => by
    intro hok i hi
    unfold clearLoop at hok ⊢
    rcases hslot : map.slots[index]? with _ | ⟨version, value | next⟩ <;> rw [hslot] at hok
    · cases hok
    · have hsmall : index < 2 ^ 32 := (lt_length_of_getElem?_eq_some hslot).trans h.length_lt
      dsimp only at hok ⊢
      by_cases hpanic : dropPanics value = true
      · rw [if_pos hpanic] at hok
        cases hok
      rw [if_neg hpanic, if_pos hsmall] at hok ⊢
      have hnat : (UInt32.ofNat index).toNat = index := UInt32.toNat_ofNat_of_lt' hsmall
      have hchained := Chained.vacate h (by rw [hnat]; exact hslot)
      rw [hnat] at hchained
      rcases List.mem_cons.mp hi with rfl | hmem
      · refine ⟨version + 1, map.freeHead, clearLoop_vacant dropPanics hchained indices ?_⟩
        dsimp only
        rw [getElem?_set_eq hslot, if_pos rfl]
      · exact clearLoop_emptied hchained hok i hmem
    · dsimp only at hok ⊢
      rcases List.mem_cons.mp hi with rfl | hmem
      · exact ⟨version, next, clearLoop_vacant dropPanics h indices hslot⟩
      · exact clearLoop_emptied h hok i hmem

lemma clear_keeps (h : Chained map.slots map.freeHead) :
    Chained (map.clear dropPanics).2.slots (map.clear dropPanics).2.freeHead ∧
      KeepsSlots map (map.clear dropPanics).2 := by
  have hloop := @clearLoop_keeps V dropPanics (List.range' 1 (map.slots.length - 1)) map h
  have hslots : (map.clear dropPanics).2.slots =
      (clearLoop dropPanics (List.range' 1 (map.slots.length - 1)) map).2.slots ∧
      (map.clear dropPanics).2.freeHead =
        (clearLoop dropPanics (List.range' 1 (map.slots.length - 1)) map).2.freeHead := by
    unfold clear
    rcases clearLoop dropPanics (List.range' 1 (map.slots.length - 1)) map with ⟨_ | _, _⟩ <;>
      exact ⟨rfl, rfl⟩
  rw [hslots.1, hslots.2]
  refine ⟨hloop.1, fun {i slot} hi => ?_⟩
  rw [hslots.1]
  rcases hloop.2 hi with ⟨slot', hi', rfl | ⟨version, value, next, rfl, rfl⟩⟩
  · exact ⟨slot', hi', .same slot'⟩
  · exact ⟨_, hi', .emptied version value next⟩

lemma insert_cases (h : Chained map.slots map.freeHead) (value : V) :
    (∃ version next, map.slots[map.freeHead.toNat]? = some ⟨version, .vacant next⟩ ∧
      map.insert value = (.ok (KeyData.new map.freeHead (version ||| 1)),
        ⟨map.slots.set map.freeHead.toNat ⟨version ||| 1, .occupied value⟩, next, map.len + 1⟩)) ∨
    (map.slots[map.freeHead.toNat]? = none ∧ ∃ index, pushIndex map.slots.length = some index ∧
      map.insert value = (.ok (KeyData.new index 1),
        ⟨map.slots ++ [⟨1, .occupied value⟩], index + 1, map.len + 1⟩)) ∨
    (map.slots[map.freeHead.toNat]? = none ∧ pushIndex map.slots.length = none ∧
      map.insert value = (.error .full, { map with len := map.len + 1 })) := by
  unfold insert
  dsimp only
  cases hslot : map.slots[map.freeHead.toNat]? with
  | some slot =>
    rcases h.head_vacant hslot with ⟨version, next, rfl, -⟩
    exact .inl ⟨version, next, rfl, rfl⟩
  | none =>
    cases hindex : pushIndex map.slots.length with
    | none => exact .inr (.inr ⟨rfl, rfl, rfl⟩)
    | some index => exact .inr (.inl ⟨rfl, index, rfl, rfl⟩)

lemma remove_cases (h : Chained map.slots map.freeHead) (key : KeyData) :
    (map.get key = none ∧ map.remove key = (.ok none, map)) ∨
    ∃ value, map.slots[key.idx.toNat]? = some ⟨key.version, .occupied value⟩ ∧
      map.remove key = if map.len = 0 then
        (.error .underflow, ⟨map.slots.set key.idx.toNat ⟨key.version + 1, .vacant map.freeHead⟩,
          key.idx, map.len⟩)
      else
        (.ok (some value), ⟨map.slots.set key.idx.toNat ⟨key.version + 1, .vacant map.freeHead⟩,
          key.idx, map.len - 1⟩) := by
  unfold remove
  cases hslot : map.slots[key.idx.toNat]? with
  | none =>
    refine .inl ⟨?_, rfl⟩
    unfold SlotMap.get
    rw [hslot]
    rfl
  | some slot =>
    dsimp only
    by_cases hversion : slot.version = key.version
    · rcases slot with ⟨version, value | next⟩
      · rcases hversion with rfl
        exact .inr ⟨value, rfl, by rw [if_neg (not_not_intro rfl)]⟩
      · -- no key has the version of a vacant slot
        rcases hversion with rfl
        have heven : key.version.toNat % 2 = 0 := h.parity hslot
        have := key.odd
        omega
    · refine .inl ⟨?_, by rw [if_pos hversion]⟩
      unfold SlotMap.get
      rw [hslot, Option.bind_some]
      rcases slot with ⟨version, value | next⟩
      · exact if_neg hversion
      · rfl

lemma chained_write (h : Chained map.slots map.freeHead) (write : ℕ → V → V) :
    Chained (map.valuesMut write).2.slots (map.valuesMut write).2.freeHead ∧
      KeepsSlots map (map.valuesMut write).2 := by
  have hkept : ∀ (i : ℕ) (slot : Slot V), Kept slot (slot.write write i) := by
    intro i slot
    rcases slot with ⟨version, value | next⟩
    · exact .written version value (write i value)
    · exact .same _
  refine ⟨h.write write, fun {i slot} hi => ⟨slot.write write i, ?_, hkept i slot⟩⟩
  change (map.slots.mapIdx (Slot.write write))[i]? = some (slot.write write i)
  rw [getElem?_write, hi]
  rfl

lemma chained_getMut (h : Chained map.slots map.freeHead) (key : KeyData) (write : V → V) :
    Chained (map.getMut key write).2.slots (map.getMut key write).2.freeHead ∧
      KeepsSlots map (map.getMut key write).2 := by
  rw [getMut_eq]
  cases map.get key with
  | none => exact ⟨h, keepsSlots_of_eq rfl⟩
  | some value => exact chained_write h _

lemma apply_insert (dropPanics : V → Bool) (map : SlotMap V) (value : V) :
    map.apply dropPanics (.insert value) =
      ((map.insert value).1.map .key, (map.insert value).2) := rfl

lemma apply_remove (dropPanics : V → Bool) (map : SlotMap V) (key : KeyData) :
    map.apply dropPanics (.remove key) =
      ((map.remove key).1.map .value, (map.remove key).2) := rfl

lemma apply_clear (dropPanics : V → Bool) (map : SlotMap V) :
    map.apply dropPanics .clear =
      ((map.clear dropPanics).1.map fun _ => .unit, (map.clear dropPanics).2) := rfl

lemma indexMut_snd (map : SlotMap V) (key : KeyData) (write : V → V) :
    (map.indexMut key write).2 = (map.getMut key write).2 := by
  unfold indexMut
  rcases map.getMut key write with ⟨_ | _, _⟩ <;> rfl

lemma map_ne_ok {A B : Type} {f : A → B} {b : B} (h : ∀ a, f a ≠ b) (result : Except Panic A) :
    result.map f ≠ .ok b := by
  cases result with
  | error panic => exact fun heq => by cases heq
  | ok a => exact fun heq => h a (Except.ok.inj heq)

/-- Operations other than `insert` add no slot. -/
lemma length_apply (dropPanics : V → Bool) (h : Chained map.slots map.freeHead) {op : Op V}
    (hop : ∀ value, op ≠ .insert value) :
    (map.apply dropPanics op).2.slots.length = map.slots.length := by
  have hmut : ∀ (key : KeyData) (write : V → V),
      (map.getMut key write).2.slots.length = map.slots.length := by
    intro key write
    rw [getMut_eq]
    cases map.get key with
    | none => rfl
    | some value => exact List.length_mapIdx
  cases op with
  | insert value => exact absurd rfl (hop value)
  | remove key =>
    rw [apply_remove]
    rcases remove_cases h key with ⟨-, heq⟩ | ⟨value, hslot, heq⟩ <;> rw [heq]
    split_ifs <;> exact List.length_set
  | clear =>
    have hlength := @length_clearLoop V dropPanics (List.range' 1 (map.slots.length - 1)) map
    rw [apply_clear]
    unfold clear
    generalize clearLoop dropPanics (List.range' 1 (map.slots.length - 1)) map = result at hlength
    rcases result with ⟨_ | _, last⟩ <;> exact hlength
  | get key => rfl
  | getMut key write => exact hmut key write
  | valuesMut write => exact List.length_mapIdx
  | index key => rfl
  | indexMut key write =>
    unfold apply
    dsimp only
    rw [indexMut_snd]
    exact hmut key write

/-- An operation fills the slot at the free head and returns its key, or it keeps every slot and
returns no key of one. -/
lemma apply_cases (dropPanics : V → Bool) (h : Chained map.slots map.freeHead) (op : Op V) :
    Chained (map.apply dropPanics op).2.slots (map.apply dropPanics op).2.freeHead ∧
    ((∃ value version next, op = .insert value ∧
      map.slots[map.freeHead.toNat]? = some ⟨version, .vacant next⟩ ∧
      map.apply dropPanics op = (.ok (.key (KeyData.new map.freeHead (version ||| 1))),
        ⟨map.slots.set map.freeHead.toNat ⟨version ||| 1, .occupied value⟩, next, map.len + 1⟩)) ∨
    KeepsSlots map (map.apply dropPanics op).2 ∧
      ∀ key, (map.apply dropPanics op).1 = .ok (.key key) → map.slots[key.idx.toNat]? = none) := by
  cases op with
  | insert value =>
    rw [apply_insert]
    rcases insert_cases h value with ⟨version, next, hslot, heq⟩ | ⟨hslot, index, hindex, heq⟩ |
      ⟨hslot, hindex, heq⟩ <;> rw [heq]
    · exact ⟨h.fill hslot value, .inl ⟨value, version, next, rfl, hslot, rfl⟩⟩
    · refine ⟨h.push hindex value, .inr ⟨fun {i slot} hi => ⟨slot, ?_, .same slot⟩, ?_⟩⟩
      · dsimp only
        rw [getElem?_push, if_neg (lt_length_of_getElem?_eq_some hi).ne]
        exact hi
      · rintro key hkey
        cases hkey
        change map.slots[index.toNat]? = none
        rw [(pushIndex_eq_some hindex).2]
        exact List.getElem?_eq_none le_rfl
    · exact ⟨h, .inr ⟨keepsSlots_of_eq rfl, fun key hkey => by cases hkey⟩⟩
  | remove key =>
    rw [apply_remove]
    rcases remove_cases h key with ⟨-, heq⟩ | ⟨value, hslot, heq⟩
    · rw [heq]
      exact ⟨h, .inr ⟨keepsSlots_of_eq rfl, fun key hkey => by cases hkey⟩⟩
    · rw [heq]
      split_ifs with hlen
      · exact ⟨h.vacate hslot, .inr ⟨keepsSlots_of_set hslot rfl (.emptied _ _ _),
          fun key hkey => by cases hkey⟩⟩
      · exact ⟨h.vacate hslot, .inr ⟨keepsSlots_of_set hslot rfl (.emptied _ _ _),
          fun key hkey => by cases hkey⟩⟩
  | clear =>
    exact ⟨(clear_keeps h).1, .inr ⟨(clear_keeps h).2,
      fun key hkey => absurd hkey (map_ne_ok (fun _ heq => by cases heq) _)⟩⟩
  | get key => exact ⟨h, .inr ⟨keepsSlots_of_eq rfl, fun key hkey => by cases hkey⟩⟩
  | getMut key write =>
    exact ⟨(chained_getMut h key write).1, .inr ⟨(chained_getMut h key write).2,
      fun key hkey => by cases hkey⟩⟩
  | valuesMut write =>
    exact ⟨(chained_write h write).1, .inr ⟨(chained_write h write).2,
      fun key hkey => by cases hkey⟩⟩
  | index key =>
    exact ⟨h, .inr ⟨keepsSlots_of_eq rfl,
      fun key' hkey => absurd hkey (map_ne_ok (fun _ heq => by cases heq) _)⟩⟩
  | indexMut key write =>
    unfold apply
    dsimp only
    rw [indexMut_snd]
    exact ⟨(chained_getMut h key write).1, .inr ⟨(chained_getMut h key write).2,
      fun key' hkey => absurd hkey (map_ne_ok (fun _ heq => by cases heq) _)⟩⟩

lemma chained_of_reachable {capacity : ℕ}
    (h : (slotMapSystem dropPanics capacity).Reachable map) : Chained map.slots map.freeHead := by
  refine h.invariant (P := fun map => Chained map.slots map.freeHead) ?_ ?_
  · rintro map rfl
    exact (inv_withCapacity capacity).linked.chained
  · intro map label map' hchained hstep
    have happly := (apply_cases dropPanics hchained label.1).1
    rwa [show map.apply dropPanics label.1 = (label.2, map') from hstep] at happly

end Steps

end DoomFishUtils.SlotMap
