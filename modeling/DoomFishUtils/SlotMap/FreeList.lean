import DoomFishUtils.SlotMap.Model
import Mathlib.Order.Nat

/-!
# The free list

The vacant slots other than the sentinel form a list from `freeHead` that ends at the length
of the vector; after an operation has unwound some of them may be missing from it.  Vacant slots
have even versions and occupied ones odd versions, so that no key matches a vacant slot.
-/

namespace DoomFishUtils.SlotMap

set_option autoImplicit false

variable {V : Type}

/-- The slots that the links of vacant slots visit from an index on. -/
inductive FreeList (slots : List (Slot V)) : ℕ → List ℕ → Prop where
  | done : FreeList slots slots.length []
  | link {index : ℕ} {version next : UInt32} {rest : List ℕ}
      (hslot : slots[index]? = some ⟨version, .vacant next⟩)
      (hrest : FreeList slots next.toNat rest) : FreeList slots index (index :: rest)

/-- What holds of the slots and the free head between any two steps of an operation. -/
structure Linked (slots : List (Slot V)) (freeHead : UInt32) : Prop where
  sentinel : slots[0]? = some ⟨0, .vacant 0⟩
  occupied_odd : ∀ {i : ℕ} {version : UInt32} {value : V},
    slots[i]? = some ⟨version, .occupied value⟩ → version.toNat % 2 = 1
  vacant_even : ∀ {i : ℕ} {version next : UInt32},
    slots[i]? = some ⟨version, .vacant next⟩ → version.toNat % 2 = 0
  length_lt : slots.length < 2 ^ 32
  free : ∃ free, FreeList slots freeHead.toNat free ∧ free.Nodup ∧
    ∀ i, i ∈ free ↔ 0 < i ∧ ∃ version next, slots[i]? = some ⟨version, .vacant next⟩

/-- Occupied slots have odd versions and vacant ones even versions. -/
def Slot.Parity : Slot V → Prop
  | ⟨version, .occupied _⟩ => version.toNat % 2 = 1
  | ⟨version, .vacant _⟩ => version.toNat % 2 = 0

/-- What holds of the slots also after an operation has unwound: as `Linked`, but vacant slots
may be missing from the free list. -/
structure Chained (slots : List (Slot V)) (freeHead : UInt32) : Prop where
  sentinel : slots[0]? = some ⟨0, .vacant 0⟩
  parity : ∀ {i : ℕ} {slot : Slot V}, slots[i]? = some slot → slot.Parity
  length_lt : slots.length < 2 ^ 32
  free : ∃ free, FreeList slots freeHead.toNat free ∧ free.Nodup ∧ ∀ i ∈ free, 0 < i

lemma FreeList.set {slots : List (Slot V)} {head : ℕ} {free : List ℕ}
    (h : FreeList slots head free) {i : ℕ} (hi : i ∉ free) (slot : Slot V) :
    FreeList (slots.set i slot) head free := by
  induction h with
  | done =>
    have hlength : (slots.set i slot).length = slots.length := List.length_set
    rw [← hlength]
    exact .done
  | @link index version next rest hslot _ ih =>
    have hne : i ≠ index := fun h => hi (h ▸ List.mem_cons_self)
    have hslot' : (slots.set i slot)[index]? = some ⟨version, .vacant next⟩ := by
      rw [List.getElem?_set_ne hne]
      exact hslot
    exact .link hslot' (ih fun h => hi (List.mem_cons_of_mem _ h))

section Steps

variable {slots : List (Slot V)} {freeHead : UInt32}

lemma lt_length_of_getElem?_eq_some {slot : Slot V} {i : ℕ} (hi : slots[i]? = some slot) :
    i < slots.length :=
  (List.getElem?_eq_some_iff.mp hi).1

lemma getElem?_set_eq {slot : Slot V} {i : ℕ} (hi : slots[i]? = some slot) (slot' : Slot V)
    (j : ℕ) :
    (slots.set i slot')[j]? = if i = j then some slot' else slots[j]? := by
  by_cases hij : i = j
  · rcases hij with rfl
    rw [if_pos rfl, List.getElem?_set_self (lt_length_of_getElem?_eq_some hi)]
  · rw [if_neg hij, List.getElem?_set_ne hij]

lemma pushIndex_eq_some {length : ℕ} {index : UInt32} :
    pushIndex length = some index → length < 2 ^ 32 - 1 ∧ index.toNat = length := by
  unfold pushIndex
  intro h
  split_ifs at h with hlt
  cases h
  exact ⟨hlt, UInt32.toNat_ofNat_of_lt' (Nat.lt_of_lt_of_le hlt (Nat.sub_le _ _))⟩

lemma getElem?_push (slots : List (Slot V)) (slot : Slot V) (i : ℕ) :
    (slots ++ [slot])[i]? = if i = slots.length then some slot else slots[i]? := by
  rcases Nat.lt_trichotomy i slots.length with hlt | rfl | hgt
  · rw [List.getElem?_append_left hlt, if_neg hlt.ne]
  · simp
  · rw [if_neg hgt.ne', List.getElem?_eq_none (by simp; omega), List.getElem?_eq_none hgt.le]

/-- The free head after a push is the new length. -/
lemma toNat_pushIndex_succ {index : UInt32} (hindex : pushIndex slots.length = some index)
    (slot : Slot V) : (index + 1).toNat = (slots ++ [slot]).length := by
  rcases pushIndex_eq_some hindex with ⟨hlt, hlength⟩
  have hone : (1 : UInt32).toNat = 1 := rfl
  rw [UInt32.toNat_add, hlength, List.length_append, List.length_singleton, hone]
  exact Nat.mod_eq_of_lt (by omega)

lemma FreeList.vacant {head : ℕ} {free : List ℕ} (h : FreeList slots head free) {i : ℕ}
    (hi : i ∈ free) : ∃ version next, slots[i]? = some ⟨version, .vacant next⟩ := by
  induction h with
  | done => cases hi
  | @link index version next rest hslot _ ih =>
    rcases List.mem_cons.mp hi with rfl | hmem
    · exact ⟨version, next, hslot⟩
    · exact ih hmem

lemma FreeList.notMem_of_occupied {head : ℕ} {free : List ℕ} (h : FreeList slots head free)
    {i : ℕ} {version : UInt32} {value : V} (hi : slots[i]? = some ⟨version, .occupied value⟩) :
    i ∉ free := by
  intro hmem
  rcases h.vacant hmem with ⟨version', next, hvacant⟩
  rw [hi] at hvacant
  cases hvacant

lemma Chained.pos_of_occupied (h : Chained slots freeHead) {i : ℕ} {version : UInt32} {value : V}
    (hi : slots[i]? = some ⟨version, .occupied value⟩) : 0 < i := by
  rcases Nat.eq_zero_or_pos i with rfl | hpos
  · cases h.sentinel.symm.trans hi
  · exact hpos

/-- Setting a slot other than the sentinel keeps the sentinel, the parities and the length. -/
lemma Chained.set (h : Chained slots freeHead) {i : ℕ} {slot : Slot V}
    (hi : slots[i]? = some slot) (hpos : 0 < i) {slot' : Slot V} (hparity : slot'.Parity)
    {head : UInt32} (hfree : ∃ free, FreeList (slots.set i slot') head.toNat free ∧ free.Nodup ∧
      ∀ j ∈ free, 0 < j) : Chained (slots.set i slot') head where
  sentinel := by
    rw [getElem?_set_eq hi, if_neg hpos.ne']
    exact h.sentinel
  parity {j other} hj := by
    rw [getElem?_set_eq hi] at hj
    split_ifs at hj with hij
    · cases hj
      exact hparity
    · exact h.parity hj
  length_lt := by
    rw [List.length_set]
    exact h.length_lt
  free := hfree

/-- A slot that is emptied before the free head moves drops out of the free list. -/
lemma Chained.abandon (h : Chained slots freeHead) {index : ℕ} {version : UInt32} {value : V}
    (hslot : slots[index]? = some ⟨version, .occupied value⟩) :
    Chained (slots.set index ⟨version + 1, .vacant freeHead⟩) freeHead := by
  rcases h.free with ⟨free, hfree, hnodup, hpos⟩
  have hodd : version.toNat % 2 = 1 := h.parity hslot
  refine h.set hslot (h.pos_of_occupied hslot) ?_
    ⟨free, hfree.set (hfree.notMem_of_occupied hslot) _, hnodup, hpos⟩
  change (version + 1).toNat % 2 = 0
  rw [toNat_add_one_mod_two]
  omega

/-- Emptying an occupied slot puts it at the head of the free list. -/
lemma Chained.vacate (h : Chained slots freeHead) {index version : UInt32} {value : V}
    (hslot : slots[index.toNat]? = some ⟨version, .occupied value⟩) :
    Chained (slots.set index.toNat ⟨version + 1, .vacant freeHead⟩) index := by
  have hchained := h.abandon hslot
  rcases h.free with ⟨free, hfree, hnodup, hpos⟩
  have hout := hfree.notMem_of_occupied hslot
  have hhead : (slots.set index.toNat ⟨version + 1, .vacant freeHead⟩)[index.toNat]? =
      some ⟨version + 1, .vacant freeHead⟩ := by rw [getElem?_set_eq hslot, if_pos rfl]
  refine ⟨hchained.sentinel, hchained.parity, hchained.length_lt, index.toNat :: free,
    .link hhead (hfree.set hout _), List.nodup_cons.mpr ⟨hout, hnodup⟩, fun i hi => ?_⟩
  · rcases List.mem_cons.mp hi with rfl | hmem
    · exact h.pos_of_occupied hslot
    · exact hpos i hmem

/-- A free head inside the vector is a vacant slot with a version that is not odd. -/
lemma Chained.head_vacant (h : Chained slots freeHead) {slot : Slot V}
    (hslot : slots[freeHead.toNat]? = some slot) :
    ∃ version next, slot = ⟨version, .vacant next⟩ ∧ 0 < freeHead.toNat := by
  rcases h.free with ⟨free, hfree, -, hpos⟩
  generalize hhead : freeHead.toNat = head at hfree hslot
  cases hfree with
  | done => simp at hslot
  | link hvacant =>
    rw [hvacant] at hslot
    cases hslot
    exact ⟨_, _, rfl, hpos _ List.mem_cons_self⟩

/-- Filling the slot at the free head takes it off the free list. -/
lemma Chained.fill (h : Chained slots freeHead) {version next : UInt32}
    (hslot : slots[freeHead.toNat]? = some ⟨version, .vacant next⟩) (value : V) :
    Chained (slots.set freeHead.toNat ⟨version ||| 1, .occupied value⟩) next := by
  rcases h.free with ⟨free, hfree, hnodup, hpos⟩
  generalize hhead : freeHead.toNat = head at hfree hslot
  cases hfree with
  | done => simp at hslot
  | @link _ _ next' rest hvacant hrest =>
    rw [hvacant] at hslot
    cases hslot
    rcases List.nodup_cons.mp hnodup with ⟨hout, hnodup⟩
    refine h.set hvacant (hpos head List.mem_cons_self) ?_
      ⟨rest, hrest.set hout _, hnodup, fun i hi => hpos i (List.mem_cons_of_mem _ hi)⟩
    exact or_one_odd version

/-- With the free list used up a new slot is pushed. -/
lemma Chained.push (h : Chained slots freeHead) {index : UInt32}
    (hindex : pushIndex slots.length = some index) (value : V) :
    Chained (slots ++ [⟨1, .occupied value⟩]) (index + 1) := by
  have hlt := (pushIndex_eq_some hindex).1
  have hget := getElem?_push slots ⟨1, .occupied value⟩
  have hpos : 0 < slots.length := lt_length_of_getElem?_eq_some h.sentinel
  refine ⟨?_, fun {i slot} hi => ?_, by simp; omega, [], ?_, List.nodup_nil, by simp⟩
  · rw [hget, if_neg hpos.ne]
    exact h.sentinel
  · rw [hget] at hi
    split_ifs at hi with hend
    · cases hi
      rfl
    · exact h.parity hi
  · rw [toNat_pushIndex_succ hindex ⟨1, .occupied value⟩]
    exact .done

/-! ### Maps with every vacant slot on the free list -/

lemma Linked.chained (h : Linked slots freeHead) : Chained slots freeHead := by
  rcases h.free with ⟨free, hfree, hnodup, hmem⟩
  refine ⟨h.sentinel, fun {i slot} hi => ?_, h.length_lt, free, hfree, hnodup,
    fun i hi => ((hmem i).mp hi).1⟩
  rcases slot with ⟨version, value | next⟩
  · exact h.occupied_odd hi
  · exact h.vacant_even hi

lemma Chained.linked (h : Chained slots freeHead) {free : List ℕ}
    (hfree : FreeList slots freeHead.toNat free) (hnodup : free.Nodup)
    (hmem : ∀ i, i ∈ free ↔ 0 < i ∧ ∃ version next, slots[i]? = some ⟨version, .vacant next⟩) :
    Linked slots freeHead where
  sentinel := h.sentinel
  occupied_odd hi := h.parity hi
  vacant_even hi := h.parity hi
  length_lt := h.length_lt
  free := ⟨free, hfree, hnodup, hmem⟩

lemma Linked.pos_of_occupied (h : Linked slots freeHead) {i : ℕ} {version : UInt32} {value : V}
    (hi : slots[i]? = some ⟨version, .occupied value⟩) : 0 < i :=
  h.chained.pos_of_occupied hi

/-- A free head inside the vector is a vacant slot. -/
lemma Linked.head_vacant (h : Linked slots freeHead) {slot : Slot V}
    (hslot : slots[freeHead.toNat]? = some slot) :
    ∃ next, slot.state = .vacant next := by
  rcases h.chained.head_vacant hslot with ⟨version, next, rfl, -⟩
  exact ⟨next, rfl⟩

/-- Emptying an occupied slot leaves every other vacant slot on the free list. -/
lemma Linked.vacate (h : Linked slots freeHead) {index version : UInt32} {value : V}
    (hslot : slots[index.toNat]? = some ⟨version, .occupied value⟩) :
    Linked (slots.set index.toNat ⟨version + 1, .vacant freeHead⟩) index := by
  have hget := getElem?_set_eq hslot ⟨version + 1, .vacant freeHead⟩
  rcases h.free with ⟨free, hfree, hnodup, hmem⟩
  have hout := hfree.notMem_of_occupied hslot
  have hhead : FreeList (slots.set index.toNat ⟨version + 1, .vacant freeHead⟩) index.toNat
      (index.toNat :: free) := .link (by rw [hget, if_pos rfl]) (hfree.set hout _)
  refine (h.chained.vacate hslot).linked hhead (List.nodup_cons.mpr ⟨hout, hnodup⟩) fun i => ?_
  rw [hget, List.mem_cons, hmem]
  split_ifs with hindex
  · have hpos := hindex ▸ h.pos_of_occupied hslot
    exact ⟨fun _ => ⟨hpos, version + 1, freeHead, rfl⟩, fun _ => .inl hindex.symm⟩
  · exact ⟨fun hi => hi.resolve_left (Ne.symm hindex), .inr⟩

/-- Filling the slot at the free head takes this slot and no other off the free list. -/
lemma Linked.fill (h : Linked slots freeHead) {version next : UInt32}
    (hslot : slots[freeHead.toNat]? = some ⟨version, .vacant next⟩) (value : V) :
    Linked (slots.set freeHead.toNat ⟨version ||| 1, .occupied value⟩) next := by
  have hchained := h.chained.fill hslot value
  have hget := getElem?_set_eq hslot ⟨version ||| 1, .occupied value⟩
  rcases h.free with ⟨free, hfree, hnodup, hmem⟩
  generalize freeHead.toNat = head at hfree hslot hget hchained
  cases hfree with
  | done => simp at hslot
  | @link _ _ next' rest hvacant hrest =>
    rw [hvacant] at hslot
    cases hslot
    rcases List.nodup_cons.mp hnodup with ⟨hout, hnodup⟩
    refine hchained.linked (hrest.set hout _) hnodup fun i => ?_
    have hi := hmem i
    rw [List.mem_cons] at hi
    rw [hget]
    split_ifs with hindex
    · rcases hindex with rfl
      simp [hout]
    · rw [← hi]
      exact ⟨.inr, fun h => h.resolve_left (Ne.symm hindex)⟩

/-- A free head outside the vector is its length, and no slot but the sentinel is vacant. -/
lemma Linked.head_eq_length (h : Linked slots freeHead)
    (hslot : slots[freeHead.toNat]? = none) :
    freeHead.toNat = slots.length ∧
      ∀ i, 0 < i → ∀ version next, slots[i]? ≠ some ⟨version, .vacant next⟩ := by
  rcases h.free with ⟨free, hfree, -, hmem⟩
  generalize hhead : freeHead.toNat = head at hfree
  cases hfree with
  | done =>
    refine ⟨rfl, fun i hi version next hvacant => ?_⟩
    have := (hmem i).mpr ⟨hi, version, next, hvacant⟩
    simp at this
  | link hvacant =>
    rw [hhead, hvacant] at hslot
    simp at hslot

/-- With no vacant slot left a new one is pushed. -/
lemma Linked.push (h : Linked slots freeHead) (hslot : slots[freeHead.toNat]? = none)
    {index : UInt32} (hindex : pushIndex slots.length = some index) (value : V) :
    Linked (slots ++ [⟨1, .occupied value⟩]) (index + 1) := by
  have hget := getElem?_push slots ⟨1, .occupied value⟩
  have hfull := (h.head_eq_length hslot).2
  have hnext : FreeList (slots ++ [⟨1, .occupied value⟩]) (index + 1).toNat [] := by
    rw [toNat_pushIndex_succ hindex ⟨1, .occupied value⟩]
    exact .done
  refine (h.chained.push hindex value).linked hnext List.nodup_nil fun i => ?_
  simp only [List.not_mem_nil, false_iff, not_and]
  rintro hi ⟨version, next, hvacant⟩
  rw [hget] at hvacant
  split_ifs at hvacant with hend
  · simp at hvacant
  · exact hfull i hi version next hvacant

/-! ### Writing over values -/

lemma getElem?_write (write : ℕ → V → V) (slots : List (Slot V)) (i : ℕ) :
    (slots.mapIdx (Slot.write write))[i]? = slots[i]?.map (Slot.write write i) := by
  rw [List.getElem?_mapIdx]

lemma write_eq_vacant {write : ℕ → V → V} {i : ℕ} {slot : Slot V} {version next : UInt32} :
    slot.write write i = ⟨version, .vacant next⟩ ↔ slot = ⟨version, .vacant next⟩ := by
  rcases slot with ⟨version', _ | _⟩ <;> simp [Slot.write]

lemma getElem?_write_eq_vacant {write : ℕ → V → V} {i : ℕ} {version next : UInt32} :
    (slots.mapIdx (Slot.write write))[i]? = some ⟨version, .vacant next⟩ ↔
      slots[i]? = some ⟨version, .vacant next⟩ := by
  rw [getElem?_write]
  cases slots[i]? with
  | none => simp
  | some slot => simpa using write_eq_vacant

lemma FreeList.write {head : ℕ} {free : List ℕ} (h : FreeList slots head free)
    (write : ℕ → V → V) : FreeList (slots.mapIdx (Slot.write write)) head free := by
  induction h with
  | done =>
    have hlength : (slots.mapIdx (Slot.write write)).length = slots.length := List.length_mapIdx
    rw [← hlength]
    exact .done
  | link hslot _ ih => exact .link (getElem?_write_eq_vacant.mpr hslot) ih

/-- Writing over the values leaves the links as they are. -/
lemma Chained.write (h : Chained slots freeHead) (write : ℕ → V → V) :
    Chained (slots.mapIdx (Slot.write write)) freeHead := by
  rcases h.free with ⟨free, hfree, hnodup, hpos⟩
  refine ⟨getElem?_write_eq_vacant.mpr h.sentinel, fun {i slot} hi => ?_,
    by rw [List.length_mapIdx]; exact h.length_lt, free, hfree.write write, hnodup, hpos⟩
  rw [getElem?_write, Option.map_eq_some_iff] at hi
  rcases hi with ⟨⟨version, value | next⟩, hi, rfl⟩
  · have hodd : Slot.Parity ⟨version, .occupied value⟩ := h.parity hi
    exact hodd
  · have heven : Slot.Parity ⟨version, .vacant next⟩ := h.parity hi
    exact heven

lemma Linked.write (h : Linked slots freeHead) (write : ℕ → V → V) :
    Linked (slots.mapIdx (Slot.write write)) freeHead := by
  rcases h.free with ⟨free, hfree, hnodup, hmem⟩
  refine (h.chained.write write).linked (hfree.write write) hnodup fun i => ?_
  simp only [hmem, getElem?_write_eq_vacant]

end Steps

end DoomFishUtils.SlotMap
