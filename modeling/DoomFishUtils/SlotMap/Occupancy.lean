import DoomFishUtils.SlotMap.Consistency
import Mathlib.Order.Bounds.Defs

/-!
# The occupancy of the slots

Each slot is the sentinel, holds a value or is on the free list.  A slot is pushed only when none
is free, so that the vector has as many slots besides the sentinel as there ever were values at
once.
-/

namespace DoomFishUtils.SlotMap

set_option autoImplicit false

variable {V : Type}

/-- What makes the free list exact. -/
structure FreeListExact (map : SlotMap V) : Prop where
  /-- The links from `freeHead` visit every vacant slot but the sentinel once and no other slot, up
  to the length of the vector, and with the live values these are all slots. -/
  walk : ∃ free, FreeList map.slots map.freeHead.toNat free ∧ free.Nodup ∧
    (∀ i, i ∈ free ↔ 0 < i ∧ ∃ version next, map.slots[i]? = some ⟨version, .vacant next⟩) ∧
    map.values.length + free.length + 1 = map.slots.length
  /-- An insert finds a vacant slot at the free head, or pushes the slot that this is to be. -/
  reuse : ∀ slot, map.slots[map.freeHead.toNat]? = some slot →
    ∃ version next, slot = ⟨version, .vacant next⟩
  push : map.slots[map.freeHead.toNat]? = none → map.freeHead.toNat = map.slots.length
  /-- The sum and the conversions of indices in `u32` are exact. -/
  push_succ : ∀ index, pushIndex map.slots.length = some index →
    index.toNat = map.slots.length ∧ (index + 1).toNat = index.toNat + 1
  index_exact : ∀ i < map.slots.length, i < 2 ^ 32 ∧ (UInt32.ofNat i).toNat = i

/-- The number of live values before an operation. -/
def liveBefore (map : SlotMap V) (_ : Op V × Except Panic (Response V)) : List ℕ :=
  [map.values.length]

section Counting

variable {slots : List (Slot V)} {freeHead : UInt32} {free : List ℕ}

lemma value_isSome_eq_false {slot : Slot V} :
    slot.value.isSome = false ↔ ∃ version next, slot = ⟨version, .vacant next⟩ := by
  rcases slot with ⟨version, value | next⟩ <;> simp [Slot.value]

lemma mem_findIdxs_vacant {i : ℕ} : i ∈ slots.findIdxs (fun slot => !slot.value.isSome) ↔
    ∃ version next, slots[i]? = some ⟨version, .vacant next⟩ := by
  rw [List.mem_findIdxs_iff_exists_getElem_pos]
  constructor
  · rintro ⟨hlt, hnone⟩
    rw [Bool.not_eq_true'] at hnone
    obtain ⟨version, next, hslot⟩ := value_isSome_eq_false.mp hnone
    exact ⟨version, next, List.getElem?_eq_some_iff.mpr ⟨hlt, hslot⟩⟩
  · rintro ⟨version, next, hslot⟩
    obtain ⟨hlt, hget⟩ := List.getElem?_eq_some_iff.mp hslot
    refine ⟨hlt, ?_⟩
    rw [hget]
    rfl

/-- No slot is lost: one for the sentinel, one for each live value, and the free ones. -/
lemma Linked.length_values_add_free (h : Linked slots freeHead) (hnodup : free.Nodup)
    (hmem : ∀ i, i ∈ free ↔ 0 < i ∧ ∃ version next, slots[i]? = some ⟨version, .vacant next⟩) :
    (slots.filterMap Slot.value).length + free.length + 1 = slots.length := by
  have hout : 0 ∉ free := fun hzero => absurd ((hmem 0).mp hzero).1 (Nat.lt_irrefl 0)
  have hperm : (slots.findIdxs fun slot => !slot.value.isSome).Perm (0 :: free) := by
    refine (List.perm_ext_iff_of_nodup List.nodup_findIdxs
      (List.nodup_cons.mpr ⟨hout, hnodup⟩)).mpr fun i => ?_
    rw [mem_findIdxs_vacant, List.mem_cons, hmem]
    rcases Nat.eq_zero_or_pos i with rfl | hpos
    · exact iff_of_true ⟨0, 0, h.sentinel⟩ (.inl rfl)
    · exact ⟨fun hslot => .inr ⟨hpos, hslot⟩, fun hi => (hi.resolve_left hpos.ne').2⟩
  have hcount := hperm.length_eq
  rw [List.length_findIdxs, List.length_cons] at hcount
  have htotal := List.length_eq_countP_add_countP (fun slot => slot.value.isSome) (l := slots)
  simp only [Bool.not_eq_true, ← Bool.not_eq_true', Bool.decide_eq_true] at htotal
  rw [List.length_filterMap_eq_countP]
  omega

end Counting

section Runs

variable {map : SlotMap V} {dropPanics : V → Bool} {op : Op V}

lemma Inv.freeListExact (h : Inv map) : FreeListExact map where
  walk := by
    obtain ⟨free, hfree, hnodup, hmem⟩ := h.linked.free
    exact ⟨free, hfree, hnodup, hmem, h.linked.length_values_add_free hnodup hmem⟩
  reuse slot hslot := by
    obtain ⟨version, next, heq, -⟩ := h.linked.chained.head_vacant hslot
    exact ⟨version, next, heq⟩
  push hslot := (h.linked.head_eq_length hslot).1
  push_succ index hindex := by
    obtain ⟨-, hlength⟩ := pushIndex_eq_some hindex
    have hsucc := toNat_pushIndex_succ hindex ⟨0, .vacant 0⟩
    rw [List.length_append, List.length_singleton, ← hlength] at hsucc
    exact ⟨hlength, hsucc⟩
  index_exact i hi := by
    have hlt : i < 2 ^ 32 := hi.trans h.linked.length_lt
    exact ⟨hlt, UInt32.toNat_ofNat_of_lt' hlt⟩

/-- Every live value has a slot besides the sentinel, and with the free list used up every such
slot holds a value. -/
lemma Inv.length_values (h : Inv map) :
    map.values.length + 1 ≤ map.slots.length ∧
      (map.slots[map.freeHead.toNat]? = none → map.values.length + 1 = map.slots.length) := by
  obtain ⟨free, hfree, hnodup, hmem⟩ := h.linked.free
  have htotal := h.linked.length_values_add_free hnodup hmem
  unfold values
  refine ⟨by omega, fun hslot => ?_⟩
  generalize map.freeHead.toNat = head at hfree hslot
  cases hfree with
  | done =>
    rw [List.length_nil] at htotal
    omega
  | link hvacant =>
    rw [hvacant] at hslot
    cases hslot

/-- An operation that does not unwind midway adds no slot, or one that makes the map full of
values. -/
lemma Inv.grow (h : Inv map) (hclean : Clean dropPanics map op) :
    (map.apply dropPanics op).2.slots.length = map.slots.length ∨
      (map.apply dropPanics op).2.slots.length = map.slots.length + 1 ∧
        (map.apply dropPanics op).2.values.length = map.slots.length := by
  by_cases hop : ∃ value, op = .insert value
  · obtain ⟨value, rfl⟩ := hop
    rw [apply_insert]
    rcases insert_cases h.linked.chained value with ⟨version, next, -, heq⟩ |
      ⟨hslot, index, -, heq⟩ | ⟨-, -, heq⟩ <;> rw [heq]
    · exact .inl List.length_set
    · refine .inr ⟨by simp, ?_⟩
      rw [← h.length_values.2 hslot]
      simp [values, Slot.value]
    · exact .inl rfl
  · exact .inl (length_apply dropPanics h.linked.chained fun value heq => hop ⟨value, heq⟩)

lemma Inv.clean (h : Inv map) (hno : ¬UnwindsMidway (op, (map.apply dropPanics op).1)) :
    Clean dropPanics map op := by
  cases op with
  | insert value =>
    rcases insert_cases h.linked.chained value with ⟨_, _, hslot, -⟩ | ⟨-, index, hindex, -⟩ |
      ⟨-, -, heq⟩
    · exact .inl (lt_length_of_getElem?_eq_some hslot)
    · exact .inr (pushIndex_eq_some hindex).1
    · refine absurd (.inl ?_) hno
      rw [apply_insert, heq]
      rfl
  | clear =>
    rcases @clear_outcome V map dropPanics h with ⟨-, hvalues⟩ | ⟨herror, -⟩
    · exact hvalues
    · refine absurd (.inr ?_) hno
      rw [apply_clear, herror]
      rfl
  | remove => exact trivial
  | get => exact trivial
  | getMut => exact trivial
  | valuesMut => exact trivial
  | index => exact trivial
  | indexMut => exact trivial

/-- The invariant with the live counts of the run so far. -/
structure PeakInv (state : SlotMap V × List ℕ) : Prop where
  inv : Inv state.1
  peak : IsGreatest {n | n ∈ state.1.values.length :: state.2} (state.1.slots.length - 1)

lemma PeakInv.step {state state' : SlotMap V × List ℕ} {answer : Except Panic (Response V)}
    (h : PeakInv state) (hno : ¬UnwindsMidway (op, answer))
    (happly : state.1.apply dropPanics op = (answer, state'.1))
    (hlive : state'.2 = state.1.values.length :: state.2) : PeakInv state' := by
  have hclean : Clean dropPanics state.1 op := by
    refine h.inv.clean ?_
    rw [happly]
    exact hno
  have hinv := h.inv.apply hclean
  have hgrow := h.inv.grow hclean
  rw [happly] at hinv hgrow
  dsimp only at hinv hgrow
  have hbound := hinv.length_values.1
  have hpeak := h.peak.2
  refine ⟨hinv, ?_, fun n hn => ?_⟩
  · change _ ∈ _ :: state'.2
    rw [hlive, List.mem_cons]
    rcases hgrow with hsame | ⟨hmore, hfull⟩
    · right
      rw [hsame]
      exact h.peak.1
    · -- The slot that is pushed makes the number of live values a new maximum.
      left
      omega
  · change n ∈ _ :: state'.2 at hn
    rw [hlive, List.mem_cons] at hn
    rcases hn with rfl | hn
    · omega
    · have hle : n ≤ state.1.slots.length - 1 := hpeak hn
      omega

lemma peakInv_withCapacity (capacity : ℕ) :
    PeakInv ((withCapacity capacity, []) : SlotMap V × List ℕ) where
  inv := inv_withCapacity capacity
  peak := by
    refine ⟨List.mem_cons_self, fun n hn => ?_⟩
    obtain rfl := List.mem_singleton.mp hn
    exact le_rfl

end Runs

/-- Along every run in which no operation unwinds midway the free list is exact, and the slots
besides the sentinel are as many as there were values at most at once. -/
theorem slotMap_freeList_exact (dropPanics : V → Bool) (capacity : ℕ)
    {labels : List (Op V × Except Panic (Response V))} {map : SlotMap V} {live : List ℕ}
    (hrun : ((slotMapSystem dropPanics capacity).recorded liveBefore).Run
      (withCapacity capacity, []) labels (map, live))
    (hno : ∀ label ∈ labels, ¬UnwindsMidway label) :
    FreeListExact map ∧ IsGreatest {n | n ∈ map.values.length :: live} (map.slots.length - 1) := by
  have h : PeakInv (map, live) := by
    refine hrun.invariant (A := fun label => ¬UnwindsMidway label) ?_ hno
      (peakInv_withCapacity capacity)
    rintro state ⟨op, answer⟩ state' hlabel hstate ⟨happly, hlive⟩
    exact hstate.step hlabel happly hlive
  exact ⟨h.inv.freeListExact, h.peak⟩

/-- Two inserts, a remove and a clear leave both slots on the free list. -/
theorem slotMap_freeList_exact_cleared :
    FreeListExact (⟨[⟨0, .vacant 0⟩, ⟨2, .vacant 3⟩, ⟨2, .vacant 1⟩], 2, 0⟩ : SlotMap Bool) ∧
      IsGreatest {n | n ∈ [0, 1, 2, 1, 0]} 2 := by
  have hfirst : ((slotMapSystem (fun _ : Bool => false) 0).recorded liveBefore).step
      (withCapacity 0, []) (.insert true, .ok (.key (KeyData.new 1 1)))
      (⟨[⟨0, .vacant 0⟩, ⟨1, .occupied true⟩], 2, 1⟩, [0]) := ⟨rfl, rfl⟩
  have hsecond : ((slotMapSystem (fun _ : Bool => false) 0).recorded liveBefore).step
      (⟨[⟨0, .vacant 0⟩, ⟨1, .occupied true⟩], 2, 1⟩, [0])
      (.insert false, .ok (.key (KeyData.new 2 1)))
      (⟨[⟨0, .vacant 0⟩, ⟨1, .occupied true⟩, ⟨1, .occupied false⟩], 3, 2⟩, [1, 0]) := ⟨rfl, rfl⟩
  have hremove : ((slotMapSystem (fun _ : Bool => false) 0).recorded liveBefore).step
      (⟨[⟨0, .vacant 0⟩, ⟨1, .occupied true⟩, ⟨1, .occupied false⟩], 3, 2⟩, [1, 0])
      (.remove (KeyData.new 1 1), .ok (.value (some true)))
      (⟨[⟨0, .vacant 0⟩, ⟨2, .vacant 3⟩, ⟨1, .occupied false⟩], 1, 1⟩, [2, 1, 0]) := ⟨rfl, rfl⟩
  have hclear : ((slotMapSystem (fun _ : Bool => false) 0).recorded liveBefore).step
      (⟨[⟨0, .vacant 0⟩, ⟨2, .vacant 3⟩, ⟨1, .occupied false⟩], 1, 1⟩, [2, 1, 0])
      (.clear, .ok .unit)
      (⟨[⟨0, .vacant 0⟩, ⟨2, .vacant 3⟩, ⟨2, .vacant 1⟩], 2, 0⟩, [1, 2, 1, 0]) := ⟨rfl, rfl⟩
  exact slotMap_freeList_exact (fun _ => false) 0
    ((((Library.System.Run.nil.snoc hfirst).snoc hsecond).snoc hremove).snoc hclear)
    (by simp [UnwindsMidway])

end DoomFishUtils.SlotMap
