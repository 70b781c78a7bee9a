import DoomFishUtils.SlotMap.Unwinding

/-!
# Consistency of a map that goes on after a panic

`len`, `is_empty` and the free list agree with the slots after every operation of a run exactly
when no insert of the run finds the map full and no clear meets a value whose destructor panics.
-/

namespace DoomFishUtils.SlotMap

set_option autoImplicit false

variable {V : Type}

/-- What the fields say about the slots. -/
structure Consistent (map : SlotMap V) : Prop where
  len_eq : map.len = map.slots.countP fun slot => slot.value.isSome
  isEmpty_iff : map.isEmpty = true ↔ map.keys = []
  free : ∃ free, FreeList map.slots map.freeHead.toNat free ∧ ∀ i version next, 0 < i →
    map.slots[i]? = some ⟨version, .vacant next⟩ → i ∈ free

/-- The operation unwinds nowhere: an insert finds a vacant slot or room for one more, and a clear
finds no value whose destructor panics. -/
def Clean (dropPanics : V → Bool) (map : SlotMap V) : Op V → Prop
  | .insert _ => map.freeHead.toNat < map.slots.length ∨ map.slots.length < 2 ^ 32 - 1
  | .clear => ∀ value ∈ map.values, dropPanics value = false
  | _ => True

/-- The map is consistent before and after each operation, and an insert that panics leaves it
as it was. -/
def ConsistentRun (dropPanics : V → Bool) : SlotMap V → List (Op V) → Prop
  | map, [] => Consistent map
  | map, op :: ops =>
    Consistent map ∧
      (∀ value panic, op = .insert value → (map.insert value).1 = .error panic →
        (map.insert value).2 = map) ∧
      ConsistentRun dropPanics (map.apply dropPanics op).2 ops

def CleanRun (dropPanics : V → Bool) : SlotMap V → List (Op V) → Prop
  | _, [] => True
  | map, op :: ops =>
    Clean dropPanics map op ∧ CleanRun dropPanics (map.apply dropPanics op).2 ops

section Clear

variable {map : SlotMap V} {dropPanics : V → Bool}

lemma mem_values {value : V} :
    value ∈ map.values ↔
      ∃ (i : ℕ) (version : UInt32), map.slots[i]? = some ⟨version, .occupied value⟩ := by
  unfold values
  rw [List.mem_filterMap]
  constructor
  · rintro ⟨⟨version, value' | next⟩, hmem, hvalue⟩
    · cases hvalue
      rcases List.getElem?_of_mem hmem with ⟨i, hi⟩
      exact ⟨i, version, hi⟩
    · cases hvalue
  · rintro ⟨i, version, hi⟩
    exact ⟨_, List.mem_of_getElem? hi, rfl⟩

lemma length_values (map : SlotMap V) :
    map.values.length = map.slots.countP fun slot => slot.value.isSome := by
  unfold values
  rw [List.length_filterMap_eq_countP]

/-- The loop of `clear` goes through when no value of its indices panics, and else it stops with
fewer values under the same `len`. -/
lemma clearLoop_outcome : ∀ {indices : List ℕ} {map : SlotMap V},
    (∀ i ∈ indices, i < map.slots.length) →
    ((clearLoop dropPanics indices map).1 = .ok () ∧ ∀ i ∈ indices, ∀ version value,
      map.slots[i]? = some ⟨version, .occupied value⟩ → dropPanics value = false) ∨
    ((clearLoop dropPanics indices map).1 = .error .destructor ∧
      (clearLoop dropPanics indices map).2.len = map.len ∧
      (clearLoop dropPanics indices map).2.values.length < map.values.length ∧
      ∃ value ∈ map.values, dropPanics value = true)
  | [], _, _ => .inl ⟨rfl, fun _ hi => absurd hi List.not_mem_nil⟩
  | index :: indices, map, hlt => by
    have hrest : ∀ i ∈ indices, i < map.slots.length := fun i hi =>
      hlt i (List.mem_cons_of_mem _ hi)
    unfold clearLoop
    rcases hslot : map.slots[index]? with _ | ⟨version, value | next⟩
    · rw [List.getElem?_eq_getElem (hlt index List.mem_cons_self)] at hslot
      cases hslot
    · have hcount := length_filterMap_set ⟨version + 1, .vacant map.freeHead⟩ hslot
      have hget := getElem?_set_eq hslot ⟨version + 1, .vacant map.freeHead⟩
      have hfewer : ∀ head, (SlotMap.mk (map.slots.set index ⟨version + 1, .vacant map.freeHead⟩)
          head map.len).values.length < map.values.length := by
        intro head
        unfold values
        simp only [Slot.value, Option.toList_none, Option.toList_some, List.length_nil,
          List.length_singleton] at hcount
        dsimp only
        omega
      dsimp only
      by_cases hpanic : dropPanics value = true
      · rw [if_pos hpanic]
        exact .inr ⟨rfl, rfl, hfewer _, value, mem_values.mpr ⟨index, version, hslot⟩, hpanic⟩
      · rw [if_neg hpanic]
        have ih := @clearLoop_outcome indices
          ⟨map.slots.set index ⟨version + 1, .vacant map.freeHead⟩,
            if index < 2 ^ 32 then UInt32.ofNat index else 0xffffffff, map.len⟩
          (by rw [List.length_set]; exact hrest)
        rcases ih with ⟨hok, hclean⟩ | ⟨herror, hlen, hvalues, panicking, hmem, hpanics⟩
        · refine .inl ⟨hok, fun i hi version' value' hi' => ?_⟩
          by_cases hindex : index = i
          · rcases hindex with rfl
            rw [hslot] at hi'
            cases hi'
            exact Bool.eq_false_iff.mpr hpanic
          · refine hclean i ((List.mem_cons.mp hi).resolve_left (Ne.symm hindex)) version' value' ?_
            dsimp only
            rw [hget, if_neg hindex]
            exact hi'
        · refine .inr ⟨herror, hlen, hvalues.trans (hfewer _), panicking, ?_, hpanics⟩
          rcases mem_values.mp hmem with ⟨i, version', hi⟩
          dsimp only at hi
          rw [hget] at hi
          split_ifs at hi with hindex
          · cases hi
          · exact mem_values.mpr ⟨i, version', hi⟩
    · rcases clearLoop_outcome hrest with ⟨hok, hclean⟩ | herror
      · refine .inl ⟨hok, fun i hi version' value' hi' => ?_⟩
        rcases List.mem_cons.mp hi with rfl | hmem
        · rw [hslot] at hi'
          cases hi'
        · exact hclean i hmem version' value' hi'
      · exact .inr herror

/-- `clear` goes through when no value panics, and else it leaves `len` with fewer values. -/
lemma clear_outcome (h : Inv map) :
    ((map.clear dropPanics).1 = .ok () ∧ ∀ value ∈ map.values, dropPanics value = false) ∨
    ((map.clear dropPanics).1 = .error .destructor ∧ (map.clear dropPanics).2.len = map.len ∧
      (map.clear dropPanics).2.values.length < map.values.length ∧
      ∃ value ∈ map.values, dropPanics value = true) := by
  have hrange : ∀ i ∈ List.range' 1 (map.slots.length - 1), i < map.slots.length := by
    intro i hi
    have := List.mem_range'_1.mp hi
    omega
  have houtcome := @clearLoop_outcome V dropPanics _ map hrange
  unfold clear
  generalize clearLoop dropPanics (List.range' 1 (map.slots.length - 1)) map = result at houtcome
  rcases result with ⟨_ | _, last⟩
  · rcases houtcome with ⟨hok, -⟩ | herror
    · cases hok
    · exact .inr herror
  · rcases houtcome with ⟨-, hclean⟩ | ⟨herror, -⟩
    · refine .inl ⟨rfl, fun value hmem => ?_⟩
      rcases mem_values.mp hmem with ⟨i, version, hi⟩
      have hpos := h.linked.pos_of_occupied hi
      have hlt := lt_length_of_getElem?_eq_some hi
      exact hclean i (List.mem_range'_1.mpr ⟨hpos, by omega⟩) version value hi
    · cases herror

end Clear

section Runs

variable {map : SlotMap V} {dropPanics : V → Bool}

/-- Between operations that unwind nowhere the map is consistent. -/
lemma Inv.consistent (h : Inv map) : Consistent map := by
  rcases exists_keyMap h with ⟨M, hM⟩
  have hkeys : map.keys.length = map.values.length := by
    have := congrArg List.length (represents_of_get h hM).values
    rwa [List.length_map, List.length_map] at this
  rcases h.linked.free with ⟨free, hfree, -, hmem⟩
  refine ⟨h.len_eq.trans (length_values map), ?_, free, hfree, fun i version next hi hvacant => ?_⟩
  · rw [isEmpty, beq_iff_eq, h.len_eq, ← hkeys, List.length_eq_zero_iff]
  · exact (hmem i).mpr ⟨hi, version, next, hvacant⟩

lemma Consistent.len_eq_values (h : Consistent map) : map.len = map.values.length :=
  h.len_eq.trans (length_values map).symm

/-- An insert that panics finds the map full. -/
lemma not_clean_of_insert (h : Chained map.slots map.freeHead) {value : V} {panic : Panic}
    (hpanic : (map.insert value).1 = .error panic) : ¬Clean dropPanics map (.insert value) := by
  rcases insert_cases h value with ⟨version, next, -, heq⟩ | ⟨-, index, -, heq⟩ |
    ⟨hslot, hindex, -⟩
  · rw [heq] at hpanic
    cases hpanic
  · rw [heq] at hpanic
    cases hpanic
  · unfold pushIndex at hindex
    rintro (hhead | hroom)
    · rw [List.getElem?_eq_getElem hhead] at hslot
      cases hslot
    · rw [if_pos hroom] at hindex
      cases hindex

/-- An operation that unwinds nowhere keeps the invariant. -/
lemma Inv.apply (h : Inv map) {op : Op V} (hclean : Clean dropPanics map op) :
    Inv (map.apply dropPanics op).2 := by
  cases op with
  | insert value =>
    rcases insert_spec h value with hfull | ⟨key, -, hinserted⟩
    · exact absurd hclean (not_clean_of_insert h.linked.chained hfull)
    · exact hinserted.inv
  | remove key => exact (remove_spec h key).2.inv
  | clear =>
    rcases @clear_spec V map dropPanics h with hpanic | ⟨-, hcleared⟩
    · rcases @clear_outcome V map dropPanics h with ⟨hok, -⟩ | ⟨-, -, -, value, hmem, hpanics⟩
      · cases hok.symm.trans hpanic
      · rw [hclean value hmem] at hpanics
        cases hpanics
    · exact hcleared.inv
  | get key => exact h
  | getMut key write => exact (getMut_spec h key write).2.1
  | valuesMut write => exact inv_write h write
  | index key => exact h
  | indexMut key write =>
    change Inv (map.indexMut key write).2
    rw [indexMut_snd]
    exact (getMut_spec h key write).2.1

/-- An operation that unwinds leaves a wrong `len`. -/
lemma Inv.not_consistent_apply (h : Inv map) {op : Op V} (hclean : ¬Clean dropPanics map op) :
    ¬Consistent (map.apply dropPanics op).2 := by
  intro hconsistent
  have hlen := hconsistent.len_eq_values
  have hbefore := h.len_eq
  cases op with
  | insert value =>
    rw [apply_insert] at hlen
    rcases insert_cases h.linked.chained value with ⟨_, _, hslot, -⟩ | ⟨-, index, hindex, -⟩ |
      ⟨-, -, heq⟩
    · exact hclean (.inl (lt_length_of_getElem?_eq_some hslot))
    · exact hclean (.inr (pushIndex_eq_some hindex).1)
    · rw [heq] at hlen
      unfold values at hlen hbefore
      dsimp only at hlen
      omega
  | clear =>
    rcases @clear_outcome V map dropPanics h with ⟨-, hvalues⟩ | ⟨-, hlen', hfewer, -⟩
    · exact hclean hvalues
    · rw [apply_clear] at hlen
      dsimp only at hlen
      omega
  | remove => exact hclean trivial
  | get => exact hclean trivial
  | getMut => exact hclean trivial
  | valuesMut => exact hclean trivial
  | index => exact hclean trivial
  | indexMut => exact hclean trivial

lemma ConsistentRun.consistent {ops : List (Op V)} (h : ConsistentRun dropPanics map ops) :
    Consistent map := by
  cases ops with
  | nil => exact h
  | cons op ops => exact h.1

lemma consistentRun_iff (h : Inv map) (ops : List (Op V)) :
    ConsistentRun dropPanics map ops ↔ CleanRun dropPanics map ops := by
  induction ops generalizing map with
  | nil => exact ⟨fun _ => trivial, fun _ => h.consistent⟩
  | cons op ops ih =>
    constructor
    · rintro ⟨-, -, hrest⟩
      have hclean : Clean dropPanics map op := by
        by_contra hunclean
        exact h.not_consistent_apply hunclean hrest.consistent
      exact ⟨hclean, (ih (h.apply hclean)).mp hrest⟩
    · rintro ⟨hclean, hrest⟩
      refine ⟨h.consistent, ?_, (ih (h.apply hclean)).mpr hrest⟩
      rintro value panic rfl hpanic
      exact absurd hclean (not_clean_of_insert h.linked.chained hpanic)

end Runs

/-- A run of a new map stays consistent exactly when no operation of it unwinds midway. -/
theorem slotMap_consistent_iff_clean (dropPanics : V → Bool) (capacity : ℕ) (ops : List (Op V)) :
    ConsistentRun dropPanics (withCapacity capacity) ops ↔
      CleanRun dropPanics (withCapacity capacity) ops :=
  consistentRun_iff (inv_withCapacity capacity) ops

/-- A clear that meets a panicking destructor leaves `len` at two with one value, and a vacant slot
that no insert will find. -/
theorem clear_unwinding_inconsistent :
    ¬∀ (dropPanics : ℕ → Bool) (capacity : ℕ) (ops : List (Op ℕ)),
      ConsistentRun dropPanics (withCapacity capacity) ops := by
  intro h
  have hrun := h (fun value => value == 0) 0 [.insert 0, .insert 1, .clear]
  have hlast : Consistent _ := hrun.2.2.2.2.2.2
  have hlen := hlast.len_eq
  revert hlen
  decide

end DoomFishUtils.SlotMap
