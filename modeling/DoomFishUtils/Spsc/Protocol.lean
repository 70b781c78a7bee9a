import DoomFishUtils.Library.LapCursor
import DoomFishUtils.Spsc.Ring

/-!
# The slot protocol of the ring

Every slot is in one phase: free, being written, full, being read, or being replaced by an
overwrite. The phase says which cursor number the slot serves, which thread holds it and
how far that thread has come. `Inv` ties the phases to the memory, to the program points
of all threads and to the events so far; this file proves what the memory operations do
to the numbers and states the invariant.
-/

namespace DoomFishUtils.Spsc
set_option autoImplicit false
open Library

variable {ι T : Type*}

/-! ### Cursor values of a ring -/

/-- The stride between laps that `Ring::new` chooses. -/
def lapOf (capacity : ℕ) : ℕ :=
  nextPowerOfTwo capacity * 2

/-- The `v`th value of a cursor on a ring of the given capacity. -/
def cursor (capacity v : ℕ) : ℕ :=
  lapCursor capacity (lapOf capacity) v

lemma le_nextPowerOfTwo (n : ℕ) : n ≤ nextPowerOfTwo n :=
  Nat.le_pow_clog (by decide) n

lemma two_mul_le_lapOf (capacity : ℕ) : 2 * capacity ≤ lapOf capacity := by
  have := le_nextPowerOfTwo capacity
  unfold lapOf
  omega

lemma lapOf_eq_two_pow (capacity : ℕ) : ∃ k, lapOf capacity = 2 ^ k := by
  exact ⟨Nat.clog 2 capacity + 1, by rw [lapOf, nextPowerOfTwo, Nat.pow_succ]⟩

lemma and_lapOf_sub_one (capacity position : ℕ) :
    position &&& (lapOf capacity - 1) = position % lapOf capacity := by
  rcases lapOf_eq_two_pow capacity with ⟨k, hk⟩
  rw [hk, Nat.and_two_pow_sub_one_eq_mod]

section Cursor

variable {capacity : ℕ} (hcap : 0 < capacity)
include hcap

lemma cursor_add_capacity (v : ℕ) :
    cursor capacity (v + capacity) = cursor capacity v + lapOf capacity :=
  lapCursor_add_cap hcap v

lemma cursor_inj {v u : ℕ} : cursor capacity v = cursor capacity u ↔ v = u :=
  lapCursor_inj hcap (two_mul_le_lapOf capacity)

lemma cursor_le_iff {v u : ℕ} : cursor capacity v ≤ cursor capacity u ↔ v ≤ u :=
  lapCursor_le_iff hcap (two_mul_le_lapOf capacity)

lemma cursor_add_one_le_iff {v u : ℕ} :
    cursor capacity v + 1 ≤ cursor capacity u ↔ v < u :=
  lapCursor_add_one_le_iff hcap (two_mul_le_lapOf capacity)

lemma cursor_le_add_one_iff {v u : ℕ} : cursor capacity v ≤ cursor capacity u + 1 ↔ v ≤ u :=
  lapCursor_le_add_one_iff hcap (two_mul_le_lapOf capacity)

lemma lapOf_le_cursor_iff {v : ℕ} : lapOf capacity ≤ cursor capacity v ↔ capacity ≤ v :=
  lap_le_lapCursor_iff hcap (two_mul_le_lapOf capacity)

end Cursor

lemma cursor_zero (capacity : ℕ) : cursor capacity 0 = 0 :=
  lapCursor_zero

/-! ### The memory operations on cursor values -/

namespace Ring

/-- The shape of a ring of the given capacity, which no access changes. -/
structure Shaped (capacity : ℕ) (r : Ring T) : Prop where
  length : r.slots.length = capacity
  lap : r.lap = lapOf capacity

section Shaped

variable {capacity : ℕ} {r : Ring T} (hcap : 0 < capacity) (h : r.Shaped capacity)
include hcap h

lemma index_cursor (v : ℕ) : r.index (cursor capacity v) = v % capacity := by
  rw [index, h.lap, and_lapOf_sub_one, cursor, lapCursor_mod hcap (two_mul_le_lapOf capacity),
    Nat.shiftRight_one]
  omega

lemma next_cursor (v : ℕ) : r.next (cursor capacity v) = cursor capacity (v + 1) := by
  have hmod : cursor capacity v % lapOf capacity = 2 * (v % capacity) :=
    lapCursor_mod hcap (two_mul_le_lapOf capacity) v
  rw [next, index_cursor hcap h, h.length, h.lap, and_lapOf_sub_one, hmod]
  simp only [cursor, lapCursor_succ hcap]
  rw [show lapCursor capacity (lapOf capacity) v - 2 * (v % capacity) =
    lapOf capacity * (v / capacity) by rw [lapCursor]; omega]

lemma oldest_cursor {v o : ℕ} (ho : r.oldest (cursor capacity v) = some o) :
    ∃ u, v = u + capacity ∧ o = cursor capacity u := by
  rw [oldest, h.lap] at ho
  split at ho
  · next hle =>
    have hv : capacity ≤ v := (lapOf_le_cursor_iff hcap).mp hle
    refine ⟨v - capacity, by omega, ?_⟩
    have he : v = v - capacity + capacity := by omega
    rw [he, cursor_add_capacity hcap, Nat.add_sub_cancel] at ho
    exact (Option.some.inj ho).symm
  · cases ho

lemma slot_cursor (v : ℕ) : r.slot (cursor capacity v) = r.slots[v % capacity]? := by
  rw [slot, index_cursor hcap h]

lemma exists_slot (v : ℕ) : ∃ slot, r.slots[v % capacity]? = some slot :=
  ⟨_, List.getElem?_eq_getElem (by rw [h.length]; exact Nat.mod_lt v hcap)⟩

lemma getElem?_setStamp (v stamp i : ℕ) :
    (r.setStamp (cursor capacity v) stamp).slots[i]? =
      if v % capacity = i then r.slots[i]?.map (fun slot => { slot with stamp }) else r.slots[i]? := by
  rw [setStamp, index_cursor hcap h, List.getElem?_modify]
  split <;> simp

lemma getElem?_setValue (v i : ℕ) (value : Option T) :
    (r.setValue (cursor capacity v) value).slots[i]? =
      if v % capacity = i then r.slots[i]?.map (fun slot => { slot with value }) else r.slots[i]? := by
  rw [setValue, index_cursor hcap h, List.getElem?_modify]
  split <;> simp

end Shaped

lemma Shaped.setStamp {capacity : ℕ} {r : Ring T} (h : r.Shaped capacity) (position stamp : ℕ) :
    (r.setStamp position stamp).Shaped capacity :=
  ⟨by simp [Ring.setStamp, h.length], h.lap⟩

lemma Shaped.setValue {capacity : ℕ} {r : Ring T} (h : r.Shaped capacity) (position : ℕ)
    (value : Option T) : (r.setValue position value).Shaped capacity :=
  ⟨by simp [Ring.setValue, h.length], h.lap⟩

lemma shaped_new (capacity : ℕ) : (new capacity : Ring T).Shaped capacity :=
  ⟨by simp [new], rfl⟩

end Ring

end DoomFishUtils.Spsc
