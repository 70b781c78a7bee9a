import DoomFishUtils.Spsc.Protocol

/-!
# Calls without interference

A call whose accesses no other call interrupts finishes after at most seven of them, and the
ring is then a bounded queue: `Holds capacity r v items` reads the queued items off the slots.
-/

namespace DoomFishUtils.Spsc
set_option autoImplicit false
open Library

variable {T : Type*}

namespace Ring

/-- The accesses of a call up to the one with which it returns. -/
def finish : ℕ → Ring T → Pc T → Option (Answer T × Ring T)
  | 0, _, _ => none
  | fuel + 1, r, pc =>
    match r.advance false pc with
    | (r, _, [.returned answer]) => some (answer, r)
    | (r, pc, _) => finish fuel r pc

/-- `Ring::push` as one step. -/
def push (r : Ring T) (item : T) (overwrite : Bool) : Option (Answer T × Ring T) :=
  finish 7 r (.pushLoadWrite item overwrite)

/-- `Ring::pop` as one step. -/
def pop (r : Ring T) : Option (Answer T × Ring T) :=
  finish 5 r .popLoadRead

/-- The slot of the `i`th number from `v` on, in a ring that queues the items from there. -/
def queued (capacity v : ℕ) (items : List T) (i : ℕ) : Slot T :=
  match items[i]? with
  | some item => ⟨cursor capacity (v + i) + 1, some item⟩
  | none => ⟨cursor capacity (v + i), none⟩

/-- The ring is between calls and queues the items, the first under number `v`. -/
structure Holds (capacity : ℕ) (r : Ring T) (v : ℕ) (items : List T) : Prop where
  shaped : r.Shaped capacity
  read : r.read = cursor capacity v
  write : r.write = cursor capacity (v + items.length)
  length_le : items.length ≤ capacity
  slots : ∀ i < capacity, r.slots[(v + i) % capacity]? = some (queued capacity v items i)

section Queued

variable {capacity v i : ℕ} {items : List T} {item : T}

lemma queued_of_lt (h : i < items.length) :
    queued capacity v items i = ⟨cursor capacity (v + i) + 1, some (items[i])⟩ := by
  rw [queued, List.getElem?_eq_getElem h]

lemma queued_of_le (h : items.length ≤ i) :
    queued capacity v items i = ⟨cursor capacity (v + i), none⟩ := by
  rw [queued, List.getElem?_eq_none h]

lemma queued_append (h : i ≠ items.length) :
    queued capacity v (items ++ [item]) i = queued capacity v items i := by
  unfold queued
  rcases Nat.lt_or_ge i items.length with hlt | hge
  · rw [List.getElem?_append_left hlt]
  · rw [List.getElem?_append_right hge, List.getElem?_eq_none hge,
      List.getElem?_eq_none (by simp; omega)]

/-- Without the first item the numbers shift by one. -/
lemma queued_succ : queued capacity (v + 1) items i = queued capacity v (item :: items) (i + 1) := by
  unfold queued
  rw [List.getElem?_cons_succ, Nat.add_right_comm v 1 i, Nat.add_assoc]

end Queued

section Calls

variable {capacity v : ℕ} {r : Ring T} {items : List T}

lemma holds_new (capacity : ℕ) : (new capacity : Ring T).Holds capacity 0 [] where
  shaped := shaped_new capacity
  read := (cursor_zero capacity).symm
  write := (cursor_zero capacity).symm
  length_le := Nat.zero_le _
  slots i hi := by
    have hcursor : cursor capacity i = i * 2 := by
      rw [cursor, lapCursor, Nat.div_eq_of_lt hi, Nat.mod_eq_of_lt hi]
      omega
    rw [Nat.zero_add, Nat.mod_eq_of_lt hi, queued_of_le (Nat.zero_le _), Nat.zero_add, hcursor]
    simp [new, hi]

variable (hcap : 0 < capacity) (h : r.Holds capacity v items)
include hcap h

lemma Holds.slot_at {i : ℕ} (hi : i < capacity) :
    r.slot (cursor capacity (v + i)) = some (queued capacity v items i) := by
  rw [slot_cursor hcap h.shaped]
  exact h.slots i hi

/-- The slots after the value and the stamp of one number have been stored. -/
lemma Holds.slots_set {i : ℕ} (hi : i < capacity) (value : Option T) (stamp j : ℕ)
    (hj : j < capacity) :
    ((r.setValue (cursor capacity (v + i)) value).setStamp (cursor capacity (v + i)) stamp).slots[
        (v + j) % capacity]? =
      some (if j = i then ⟨stamp, value⟩ else queued capacity v items j) := by
  rw [getElem?_setStamp hcap (h.shaped.setValue _ _), getElem?_setValue hcap h.shaped, h.slots j hj]
  by_cases hij : j = i
  · rcases hij with rfl
    simp
  · have hmod : (v + i) % capacity ≠ (v + j) % capacity := by
      intro hmod
      have := eq_of_mod_eq_of_window v hmod (by omega) (by omega) (by omega) (by omega)
      omega
    rw [if_neg hmod, if_neg hmod, if_neg hij]

/-- As `slots_set` for the first number, whose slot serves the number one lap later next. -/
lemma Holds.slots_set_first {position : ℕ} (hindex : r.index position = r.index (cursor capacity v))
    (value : Option T) (stamp j : ℕ) (hj : j < capacity) :
    ((r.setValue position value).setStamp position stamp).slots[(v + 1 + j) % capacity]? =
      some (if j + 1 = capacity then ⟨stamp, value⟩ else queued capacity v items (j + 1)) := by
  have hset := h.slots_set hcap hcap value stamp
  have hindex' : (r.setValue position value).index position = r.index (cursor capacity v) := hindex
  unfold setStamp setValue at hset ⊢
  rw [Nat.add_zero, index, index] at hset
  unfold setValue at hindex'
  rw [hindex', hindex]
  by_cases hlast : j + 1 = capacity
  · rw [if_pos hlast, show v + 1 + j = v + 0 + capacity by omega, Nat.add_mod_right]
    exact hset 0 hcap
  · rw [if_neg hlast, show v + 1 + j = v + (j + 1) by omega]
    exact hset (j + 1) (by omega)

/-- The slot that a push into a free slot finds. -/
lemma Holds.slot_write_of_lt (hlt : items.length < capacity) :
    r.slot r.write = some ⟨r.write, none⟩ := by
  rw [h.write, h.slot_at hcap hlt, queued_of_le le_rfl]

/-- A full ring is written one lap after it is read, at the slot of its oldest item. -/
lemma Holds.slot_write_of_full {oldest : T} {rest : List T} (hitems : items = oldest :: rest)
    (hfull : items.length = capacity) :
    r.write = r.read + lapOf capacity ∧ r.slot r.write = some ⟨r.read + 1, some oldest⟩ := by
  subst hitems
  have hwrite : r.write = cursor capacity (v + capacity) := by rw [h.write, hfull]
  refine ⟨by rw [hwrite, h.read, cursor_add_capacity hcap], ?_⟩
  rw [hwrite, slot_cursor hcap h.shaped, Nat.add_mod_right]
  refine (h.slots 0 hcap).trans ?_
  rw [queued_of_lt (by simp), h.read]
  rfl

/-- The slot of the oldest item. -/
lemma Holds.slot_read_cons {item : T} {rest : List T} (hitems : items = item :: rest) :
    r.slot r.read = some ⟨r.read + 1, some item⟩ := by
  subst hitems
  have hslot := h.slot_at hcap hcap
  rwa [queued_of_lt (by simp), Nat.add_zero, ← h.read] at hslot

/-- An empty ring is read where it is written next. -/
lemma Holds.slot_read_nil (hitems : items = []) :
    r.write = r.read ∧ r.slot r.read = some ⟨r.read, none⟩ := by
  subst hitems
  have hslot := h.slot_at hcap hcap
  rw [queued_of_le (Nat.zero_le _), Nat.add_zero, ← h.read] at hslot
  exact ⟨h.write.trans h.read.symm, hslot⟩

/-- A push into a ring with a free slot. -/
lemma Holds.push_of_lt (hlt : items.length < capacity) (item : T) (overwrite : Bool) :
    ∃ r', r.push item overwrite = some (.pushed, r') ∧ r'.Holds capacity v (items ++ [item]) := by
  have hslot := h.slot_write_of_lt hcap hlt
  have hnext : r.next r.write = cursor capacity (v + (items ++ [item]).length) := by
    rw [h.write, next_cursor hcap h.shaped, List.length_append, List.length_singleton, Nat.add_assoc]
  refine ⟨({ r with write := r.next r.write }.setValue r.write (some item)).setStamp r.write
    (r.write + 1), ?_, ?_⟩
  · simp [push, finish, advance, hslot]
  · refine ⟨⟨?_, ?_⟩, h.read, hnext, ?_, fun j hj => ?_⟩
    · simp [setStamp, setValue, h.shaped.length]
    · exact h.shaped.lap
    · rw [List.length_append, List.length_singleton]
      exact hlt
    · have hset := h.slots_set hcap hlt (some item) (r.write + 1) j hj
      rw [← h.write] at hset
      refine hset.trans (congrArg some ?_)
      split_ifs with hj'
      · rw [hj', queued_of_lt (by simp), h.write]
        simp
      · exact (queued_append hj').symm

omit hcap in
lemma Holds.oldest_write (hfull : r.write = r.read + lapOf capacity) :
    r.oldest r.write = some r.read := by
  rw [oldest, h.shaped.lap, hfull, if_pos (Nat.le_add_left _ _), Nat.add_sub_cancel]

/-- A push without `overwrite` into a full ring. -/
lemma Holds.push_full (hfull : items.length = capacity) (item : T) :
    r.push item false = some (.full item, r) := by
  rcases items with _ | ⟨oldest, rest⟩
  · exact absurd hfull hcap.ne
  · rcases h.slot_write_of_full hcap rfl hfull with ⟨hwrite, hslot⟩
    have hlap := two_mul_le_lapOf capacity
    have hstamp : r.read + 1 ≠ r.write := by omega
    simp [push, finish, advance, hslot, hstamp, h.oldest_write hwrite]

/-- An overwriting push into a full ring displaces the oldest item. -/
lemma Holds.push_overwrite {oldest : T} {rest : List T} (hitems : items = oldest :: rest)
    (hfull : items.length = capacity) (item : T) :
    ∃ r', r.push item true = some (.displaced (cursor capacity v) oldest, r') ∧
      r'.Holds capacity (v + 1) (rest ++ [item]) := by
  rcases h.slot_write_of_full hcap hitems hfull with ⟨hposition, hslot⟩
  rw [h.read] at hposition hslot
  subst hitems
  have hlength : rest.length + 1 = capacity := hfull
  have hwrite : r.write = cursor capacity (v + capacity) := by rw [h.write, hfull]
  have hindex : r.index r.write = r.index (cursor capacity v) := by
    rw [hwrite, index_cursor hcap h.shaped, index_cursor hcap h.shaped, Nat.add_mod_right]
  have hlap := two_mul_le_lapOf capacity
  have hstamp : cursor capacity v + 1 ≠ r.write := by omega
  have holdest : r.oldest r.write = some (cursor capacity v) := by
    rw [h.oldest_write (h.read ▸ hposition), h.read]
  have hread : r.next (cursor capacity v) = cursor capacity (v + 1) := next_cursor hcap h.shaped v
  have hnext : r.next r.write = cursor capacity (v + 1 + (rest ++ [item]).length) := by
    rw [hwrite, next_cursor hcap h.shaped, List.length_append, List.length_singleton, hlength]
    congr 1
    omega
  refine ⟨({ r with read := r.next (cursor capacity v), write := r.next r.write }.setValue r.write
    (some item)).setStamp r.write (r.write + 1), ?_, ?_⟩
  · have hback : r.write - r.lap = cursor capacity v := by
      rw [hposition, h.shaped.lap, Nat.add_sub_cancel]
    have hmoved : ∀ read write, slot ⟨r.slots, r.lap, read, write⟩ r.write =
        some ⟨cursor capacity v + 1, some oldest⟩ := fun _ _ => hslot
    have hlap' : ∀ ring : Ring T, (ring.setValue r.write (some item)).lap = ring.lap := fun _ => rfl
    simp [push, finish, advance, hslot, hstamp, holdest, h.read, hmoved, hlap', hback]
    rfl
  · refine ⟨⟨?_, h.shaped.lap⟩, hread, hnext, ?_, fun j hj => ?_⟩
    · simp [setStamp, setValue, h.shaped.length]
    · simp [hlength]
    · refine (h.slots_set_first hcap hindex (some item) (r.write + 1) j hj).trans (congrArg some ?_)
      split_ifs with hlast
      · have hj' : j = rest.length := by omega
        rw [hj', queued_of_lt (by simp), hwrite, show v + capacity = v + 1 + rest.length by omega]
        simp
      · rw [queued_append (by omega), queued_succ]

/-- A pop of the oldest item. -/
lemma Holds.pop_cons {item : T} {rest : List T} (hitems : items = item :: rest) :
    ∃ r', r.pop = some (.popped (cursor capacity v) item, r') ∧ r'.Holds capacity (v + 1) rest := by
  have hslot := h.slot_read_cons hcap hitems
  rw [h.read] at hslot
  subst hitems
  have hle : rest.length + 1 ≤ capacity := h.length_le
  refine ⟨({ r with read := r.next (cursor capacity v) }.setValue (cursor capacity v)
    none).setStamp (cursor capacity v) (cursor capacity v + r.lap), ?_, ?_⟩
  · have hmoved : ∀ read, slot ⟨r.slots, r.lap, read, r.write⟩ (cursor capacity v) =
        some ⟨cursor capacity v + 1, some item⟩ := fun _ => hslot
    simp [pop, finish, advance, hslot, h.read, hmoved]
    rfl
  · refine ⟨⟨?_, h.shaped.lap⟩, next_cursor hcap h.shaped v, ?_, Nat.le_of_succ_le hle,
      fun j hj => ?_⟩
    · simp [setStamp, setValue, h.shaped.length]
    · refine h.write.trans ?_
      rw [List.length_cons, Nat.add_assoc, Nat.add_comm 1]
    · refine (h.slots_set_first hcap rfl none _ j hj).trans (congrArg some ?_)
      split_ifs with hlast
      · rw [queued_of_le (by omega), h.shaped.lap, ← cursor_add_capacity hcap,
          show v + capacity = v + 1 + j by omega]
      · rw [queued_succ]

/-- A pop of an empty ring. -/
lemma Holds.pop_nil (hitems : items = []) : r.pop = some (.empty, r) := by
  rcases h.slot_read_nil hcap hitems with ⟨hwrite, hslot⟩
  simp [pop, finish, advance, hslot, hwrite]

end Calls

end Ring

end DoomFishUtils.Spsc
