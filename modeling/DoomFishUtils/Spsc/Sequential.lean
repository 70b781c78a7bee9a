import DoomFishUtils.Spsc.Words

/-!
# The ring as a bounded queue

The words of a ring that one thread uses are those of a ring with unbounded cursors, so that what
holds of the one holds of the other also after the words have wrapped.
-/

namespace DoomFishUtils.Spsc
set_option autoImplicit false
open Library

variable {T : Type}

def Slot.toWord (slot : Slot T) : WordSlot T :=
  ⟨UInt64.ofNat slot.stamp, slot.value⟩

namespace Ring

/-- The words of a ring. -/
def toWords (r : Ring T) : WordRing T where
  slots := r.slots.map Slot.toWord
  lap := UInt64.ofNat r.lap
  read := UInt64.ofNat r.read
  write := UInt64.ofNat r.write

/-! ### Words of cursors -/

section Words

/-- The stride between laps is a power of two that a word can hold. -/
lemma lapOf_eq_two_pow_lt {capacity : ℕ} (hfits : 8 * capacity < 2 ^ 63) :
    ∃ k < 62, lapOf capacity = 2 ^ k := by
  have hclog : Nat.clog 2 capacity ≤ 60 := Nat.clog_le_of_le_pow (by omega)
  exact ⟨Nat.clog 2 capacity + 1, by omega, by rw [lapOf, nextPowerOfTwo, Nat.pow_succ]⟩

variable {capacity : ℕ} {r : Ring T} (hfits : 8 * capacity < 2 ^ 63) (h : r.Shaped capacity)
include hfits h

lemma toNat_index_toWords (position : ℕ) :
    (r.toWords.index (UInt64.ofNat position)).toNat = r.index position := by
  rcases lapOf_eq_two_pow_lt hfits with ⟨k, hk, hlap⟩
  rw [WordRing.index, index, h.lap, and_lapOf_sub_one, toWords, h.lap, hlap,
    UInt64.toNat_shiftRight, toNat_and_lowMask (by omega)]
  rfl

lemma slot_toWords (position : ℕ) :
    r.toWords.slot (UInt64.ofNat position) = (r.slot position).map Slot.toWord := by
  rw [WordRing.slot, toNat_index_toWords hfits h, toWords, List.getElem?_map, slot]

lemma toNat_capacity_toWords : r.toWords.capacity.toNat = capacity := by
  rw [WordRing.capacity, toWords, List.length_map, h.length, UInt64.toNat_ofNat',
    Nat.mod_eq_of_lt (by omega)]

lemma next_toWords (hcap : 0 < capacity) (v : ℕ) :
    r.toWords.next (UInt64.ofNat (cursor capacity v)) =
      UInt64.ofNat (r.next (cursor capacity v)) := by
  rcases lapOf_eq_two_pow_lt hfits with ⟨k, hk, hlap⟩
  have hindex : (r.toWords.index (UInt64.ofNat (cursor capacity v))).toNat = v % capacity := by
    rw [toNat_index_toWords hfits h, index_cursor hcap h]
  have hlt : v % capacity < capacity := Nat.mod_lt v hcap
  have hlast : r.toWords.index (UInt64.ofNat (cursor capacity v)) + 1 = r.toWords.capacity ↔
      r.index (cursor capacity v) + 1 = r.slots.length := by
    rw [← UInt64.toNat_inj, UInt64.toNat_add, hindex, toNat_capacity_toWords hfits h,
      index_cursor hcap h, h.length, UInt64.toNat_one, Nat.mod_eq_of_lt (by omega)]
  unfold WordRing.next next
  simp only [hlast]
  split_ifs
  · rw [UInt64.ofNat_add, h.lap, and_lapOf_sub_one, toWords, h.lap, hlap,
      and_not_lowMask (by omega)]
  · rw [UInt64.ofNat_add]
    rfl

/-- The stores to a slot. -/
lemma fill_toWords (read write position stamp : ℕ) (value : Option T) :
    WordRing.fill { r.toWords with
      read := UInt64.ofNat read
      write := UInt64.ofNat write } (UInt64.ofNat position) value (UInt64.ofNat stamp) =
      (({ r with read := read, write := write }.setValue position value).setStamp position
        stamp).toWords := by
  have hslots : (r.slots.map Slot.toWord).set (r.index position) ⟨UInt64.ofNat stamp, value⟩ =
      ((r.slots.modify (r.index position) fun slot => { slot with value }).modify
        (r.index position) fun slot => { slot with stamp }).map Slot.toWord := by
    ext i : 1
    rw [List.getElem?_map, List.getElem?_modify, List.getElem?_modify, List.getElem?_set,
      List.getElem?_map, List.length_map]
    by_cases hi : r.index position = i
    · subst hi
      rcases hslot : r.slots[r.index position]? with _ | slot
      · have hout := List.getElem?_eq_none_iff.mp hslot
        simp [Nat.not_lt.mpr hout]
      · have hin := (List.getElem?_eq_some_iff.mp hslot).1
        simp [hin, Slot.toWord]
    · simp [hi]
  rw [WordRing.fill]
  congr 1
  exact (congrArg (fun index => (r.slots.map Slot.toWord).set index _)
    (toNat_index_toWords hfits h position)).trans hslots

end Words

/-! ### Calls on words -/

section Calls

variable {capacity v : ℕ} {r : Ring T} {items : List T} (hcap : 0 < capacity)
  (hfits : 8 * capacity < 2 ^ 63) (h : r.Holds capacity v items)
include hcap hfits h

lemma Holds.next_read_toWords :
    r.toWords.next (UInt64.ofNat r.read) = UInt64.ofNat (r.next r.read) := by
  rw [h.read, next_toWords hfits h.shaped hcap]

lemma Holds.next_write_toWords :
    r.toWords.next (UInt64.ofNat r.write) = UInt64.ofNat (r.next r.write) := by
  rw [h.write, next_toWords hfits h.shaped hcap]

omit hcap in
/-- A slot that is found in the ring is found in its words. -/
lemma Holds.slot_word {position stamp : ℕ} {value : Option T}
    (hslot : r.slot position = some ⟨stamp, value⟩) :
    r.toWords.slot (UInt64.ofNat position) = some ⟨UInt64.ofNat stamp, value⟩ := by
  rw [slot_toWords hfits h.shaped, hslot]
  rfl

lemma Holds.push_of_lt_toWords (hlt : items.length < capacity) (item : T) (overwrite : Bool) :
    ∃ r' : Ring T, r'.Holds capacity v (items ++ [item]) ∧
      r.toWords.push item overwrite = .done (.ok none, r'.toWords) := by
  rcases h.push_of_lt hcap hlt item overwrite with ⟨r', hpush, hholds⟩
  have hslot := h.slot_write_of_lt hcap hlt
  have hr' : ({ r with write := r.next r.write }.setValue r.write (some item)).setStamp r.write
      (r.write + 1) = r' := by
    simpa [push, finish, advance, hslot] using hpush
  refine ⟨r', hholds, (WordRing.push_free (h.slot_word hfits hslot)).trans ?_⟩
  rw [← hr', ← fill_toWords hfits h.shaped r.read (r.next r.write), UInt64.ofNat_add,
    ← h.next_write_toWords hcap hfits]
  rfl

/-- The words of a full ring. -/
lemma Holds.words_of_full (hfull : r.write = r.read + lapOf capacity) :
    r.toWords.read = r.toWords.write - r.toWords.lap ∧
      UInt64.ofNat (r.read + 1) ≠ r.toWords.write := by
  rcases lapOf_eq_two_pow_lt hfits with ⟨k, hk, hlap⟩
  have hsmall : lapOf capacity < 2 ^ 64 := by
    rw [hlap]
    exact Nat.pow_lt_pow_right (by decide) (by omega)
  have hlarge := two_mul_le_lapOf capacity
  constructor
  · change UInt64.ofNat r.read = UInt64.ofNat r.write - UInt64.ofNat r.lap
    rw [hfull, h.shaped.lap, UInt64.ofNat_add, UInt64.add_sub_cancel]
  · exact ofNat_ne_ofNat_of_lt (by omega) (by omega)

lemma Holds.push_full_toWords (hfull : items.length = capacity) (item : T) :
    r.toWords.push item false = .done (.error item, r.toWords) := by
  rcases items with _ | ⟨oldest, rest⟩
  · exact absurd hfull hcap.ne
  · rcases h.slot_write_of_full hcap rfl hfull with ⟨hwrite, hslot⟩
    rcases h.words_of_full hcap hfits hwrite with ⟨hread, hne⟩
    exact WordRing.push_full (h.slot_word hfits hslot) hread (UInt64.ofNat_add _ _) hne

lemma Holds.push_overwrite_toWords {oldest : T} {rest : List T} (hitems : items = oldest :: rest)
    (hfull : items.length = capacity) (item : T) :
    ∃ r' : Ring T, r'.Holds capacity (v + 1) (rest ++ [item]) ∧
      r.toWords.push item true = .done (.ok (some oldest), r'.toWords) := by
  rcases h.push_overwrite hcap hitems hfull item with ⟨r', hpush, hholds⟩
  rcases h.slot_write_of_full hcap hitems hfull with ⟨hwrite, hslot⟩
  rcases h.words_of_full hcap hfits hwrite with ⟨hread, hne⟩
  have hstamp : r.read + 1 ≠ r.write := fun heq => hne (congrArg UInt64.ofNat heq)
  have hmoved : ∀ read write, slot ⟨r.slots, r.lap, read, write⟩ r.write =
      some ⟨r.read + 1, some oldest⟩ := fun _ _ => hslot
  have hr' : ({ r with read := r.next r.read, write := r.next r.write }.setValue r.write
      (some item)).setStamp r.write (r.write + 1) = r' := by
    simp [push, finish, advance, hslot, hstamp, h.oldest_write hwrite, hmoved] at hpush
    exact hpush.2
  refine ⟨r', hholds, (WordRing.push_displacing (h.slot_word hfits hslot) hread
    (UInt64.ofNat_add _ _) hne).trans ?_⟩
  rw [← hr', ← fill_toWords hfits h.shaped (r.next r.read) (r.next r.write), UInt64.ofNat_add,
    ← h.next_write_toWords hcap hfits, ← h.next_read_toWords hcap hfits]
  rfl

lemma Holds.pop_cons_toWords {item : T} {rest : List T} (hitems : items = item :: rest) :
    ∃ r' : Ring T, r'.Holds capacity (v + 1) rest ∧
      r.toWords.pop = .done (some item, r'.toWords) := by
  rcases h.pop_cons hcap hitems with ⟨r', hpop, hholds⟩
  have hslot := h.slot_read_cons hcap hitems
  have hmoved : ∀ read, slot ⟨r.slots, r.lap, read, r.write⟩ r.read =
      some ⟨r.read + 1, some item⟩ := fun _ => hslot
  have hr' : ({ r with read := r.next r.read }.setValue r.read none).setStamp r.read
      (r.read + r.lap) = r' := by
    simp [pop, finish, advance, hslot, hmoved] at hpop
    exact hpop.2
  have hfilled : r.toWords.slot (UInt64.ofNat r.read) = some ⟨UInt64.ofNat r.read + 1, some item⟩ := by
    rw [h.slot_word hfits hslot, UInt64.ofNat_add]
    rfl
  refine ⟨r', hholds, (WordRing.pop_filled hfilled).trans ?_⟩
  rw [← hr', ← fill_toWords hfits h.shaped (r.next r.read) r.write, UInt64.ofNat_add,
    ← h.next_read_toWords hcap hfits]
  rfl

lemma Holds.pop_nil_toWords (hitems : items = []) :
    r.toWords.pop = .done (none, r.toWords) := by
  rcases h.slot_read_nil hcap hitems with ⟨hwrite, hslot⟩
  exact WordRing.pop_empty (h.slot_word hfits hslot) (congrArg UInt64.ofNat hwrite)

/-- `len` reads off the number of items. -/
lemma Holds.len_toWords : ∃ n : UInt64, r.toWords.len = .done n ∧ n.toNat = items.length := by
  refine ⟨_, WordRing.len_eq r.toWords, ?_⟩
  have hle := h.length_le
  have hlt : v % capacity < capacity := Nat.mod_lt v hcap
  have hcapacity := toNat_capacity_toWords hfits h.shaped
  have hreadIndex : (r.toWords.index r.toWords.read).toNat = v % capacity := by
    change (r.toWords.index (UInt64.ofNat r.read)).toNat = _
    rw [toNat_index_toWords hfits h.shaped, h.read, index_cursor hcap h.shaped]
  have hwriteIndex : (r.toWords.index r.toWords.write).toNat = (v + items.length) % capacity := by
    change (r.toWords.index (UInt64.ofNat r.write)).toNat = _
    rw [toNat_index_toWords hfits h.shaped, h.write, index_cursor hcap h.shaped]
  have hsame : r.toWords.read = r.toWords.write ↔ items.length = 0 := by
    change UInt64.ofNat r.read = UInt64.ofNat r.write ↔ _
    rw [h.read, h.write]
    constructor
    · intro heq
      by_contra hne
      rcases lapOf_eq_two_pow_lt hfits with ⟨k, hk, hlap⟩
      have hsmall : lapOf capacity < 2 ^ 64 := by
        rw [hlap]
        exact Nat.pow_lt_pow_right (by decide) (by omega)
      have hlower := (cursor_add_one_le_iff hcap).mpr (show v < v + items.length by omega)
      have hupper := (cursor_le_iff hcap).mpr (show v + items.length ≤ v + capacity by omega)
      rw [cursor_add_capacity hcap] at hupper
      exact ofNat_ne_ofNat_of_lt hlower (by omega) heq
    · intro hzero
      rw [hzero, Nat.add_zero]
  have hsplit : (v + items.length) % capacity = v % capacity + items.length ∨
      (v + items.length) % capacity + capacity = v % capacity + items.length := by
    rw [← Nat.mod_add_mod]
    rcases Nat.lt_or_ge (v % capacity + items.length) capacity with hinside | hacross
    · exact .inl (Nat.mod_eq_of_lt hinside)
    · rw [Nat.mod_eq_sub_mod hacross, Nat.mod_eq_of_lt (by omega)]
      exact .inr (Nat.sub_add_cancel hacross)
  simp only [hsame]
  split_ifs with hzero hless
  · exact hzero.symm
  · rw [UInt64.lt_iff_toNat_lt, hreadIndex, hwriteIndex] at hless
    rw [UInt64.toNat_sub_of_le _ _ (UInt64.le_iff_toNat_le.mpr (by omega)), hreadIndex, hwriteIndex]
    omega
  · rw [UInt64.lt_iff_toNat_lt, hreadIndex, hwriteIndex] at hless
    rw [UInt64.toNat_add, UInt64.toNat_sub_of_le _ _ (UInt64.le_iff_toNat_le.mpr (by omega)),
      hreadIndex, hwriteIndex, hcapacity, Nat.mod_eq_of_lt (by omega)]
    omega

end Calls

lemma toWords_new {capacity : ℕ} : (new capacity : Ring T).toWords = WordRing.new capacity := by
  unfold toWords new WordRing.new
  congr 1
  · rw [List.map_map]
    refine List.map_congr_left fun index _ => ?_
    simp [Slot.toWord, UInt64.ofNat_mul]
  · rw [UInt64.ofNat_mul]
    rfl

end Ring

/-! ### Sequences of calls -/

namespace WordRing

/-- The ring is the words of one that queues the items. -/
def Queues (capacity : ℕ) (ring : WordRing T) (items : List T) : Prop :=
  ∃ (r : Ring T) (v : ℕ), r.Holds capacity v items ∧ ring = r.toWords

section Calls

variable {capacity : ℕ} {ring : WordRing T} {items : List T} (hcap : 0 < capacity)
  (hfits : 8 * capacity < 2 ^ 63)
include hcap hfits

/-- A call returns in its first round what the queue returns, and leaves the words of the queue. -/
lemma Queues.perform (h : ring.Queues capacity items) (call : Call T) :
    ∃ ring', ring.perform call = .done ((Fifo.perform capacity items call).1, ring') ∧
      ring'.Queues capacity (Fifo.perform capacity items call).2 := by
  rcases h with ⟨r, v, hholds, rfl⟩
  cases call with
  | push item overwrite =>
    unfold WordRing.perform Fifo.perform
    dsimp only
    rcases Nat.lt_or_eq_of_le hholds.length_le with hlt | hfull
    · rcases hholds.push_of_lt_toWords hcap hfits hlt item overwrite with ⟨r', hholds', hpush⟩
      rw [if_pos hlt, hpush]
      exact ⟨_, rfl, r', v, hholds', rfl⟩
    · rw [if_neg (by omega)]
      cases overwrite with
      | false =>
        rw [hholds.push_full_toWords hcap hfits hfull item]
        exact ⟨_, rfl, r, v, hholds, rfl⟩
      | true =>
        rcases items with _ | ⟨oldest, rest⟩
        · exact absurd hfull hcap.ne
        · rcases hholds.push_overwrite_toWords hcap hfits rfl hfull item with ⟨r', hholds', hpush⟩
          rw [hpush]
          exact ⟨_, rfl, r', v + 1, hholds', rfl⟩
  | pop =>
    unfold WordRing.perform Fifo.perform
    dsimp only
    rcases items with _ | ⟨item, rest⟩
    · rw [hholds.pop_nil_toWords hcap hfits rfl]
      exact ⟨_, rfl, r, v, hholds, rfl⟩
    · rcases hholds.pop_cons_toWords hcap hfits rfl with ⟨r', hholds', hpop⟩
      rw [hpop]
      exact ⟨_, rfl, r', v + 1, hholds', rfl⟩
  | len =>
    unfold WordRing.perform Fifo.perform
    dsimp only
    rcases hholds.len_toWords hcap hfits with ⟨n, hlen, hn⟩
    rw [hlen, ← hn]
    exact ⟨_, rfl, r, v, hholds, rfl⟩

lemma Queues.performAll (h : ring.Queues capacity items) (calls : List (Call T)) :
    ∃ ring', ring.performAll calls = some ((Fifo.performAll capacity items calls).1, ring') ∧
      ring'.Queues capacity (Fifo.performAll capacity items calls).2 := by
  induction calls generalizing ring items with
  | nil => exact ⟨ring, rfl, h⟩
  | cons call calls ih =>
    rcases h.perform hcap hfits call with ⟨ring₁, hperform, hqueues₁⟩
    rcases ih hqueues₁ with ⟨ring₂, hrest, hqueues₂⟩
    refine ⟨ring₂, ?_, hqueues₂⟩
    rw [WordRing.performAll, hperform]
    dsimp only
    rw [hrest]
    rfl

/-- The drop empties the ring and ends with the pop that finds nothing. -/
lemma Queues.drop (h : ring.Queues capacity items) {fuel : ℕ} (hfuel : items.length < fuel) :
    ∃ ring', ring.drop fuel = some (items, ring') ∧ ring'.Queues capacity [] := by
  induction items generalizing ring fuel with
  | nil =>
    rcases h with ⟨r, v, hholds, rfl⟩
    rcases Nat.exists_eq_succ_of_ne_zero (Nat.ne_of_gt hfuel) with ⟨fuel, rfl⟩
    rw [WordRing.drop, hholds.pop_nil_toWords hcap hfits rfl]
    exact ⟨_, rfl, r, v, hholds, rfl⟩
  | cons item rest ih =>
    rcases h with ⟨r, v, hholds, rfl⟩
    rcases Nat.exists_eq_succ_of_ne_zero (Nat.ne_zero_of_lt hfuel) with ⟨fuel, rfl⟩
    rcases hholds.pop_cons_toWords hcap hfits rfl with ⟨r', hholds', hpop⟩
    rcases ih ⟨r', v + 1, hholds', rfl⟩ (Nat.succ_lt_succ_iff.mp hfuel) with ⟨ring', hdrop, hempty⟩
    refine ⟨ring', ?_, hempty⟩
    rw [WordRing.drop, hpop]
    dsimp only
    rw [hdrop]
    rfl

end Calls

/-- Every slot serves some number from `v` on. -/
lemma exists_add_mod_eq {capacity i : ℕ} (v : ℕ) (hi : i < capacity) :
    ∃ j < capacity, (v + j) % capacity = i := by
  have hlt : v % capacity < capacity := Nat.mod_lt v (Nat.zero_lt_of_lt hi)
  rcases Nat.le_total (v % capacity) i with hle | hge
  · refine ⟨i - v % capacity, by omega, ?_⟩
    rw [← Nat.mod_add_mod, Nat.add_sub_cancel' hle, Nat.mod_eq_of_lt hi]
  · refine ⟨(i + capacity - v % capacity) % capacity, Nat.mod_lt _ (by omega), ?_⟩
    rw [Nat.add_mod_mod, ← Nat.mod_add_mod, Nat.add_sub_cancel' (by omega), Nat.add_mod_right,
      Nat.mod_eq_of_lt hi]

/-- No slot holds a value. -/
def Vacant (ring : WordRing T) : Prop :=
  ∀ slot ∈ ring.slots, slot.value = none

lemma Queues.vacant {capacity : ℕ} {ring : WordRing T}
    (h : ring.Queues capacity []) : ring.Vacant := by
  rcases h with ⟨r, v, hholds, rfl⟩
  intro slot hmem
  rcases List.mem_map.mp hmem with ⟨before, hbefore, rfl⟩
  rcases List.mem_iff_getElem?.mp hbefore with ⟨i, hi⟩
  have hlt : i < capacity := hholds.shaped.length ▸ (List.getElem?_eq_some_iff.mp hi).1
  rcases exists_add_mod_eq v hlt with ⟨j, hj, hslot⟩
  have hqueued := hholds.slots j hj
  rw [hslot, hi, Ring.queued_of_le (Nat.zero_le _)] at hqueued
  rw [Option.some.inj hqueued]
  rfl

end WordRing

/-- Any sequence of calls on a new ring of any capacity that fits in memory, where a slot takes at
least the eight bytes of its stamp. -/
theorem sequential_ring_is_fifo {capacity : ℕ} (hcap : 1 ≤ capacity)
    (hfits : 8 * capacity < 2 ^ 63) (calls : List (Call T)) :
    ∃ ring, (WordRing.new capacity).performAll calls =
        some ((Fifo.performAll capacity [] calls).1, ring) ∧
      ∀ fuel, (Fifo.performAll capacity [] calls).2.length < fuel →
        ∃ ring', ring.drop fuel = some ((Fifo.performAll capacity [] calls).2, ring') ∧
          ring'.Vacant := by
  have hnew : (WordRing.new capacity : WordRing T).Queues capacity [] :=
    ⟨.new capacity, 0, Ring.holds_new capacity, Ring.toWords_new.symm⟩
  rcases hnew.performAll hcap hfits calls with ⟨ring, hperform, hqueues⟩
  refine ⟨ring, hperform, fun fuel hfuel => ?_⟩
  rcases hqueues.drop hcap hfits hfuel with ⟨ring', hdrop, hempty⟩
  exact ⟨ring', hdrop, hempty.vacant⟩

/-- Three places, which four pushes fill. -/
theorem sequential_ring_is_fifo_three :
    let calls : List (Call ℕ) := [.push 1 false, .push 2 false, .push 3 false, .push 4 false,
      .push 5 true, .len, .pop, .len]
    ∃ ring, (WordRing.new 3).performAll calls = some ((Fifo.performAll 3 [] calls).1, ring) ∧
      ∀ fuel, (Fifo.performAll 3 [] calls).2.length < fuel →
        ∃ ring', ring.drop fuel = some ((Fifo.performAll 3 [] calls).2, ring') ∧ ring'.Vacant :=
  sequential_ring_is_fifo (by decide) (by decide) _

end DoomFishUtils.Spsc
