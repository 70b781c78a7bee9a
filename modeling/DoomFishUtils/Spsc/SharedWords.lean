import DoomFishUtils.Spsc.Exclusion
import DoomFishUtils.Spsc.Sequential

/-!
# The shared ring in machine words

`push`, `pop` and `len` one atomic access at a time, over cursors and stamps in wrapping words. A
comparison of two words may take a cursor for one that is `2 ^ 64` away; as long as no thread
compares with a cursor that has been left behind that far, the threads do what they do over
unbounded numbers.
-/

namespace DoomFishUtils.Spsc
set_option autoImplicit false
open Library

/-- The program points of `push`, `pop` and `len` over words. -/
inductive WordPc (T : Type) where
  | idle
  | pushLoadWrite (item : T) (overwrite : Bool)
  | pushLoadStamp (item : T) (overwrite : Bool) (position : UInt64)
  | pushCasWrite (item : T) (overwrite : Bool) (position : UInt64)
  | pushWriteValue (item : T) (position : UInt64)
  | pushLoadRead (item : T) (overwrite : Bool) (position oldest : UInt64)
  | pushCasRead (item : T) (position oldest : UInt64)
  | pushStoreWrite (item : T) (position : UInt64)
  | pushReplace (item : T) (position : UInt64)
  | pushStoreStamp (position : UInt64) (displaced : Option T)
  | popLoadRead
  | popLoadStamp (position : UInt64)
  | popCasRead (position : UInt64)
  | popReadValue (position : UInt64)
  | popStoreStamp (position : UInt64) (item : T)
  | popLoadWrite (position : UInt64)
  | lenLoadRead
  | lenLoadWrite (read : UInt64)
  | lenReloadRead (read write : UInt64)
  | fault

namespace WordRing

variable {T : Type}

def setStamp (ring : WordRing T) (position stamp : UInt64) : WordRing T :=
  { ring with
    slots := ring.slots.modify (ring.index position).toNat fun slot => { slot with stamp } }

def setValue (ring : WordRing T) (position : UInt64) (value : Option T) : WordRing T :=
  { ring with
    slots := ring.slots.modify (ring.index position).toNat fun slot => { slot with value } }

/-- The value that `len` computes from two cursors. -/
def count (ring : WordRing T) (read write : UInt64) : UInt64 :=
  let readIndex := ring.index read
  let writeIndex := ring.index write
  if read = write then 0
  else if readIndex < writeIndex then writeIndex - readIndex
  else ring.capacity - readIndex + writeIndex

/-- One atomic access of a thread at `pc`. `spurious` makes a weak compare-exchange fail. -/
def advance (ring : WordRing T) (spurious : Bool) :
    WordPc T → WordRing T × WordPc T × List (Event T)
  | .pushLoadWrite item overwrite => (ring, .pushLoadStamp item overwrite ring.write, [])
  | .pushLoadStamp item overwrite position =>
    match ring.slot position with
    | none => (ring, .fault, [])
    | some slot =>
      if slot.stamp = position then (ring, .pushCasWrite item overwrite position, [])
      else
        let oldest := position - ring.lap
        if slot.stamp = oldest + 1 then (ring, .pushLoadRead item overwrite position oldest, [])
        else (ring, .pushLoadWrite item overwrite, [])
  | .pushCasWrite item overwrite position =>
    if ring.write = position ∧ spurious = false then
      ({ ring with write := ring.next position }, .pushWriteValue item position, [.accepted item])
    else (ring, .pushLoadWrite item overwrite, [])
  | .pushWriteValue item position =>
    (ring.setValue position (some item), .pushStoreStamp position none, [])
  | .pushLoadRead item overwrite position oldest =>
    if ring.read = oldest then
      if overwrite then (ring, .pushCasRead item position oldest, [])
      else (ring, .idle, [.returned (.full item)])
    else (ring, .pushLoadWrite item overwrite, [])
  | .pushCasRead item position oldest =>
    if ring.read = oldest then
      ({ ring with read := ring.next oldest }, .pushStoreWrite item position,
        [.claimed oldest.toNat, .accepted item])
    else (ring, .pushLoadWrite item true, [])
  | .pushStoreWrite item position =>
    ({ ring with write := ring.next position }, .pushReplace item position, [])
  | .pushReplace item position =>
    match (ring.slot position).bind WordSlot.value with
    | none => (ring, .fault, [])
    | some displaced =>
      (ring.setValue position (some item), .pushStoreStamp position (some displaced), [])
  | .pushStoreStamp position none =>
    (ring.setStamp position (position + 1), .idle, [.returned .pushed])
  | .pushStoreStamp position (some displaced) =>
    (ring.setStamp position (position + 1), .idle,
      [.returned (.displaced (position - ring.lap).toNat displaced)])
  | .popLoadRead => (ring, .popLoadStamp ring.read, [])
  | .popLoadStamp position =>
    match ring.slot position with
    | none => (ring, .fault, [])
    | some slot =>
      if slot.stamp = position + 1 then (ring, .popCasRead position, [])
      else if slot.stamp = position then (ring, .popLoadWrite position, [])
      else (ring, .popLoadRead, [])
  | .popCasRead position =>
    if ring.read = position ∧ spurious = false then
      ({ ring with read := ring.next position }, .popReadValue position, [.claimed position.toNat])
    else (ring, .popLoadRead, [])
  | .popReadValue position =>
    match (ring.slot position).bind WordSlot.value with
    | none => (ring, .fault, [])
    | some item => (ring.setValue position none, .popStoreStamp position item, [])
  | .popStoreStamp position item =>
    (ring.setStamp position (position + ring.lap), .idle,
      [.returned (.popped position.toNat item)])
  | .popLoadWrite position =>
    if ring.write = position then (ring, .idle, [.returned .empty]) else (ring, .popLoadRead, [])
  | .lenLoadRead => (ring, .lenLoadWrite ring.read, [])
  | .lenLoadWrite read => (ring, .lenReloadRead read ring.write, [])
  | .lenReloadRead read write =>
    if ring.read = read then (ring, .idle, [.returned (.count (ring.count read write).toNat)])
    else (ring, .lenLoadRead, [])
  | .idle => (ring, .idle, [])
  | .fault => (ring, .fault, [])

end WordRing

/-- A ring in words and the threads that share it. -/
structure WordThreads (ι T : Type) where
  ring : WordRing T
  pc : ι → WordPc T
  log : List (ι × Event T)

namespace WordThreads

variable {ι T : Type} [DecidableEq ι]

def new (capacity : ℕ) : WordThreads ι T where
  ring := .new capacity
  pc _ := .idle
  log := []

def call (s : WordThreads ι T) (t : ι) (entry : WordPc T) : Option (WordThreads ι T) :=
  match s.pc t with
  | .idle => some { s with pc := Function.update s.pc t entry }
  | _ => none

def access (s : WordThreads ι T) (t : ι) (spurious : Bool) : WordThreads ι T :=
  let (ring, pc, events) := s.ring.advance spurious (s.pc t)
  { ring, pc := Function.update s.pc t pc, log := s.log ++ events.map (t, ·) }

def next (s : WordThreads ι T) : Action ι T → Option (WordThreads ι T)
  | .push t item overwrite => s.call t (.pushLoadWrite item overwrite)
  | .pop t => s.call t .popLoadRead
  | .len t => s.call t .lenLoadRead
  | .advance t spurious =>
    match s.pc t with
    | .idle | .fault => none
    | _ => some (s.access t spurious)

end WordThreads

/-- All interleavings of calls on a new ring in words. -/
def wordRingSystem (ι T : Type) [DecidableEq ι] (capacity : ℕ) :
    System (WordThreads ι T) (Action ι T) :=
  .ofNext (WordThreads.new capacity) WordThreads.next

/-! ### The words of a state -/

section Words

variable {ι T : Type}

def Pc.toWords : Pc T → WordPc T
  | .idle => .idle
  | .pushLoadWrite item overwrite => .pushLoadWrite item overwrite
  | .pushLoadStamp item overwrite position =>
    .pushLoadStamp item overwrite (UInt64.ofNat position)
  | .pushCasWrite item overwrite position => .pushCasWrite item overwrite (UInt64.ofNat position)
  | .pushWriteValue item position => .pushWriteValue item (UInt64.ofNat position)
  | .pushLoadRead item overwrite position oldest =>
    .pushLoadRead item overwrite (UInt64.ofNat position) (UInt64.ofNat oldest)
  | .pushCasRead item position oldest =>
    .pushCasRead item (UInt64.ofNat position) (UInt64.ofNat oldest)
  | .pushStoreWrite item position => .pushStoreWrite item (UInt64.ofNat position)
  | .pushReplace item position => .pushReplace item (UInt64.ofNat position)
  | .pushStoreStamp position displaced => .pushStoreStamp (UInt64.ofNat position) displaced
  | .popLoadRead => .popLoadRead
  | .popLoadStamp position => .popLoadStamp (UInt64.ofNat position)
  | .popCasRead position => .popCasRead (UInt64.ofNat position)
  | .popReadValue position => .popReadValue (UInt64.ofNat position)
  | .popStoreStamp position item => .popStoreStamp (UInt64.ofNat position) item
  | .popLoadWrite position => .popLoadWrite (UInt64.ofNat position)
  | .lenLoadRead => .lenLoadRead
  | .lenLoadWrite read => .lenLoadWrite (UInt64.ofNat read)
  | .lenReloadRead read write => .lenReloadRead (UInt64.ofNat read) (UInt64.ofNat write)
  | .fault => .fault

/-- An event as the words show it: a position is known by its remainder. -/
def Event.inWords : Event T → Event T
  | .accepted item => .accepted item
  | .claimed position => .claimed (position % 2 ^ 64)
  | .returned (.displaced position item) => .returned (.displaced (position % 2 ^ 64) item)
  | .returned (.popped position item) => .returned (.popped (position % 2 ^ 64) item)
  | .returned answer => .returned answer

def Threads.toWords (s : Threads ι T) : WordThreads ι T where
  ring := s.ring.toWords
  pc t := (s.pc t).toWords
  log := s.log.map fun entry => (entry.1, entry.2.inWords)

/-- The cursors that a thread has loaded and still compares something with. -/
def Pc.loaded : Pc T → List ℕ
  | .pushLoadStamp _ _ position | .pushCasWrite _ _ position | .pushLoadRead _ _ position _
  | .pushCasRead _ position _ | .popLoadStamp position | .popCasRead position
  | .popLoadWrite position => [position]
  | .lenReloadRead read write => [read, write]
  | _ => []

/-- No thread compares with a cursor that the write cursor has left `2 ^ 62` behind. -/
def Threads.UpToDate (s : Threads ι T) : Prop :=
  ∀ t, ∀ position ∈ (s.pc t).loaded, s.ring.write < position + 2 ^ 62

end Words

/-! ### Words of a ring -/

namespace Ring

variable {T : Type} {capacity : ℕ} {r : Ring T} (hfits : 8 * capacity < 2 ^ 63)
  (h : r.Shaped capacity)
include hfits h

lemma lap_lt (hcap : 0 < capacity) : 2 ≤ r.lap ∧ r.lap < 2 ^ 62 := by
  rcases lapOf_eq_two_pow_lt hfits with ⟨k, hk, hlap⟩
  have hlow := two_mul_le_lapOf capacity
  have hhigh : (2 : ℕ) ^ k < 2 ^ 62 := Nat.pow_lt_pow_right (by decide) hk
  rw [h.lap]
  omega

lemma index_lt (hcap : 0 < capacity) (position : ℕ) : r.index position < 2 ^ 61 := by
  have hlap := lap_lt hfits h hcap
  have hmod := Nat.mod_lt position (show 0 < lapOf capacity by rw [← h.lap]; omega)
  rw [index, h.lap, and_lapOf_sub_one, Nat.shiftRight_one]
  rw [h.lap] at hlap
  omega

/-- The next cursor in words, of any position. -/
lemma toWords_next (hcap : 0 < capacity) (position : ℕ) :
    r.toWords.next (UInt64.ofNat position) = UInt64.ofNat (r.next position) := by
  rcases lapOf_eq_two_pow_lt hfits with ⟨k, hk, hlap⟩
  have hlt := index_lt hfits h hcap position
  have hlast : r.toWords.index (UInt64.ofNat position) + 1 = r.toWords.capacity ↔
      r.index position + 1 = r.slots.length := by
    rw [← UInt64.toNat_inj, UInt64.toNat_add, toNat_index_toWords hfits h,
      toNat_capacity_toWords hfits h, h.length, UInt64.toNat_one, Nat.mod_eq_of_lt (by omega)]
  unfold WordRing.next next
  simp only [hlast]
  split_ifs
  · rw [UInt64.ofNat_add, h.lap, and_lapOf_sub_one, toWords, h.lap, hlap,
      and_not_lowMask (by omega)]
  · rw [UInt64.ofNat_add]
    rfl

lemma toWords_setStamp (position stamp : ℕ) :
    r.toWords.setStamp (UInt64.ofNat position) (UInt64.ofNat stamp) =
      (r.setStamp position stamp).toWords := by
  unfold WordRing.setStamp setStamp
  rw [toNat_index_toWords hfits h]
  unfold toWords
  congr 1
  ext i : 1
  rw [List.getElem?_modify, List.getElem?_map, List.getElem?_map, List.getElem?_modify]
  split_ifs
  · rcases r.slots[i]? <;> rfl
  · rcases r.slots[i]? <;> rfl

lemma toWords_setValue (position : ℕ) (value : Option T) :
    r.toWords.setValue (UInt64.ofNat position) value = (r.setValue position value).toWords := by
  unfold WordRing.setValue setValue
  rw [toNat_index_toWords hfits h]
  unfold toWords
  congr 1
  ext i : 1
  rw [List.getElem?_modify, List.getElem?_map, List.getElem?_map, List.getElem?_modify]
  split_ifs
  · rcases r.slots[i]? <;> rfl
  · rcases r.slots[i]? <;> rfl

lemma value_toWords (position : ℕ) :
    (r.toWords.slot (UInt64.ofNat position)).bind WordSlot.value =
      (r.slot position).bind Slot.value := by
  rw [slot_toWords hfits h]
  cases r.slot position <;> rfl

end Ring

/-! ### An access in words -/

section Accesses

variable {ι T : Type} {capacity : ℕ} {s : Threads ι T} {r w : ℕ} {phase : ℕ → Phase ι}
  (hcap : 0 < capacity) (hfits : 8 * capacity < 2 ^ 63) (h : Inv capacity s r w phase)
include hcap h

/-- The stamps keep within two laps of the write cursor. -/
lemma Inv.stamp_near {v : ℕ} {slot : Slot T} (hslot : s.ring.slot (cursor capacity v) = some slot) :
    slot.stamp ≤ s.ring.write + s.ring.lap ∧ s.ring.write ≤ slot.stamp + 2 * s.ring.lap := by
  rw [Ring.slot_cursor hcap h.shaped] at hslot
  have hok := h.slot _ slot hslot
  have hlap := two_mul_le_lapOf capacity
  rw [← h.shaped.lap] at hlap
  have hlow : ∀ u, w ≤ u + 2 * capacity → s.ring.write ≤ cursor capacity u + 2 * s.ring.lap := by
    intro u hu
    have hle := (cursor_le_iff hcap).mpr (show w ≤ u + capacity + capacity by omega)
    rw [cursor_add_capacity hcap, cursor_add_capacity hcap, ← h.shaped.lap, ← h.write] at hle
    omega
  have hhigh : ∀ u, u ≤ w + capacity → cursor capacity u ≤ s.ring.write + s.ring.lap := by
    intro u hu
    have hle := (cursor_le_iff hcap).mpr hu
    rw [cursor_add_capacity hcap, ← h.shaped.lap, ← h.write] at hle
    exact hle
  have hwritten : ∀ u, u ≤ w → cursor capacity u + 1 ≤ s.ring.write + s.ring.lap := by
    intro u hu
    have hle := (cursor_le_iff hcap).mpr hu
    rw [← h.write] at hle
    omega
  have horder := h.order
  have hbound := h.bound
  have hwindow : w ≤ s.accepted.length ∧ s.accepted.length ≤ w + 1 := by
    rcases h.window with heq | ⟨heq, -⟩ <;> omega
  cases hphase : phase (v % capacity) with
  | free u =>
    rw [hphase] at hok
    obtain ⟨-, hu, hu', rfl⟩ := hok
    exact ⟨hhigh u (by omega), hlow u (by omega)⟩
  | writing u t written =>
    rw [hphase] at hok
    obtain ⟨-, hu, hu', rfl⟩ := hok
    exact ⟨hhigh u (by omega), hlow u (by omega)⟩
  | full u =>
    rw [hphase] at hok
    obtain ⟨-, hu, hu', rfl⟩ := hok
    exact ⟨hwritten u (by omega), (hlow u (by omega)).trans (by simp)⟩
  | reading u t taken =>
    rw [hphase] at hok
    obtain ⟨-, hu, hu', rfl⟩ := hok
    exact ⟨hwritten u (by omega), (hlow u (by omega)).trans (by simp)⟩
  | replacing u t stage =>
    rw [hphase] at hok
    obtain ⟨-, hu, hu', -, rfl, -⟩ := hok
    exact ⟨hwritten u (by omega), (hlow u (by omega)).trans (by simp)⟩

lemma Inv.read_near : s.ring.read ≤ s.ring.write ∧ s.ring.write ≤ s.ring.read + s.ring.lap := by
  have horder := h.order
  have hbound := h.bound
  have hwindow : w ≤ s.accepted.length := by
    rcases h.window with heq | ⟨heq, -⟩ <;> omega
  rw [h.read, h.write, h.shaped.lap, ← cursor_add_capacity hcap]
  exact ⟨(cursor_le_iff hcap).mpr horder, (cursor_le_iff hcap).mpr (by omega)⟩

lemma Inv.le_write {v : ℕ} (hv : v ≤ w) : cursor capacity v ≤ s.ring.write := by
  rw [h.write]
  exact (cursor_le_iff hcap).mpr hv

include hfits

/-- A load of a stamp by a `push`. -/
lemma Inv.words_pushLoadStamp {item : T} {overwrite : Bool} {v : ℕ} (hv : v ≤ w)
    (hrecent : s.ring.write < cursor capacity v + 2 ^ 62) (spurious : Bool) :
    s.ring.toWords.advance spurious (Pc.pushLoadStamp item overwrite (cursor capacity v)).toWords =
      let (ring, pc, events) := s.ring.advance spurious
        (.pushLoadStamp item overwrite (cursor capacity v))
      (ring.toWords, pc.toWords, events.map Event.inWords) := by
  have hlap := Ring.lap_lt hfits h.shaped hcap
  have hle := h.le_write hcap hv
  rcases h.loaded hcap v with ⟨slot, hslot, -⟩
  have hnear := h.stamp_near hcap hslot
  have hstamp : UInt64.ofNat slot.stamp = UInt64.ofNat (cursor capacity v) ↔
      slot.stamp = cursor capacity v := ofNat_eq_ofNat_iff_of_near (by omega) (by omega)
  simp only [Pc.toWords, WordRing.advance, Ring.advance, Ring.slot_toWords hfits h.shaped, hslot,
    Option.map_some, Slot.toWord, hstamp]
  by_cases hfree : slot.stamp = cursor capacity v
  · rw [if_pos hfree, if_pos hfree]
    rfl
  rw [if_neg hfree, if_neg hfree]
  unfold Ring.oldest
  by_cases hlast : s.ring.lap ≤ cursor capacity v
  · have hold : UInt64.ofNat (cursor capacity v) - s.ring.toWords.lap =
        UInt64.ofNat (cursor capacity v - s.ring.lap) := (UInt64.ofNat_sub hlast).symm
    have hfull : UInt64.ofNat slot.stamp = UInt64.ofNat (cursor capacity v - s.ring.lap) + 1 ↔
        slot.stamp = cursor capacity v - s.ring.lap + 1 := by
      rw [show UInt64.ofNat (cursor capacity v - s.ring.lap) + 1 =
        UInt64.ofNat (cursor capacity v - s.ring.lap + 1) from (UInt64.ofNat_add _ _).symm]
      exact ofNat_eq_ofNat_iff_of_near (by omega) (by omega)
    simp only [if_pos hlast, hold, hfull]
    split_ifs <;> rfl
  · -- Below one lap the difference wraps, to a number that no stamp has come to.
    have hfew : v < capacity := by
      rw [h.shaped.lap, lapOf_le_cursor_iff hcap] at hlast
      omega
    have heven : cursor capacity v + 2 ≤ s.ring.lap := by
      rw [cursor, lapCursor, Nat.div_eq_of_lt hfew, Nat.mod_eq_of_lt hfew, h.shaped.lap]
      have := two_mul_le_lapOf capacity
      omega
    have hnever : UInt64.ofNat slot.stamp ≠
        UInt64.ofNat (cursor capacity v) - s.ring.toWords.lap + 1 := by
      intro heq
      have hnat := congrArg UInt64.toNat (congrArg (· + s.ring.toWords.lap) heq)
      simp only [Ring.toWords, UInt64.toNat_add, UInt64.toNat_sub, UInt64.toNat_ofNat',
        UInt64.toNat_one] at hnat
      omega
    simp only [if_neg hlast, if_neg hnever]
    rfl

/-- A load of a stamp by a `pop`. -/
lemma Inv.words_popLoadStamp {v : ℕ} (hv : v ≤ w)
    (hrecent : s.ring.write < cursor capacity v + 2 ^ 62) (spurious : Bool) :
    s.ring.toWords.advance spurious (Pc.popLoadStamp (cursor capacity v)).toWords =
      let (ring, pc, events) := s.ring.advance spurious (.popLoadStamp (cursor capacity v))
      (ring.toWords, pc.toWords, events.map Event.inWords) := by
  have hlap := Ring.lap_lt hfits h.shaped hcap
  have hle := h.le_write hcap hv
  rcases h.loaded hcap v with ⟨slot, hslot, -⟩
  have hnear := h.stamp_near hcap hslot
  have hempty : UInt64.ofNat slot.stamp = UInt64.ofNat (cursor capacity v) ↔
      slot.stamp = cursor capacity v := ofNat_eq_ofNat_iff_of_near (by omega) (by omega)
  have hfilled : UInt64.ofNat slot.stamp = UInt64.ofNat (cursor capacity v) + 1 ↔
      slot.stamp = cursor capacity v + 1 := by
    rw [show UInt64.ofNat (cursor capacity v) + 1 = UInt64.ofNat (cursor capacity v + 1) from
      (UInt64.ofNat_add _ _).symm]
    exact ofNat_eq_ofNat_iff_of_near (by omega) (by omega)
  simp only [Pc.toWords, WordRing.advance, Ring.advance, Ring.slot_toWords hfits h.shaped, hslot,
    Option.map_some, Slot.toWord, hempty, hfilled]
  split_ifs <;> rfl

/-- The number of items that `len` finds. -/
lemma Inv.words_count {v u : ℕ} (hv : v ≤ w) (hu : u ≤ w)
    (hread : s.ring.write < cursor capacity v + 2 ^ 62)
    (hwrite : s.ring.write < cursor capacity u + 2 ^ 62) :
    (s.ring.toWords.count (UInt64.ofNat (cursor capacity v))
      (UInt64.ofNat (cursor capacity u))).toNat =
      s.ring.count (cursor capacity v) (cursor capacity u) := by
  have hlev := h.le_write hcap hv
  have hleu := h.le_write hcap hu
  have hsame : UInt64.ofNat (cursor capacity v) = UInt64.ofNat (cursor capacity u) ↔
      cursor capacity v = cursor capacity u := ofNat_eq_ofNat_iff_of_near (by omega) (by omega)
  have hindexv := Ring.toNat_index_toWords hfits h.shaped (cursor capacity v)
  have hindexu := Ring.toNat_index_toWords hfits h.shaped (cursor capacity u)
  have hcapacity := Ring.toNat_capacity_toWords hfits h.shaped
  have hltv := Nat.mod_lt v hcap
  have hltu := Nat.mod_lt u hcap
  rw [Ring.index_cursor hcap h.shaped] at hindexv hindexu
  unfold WordRing.count Ring.count
  simp only [hsame, Ring.index_cursor hcap h.shaped, h.shaped.length, UInt64.lt_iff_toNat_lt,
    hindexv, hindexu]
  split_ifs with hequal hless
  · rfl
  · rw [UInt64.toNat_sub, hindexv, hindexu]
    omega
  · rw [UInt64.toNat_add, UInt64.toNat_sub, hindexv, hindexu, hcapacity]
    omega

/-- The words of a state make the access that the state makes. -/
lemma Inv.words_advance {t : ι}
    (hrecent : ∀ position ∈ (s.pc t).loaded, s.ring.write < position + 2 ^ 62) (spurious : Bool) :
    s.ring.toWords.advance spurious (s.pc t).toWords =
      let (ring, pc, events) := s.ring.advance spurious (s.pc t)
      (ring.toWords, pc.toWords, events.map Event.inWords) := by
  have hlap := Ring.lap_lt hfits h.shaped hcap
  have hreads := h.read_near hcap
  have hlocal := h.ownPc t
  have hholding : (s.pc t).holding = true → Holding capacity s.accepted phase t (s.pc t) :=
    h.holding
  generalize s.pc t = pc at hrecent hlocal hholding ⊢
  cases pc with
  | idle | fault | pushLoadWrite | popLoadRead | lenLoadRead | lenLoadWrite => rfl
  | pushLoadStamp item overwrite position =>
    obtain ⟨v, hv, rfl⟩ := hlocal
    exact h.words_pushLoadStamp hcap hfits hv (hrecent _ (by simp [Pc.loaded])) spurious
  | popLoadStamp position =>
    obtain ⟨v, hv, rfl⟩ := hlocal
    exact h.words_popLoadStamp hcap hfits (hv.trans h.order) (hrecent _ (by simp [Pc.loaded]))
      spurious
  | pushCasWrite item overwrite position =>
    obtain ⟨v, hv, rfl, -⟩ := hlocal
    have hle := h.le_write hcap hv
    have hnear := hrecent _ (List.mem_singleton_self _)
    have hsame : s.ring.toWords.write = UInt64.ofNat (cursor capacity v) ↔
        s.ring.write = cursor capacity v := ofNat_eq_ofNat_iff_of_near (by omega) (by omega)
    simp only [Pc.toWords, WordRing.advance, Ring.advance, hsame,
      Ring.toWords_next hfits h.shaped hcap]
    split_ifs <;> rfl
  | pushLoadRead item overwrite position oldest =>
    obtain ⟨v, hv, rfl, rfl, -⟩ := hlocal
    have hle := h.le_write hcap hv
    have hnear := hrecent _ (List.mem_singleton_self _)
    rw [cursor_add_capacity hcap, ← h.shaped.lap] at hle hnear
    have hsame : s.ring.toWords.read = UInt64.ofNat (cursor capacity v) ↔
        s.ring.read = cursor capacity v := ofNat_eq_ofNat_iff_of_near (by omega) (by omega)
    simp only [Pc.toWords, WordRing.advance, Ring.advance, hsame]
    split_ifs <;> rfl
  | pushCasRead item position oldest =>
    obtain ⟨v, hv, rfl, rfl, -⟩ := hlocal
    have hle := h.le_write hcap hv
    have hnear := hrecent _ (List.mem_singleton_self _)
    rw [cursor_add_capacity hcap, ← h.shaped.lap] at hle hnear
    have hsame : s.ring.toWords.read = UInt64.ofNat (cursor capacity v) ↔
        s.ring.read = cursor capacity v := ofNat_eq_ofNat_iff_of_near (by omega) (by omega)
    simp only [Pc.toWords, WordRing.advance, Ring.advance, hsame,
      Ring.toWords_next hfits h.shaped hcap, UInt64.toNat_ofNat']
    split_ifs <;> rfl
  | popCasRead position =>
    obtain ⟨v, hv, rfl, -⟩ := hlocal
    have hle := h.le_write hcap (hv.trans h.order)
    have hnear := hrecent _ (List.mem_singleton_self _)
    have hsame : s.ring.toWords.read = UInt64.ofNat (cursor capacity v) ↔
        s.ring.read = cursor capacity v := ofNat_eq_ofNat_iff_of_near (by omega) (by omega)
    simp only [Pc.toWords, WordRing.advance, Ring.advance, hsame,
      Ring.toWords_next hfits h.shaped hcap, UInt64.toNat_ofNat']
    split_ifs <;> rfl
  | popLoadWrite position =>
    obtain ⟨v, hv, rfl, -⟩ := hlocal
    have hle := h.le_write hcap (hv.trans h.order)
    have hnear := hrecent _ (List.mem_singleton_self _)
    have hsame : s.ring.toWords.write = UInt64.ofNat (cursor capacity v) ↔
        s.ring.write = cursor capacity v := ofNat_eq_ofNat_iff_of_near (by omega) (by omega)
    simp only [Pc.toWords, WordRing.advance, Ring.advance, hsame]
    split_ifs <;> rfl
  | lenReloadRead read write =>
    obtain ⟨v, hv, u, hu, rfl, rfl⟩ := hlocal
    have hle := h.le_write hcap (hv.trans h.order)
    have hread := hrecent (cursor capacity v) (by simp [Pc.loaded])
    have hwrite := hrecent (cursor capacity u) (by simp [Pc.loaded])
    have hsame : s.ring.toWords.read = UInt64.ofNat (cursor capacity v) ↔
        s.ring.read = cursor capacity v := ofNat_eq_ofNat_iff_of_near (by omega) (by omega)
    have hcount := h.words_count hcap hfits (hv.trans h.order) hu hread hwrite
    simp only [Pc.toWords, WordRing.advance, Ring.advance, hsame, hcount]
    split_ifs <;> rfl
  | pushWriteValue item position =>
    simp only [Pc.toWords, WordRing.advance, Ring.advance, Ring.toWords_setValue hfits h.shaped]
    rfl
  | pushStoreWrite item position =>
    simp only [Pc.toWords, WordRing.advance, Ring.advance, Ring.toWords_next hfits h.shaped hcap]
    rfl
  | pushReplace item position =>
    simp only [Pc.toWords, WordRing.advance, Ring.advance, Ring.value_toWords hfits h.shaped,
      Ring.toWords_setValue hfits h.shaped]
    cases (s.ring.slot position).bind Slot.value <;> rfl
  | popReadValue position =>
    simp only [Pc.toWords, WordRing.advance, Ring.advance, Ring.value_toWords hfits h.shaped,
      Ring.toWords_setValue hfits h.shaped]
    cases (s.ring.slot position).bind Slot.value <;> rfl
  | popStoreStamp position item =>
    have hstamp : UInt64.ofNat position + s.ring.toWords.lap =
        UInt64.ofNat (position + s.ring.lap) := (UInt64.ofNat_add _ _).symm
    simp only [Pc.toWords, WordRing.advance, Ring.advance, hstamp,
      Ring.toWords_setStamp hfits h.shaped, UInt64.toNat_ofNat']
    rfl
  | pushStoreStamp position displaced =>
    have hstamp : UInt64.ofNat position + 1 = UInt64.ofNat (position + 1) :=
      (UInt64.ofNat_add _ _).symm
    cases displaced with
    | none =>
      simp only [Pc.toWords, WordRing.advance, Ring.advance, hstamp,
        Ring.toWords_setStamp hfits h.shaped]
      rfl
    | some displaced =>
      -- The position is a lap or more into the ring, so the difference does not wrap.
      have hle : s.ring.lap ≤ position := by
        cases hholding rfl with
        | replaced v item hphase hitem =>
          rw [cursor_add_capacity hcap, h.shaped.lap]
          exact Nat.le_add_left _ _
      have hold : UInt64.ofNat position - s.ring.toWords.lap =
          UInt64.ofNat (position - s.ring.lap) := (UInt64.ofNat_sub hle).symm
      simp only [Pc.toWords, WordRing.advance, Ring.advance, hstamp, hold,
        Ring.toWords_setStamp hfits h.shaped, UInt64.toNat_ofNat']
      rfl

end Accesses

/-! ### Runs in words -/

section Runs

variable {ι T : Type} [DecidableEq ι] {capacity : ℕ} {s : Threads ι T} {r w : ℕ}
  {phase : ℕ → Phase ι}

lemma Pc.toWords_update (pcs : ι → Pc T) (t : ι) (pc : Pc T) :
    (fun u => (Function.update pcs t pc u).toWords) =
      Function.update (fun u => (pcs u).toWords) t pc.toWords := by
  funext u
  by_cases hu : u = t
  · rw [hu, Function.update_self, Function.update_self]
  · rw [Function.update_of_ne hu, Function.update_of_ne hu]

lemma Threads.call_toWords (s : Threads ι T) (t : ι) (entry : Pc T) :
    s.toWords.call t entry.toWords = (s.call t entry).map Threads.toWords := by
  unfold WordThreads.call Threads.call
  cases hpc : s.pc t with
  | idle =>
    have hidle : s.toWords.pc t = .idle := congrArg Pc.toWords hpc
    simp only [hidle, Option.map_some]
    simp only [Threads.toWords, Pc.toWords_update]
  | _ =>
    have hcalled : s.toWords.pc t = _ := congrArg Pc.toWords hpc
    simp only [hcalled, Pc.toWords, Option.map_none]

/-- One step of the words of a state. -/
lemma Inv.words_next (hcap : 0 < capacity) (hfits : 8 * capacity < 2 ^ 63)
    (h : Inv capacity s r w phase) (hrecent : s.UpToDate) (a : Action ι T) :
    s.toWords.next a = (s.next a).map Threads.toWords := by
  cases a with
  | push t item overwrite => exact s.call_toWords t (.pushLoadWrite item overwrite)
  | pop t => exact s.call_toWords t .popLoadRead
  | len t => exact s.call_toWords t .lenLoadRead
  | advance t spurious =>
    have haccess : s.toWords.access t spurious = (s.access t spurious).toWords := by
      have hadvance : s.toWords.ring.advance spurious (s.toWords.pc t) = _ :=
        h.words_advance hcap hfits (hrecent t) spurious
      unfold WordThreads.access Threads.access
      rw [hadvance]
      simp only [Threads.toWords, Pc.toWords_update, List.map_append, List.map_map]
      rfl
    unfold WordThreads.next Threads.next
    cases hpc : s.pc t with
    | idle | fault =>
      have hstopped : s.toWords.pc t = _ := congrArg Pc.toWords hpc
      simp only [hpc, hstopped, Pc.toWords, Option.map_none]
    | _ =>
      have hgoing : s.toWords.pc t = _ := congrArg Pc.toWords hpc
      simp only [hpc, hgoing, Pc.toWords, Option.map_some, haccess]

/-! ### How long a run stays up to date -/

lemma lapOf_le (hcap : 0 < capacity) : lapOf capacity ≤ 4 * capacity := by
  rcases Nat.lt_or_ge 1 capacity with hlt | hle
  · have hpred := Nat.pow_pred_clog_lt_self (b := 2) (by decide) hlt
    have hclog : Nat.clog 2 capacity = (Nat.clog 2 capacity).pred + 1 :=
      (Nat.succ_pred (Nat.clog_pos (by decide) hlt).ne').symm
    rw [lapOf, nextPowerOfTwo, hclog, Nat.pow_succ]
    omega
  · obtain rfl : capacity = 1 := by omega
    decide

lemma cursor_le_four_mul (hcap : 0 < capacity) (v : ℕ) : cursor capacity v ≤ 4 * v := by
  have hlap := Nat.mul_le_mul_right (v / capacity) (lapOf_le hcap)
  have hsplit := Nat.div_add_mod v capacity
  rw [Nat.mul_assoc] at hlap
  rw [cursor, lapCursor]
  omega

/-- An access accepts at most one item. -/
lemma Ring.advance_accepted_le (ring : Ring T) (spurious : Bool) (pc : Pc T) :
    ((ring.advance spurious pc).2.2.filterMap Event.accepted?).length ≤ 1 := by
  fun_cases Ring.advance ring spurious pc <;> simp [List.filterMap, Event.accepted?]

lemma accepted_length_le {as : List (Action ι T)}
    (hrun : (ringSystem ι T capacity).Run (Threads.new capacity) as s) :
    s.accepted.length ≤ as.length := by
  induction hrun with
  | nil => exact Nat.zero_le _
  | @snoc as a s s' _ hlast ih =>
    have hcall : ∀ t entry, s.call t entry = some s' → s'.accepted = s.accepted := by
      intro t entry hcall
      unfold Threads.call at hcall
      split at hcall
      · cases hcall
        rfl
      · cases hcall
    rw [List.length_append, List.length_singleton]
    cases a with
    | push t item overwrite => exact (hcall t _ hlast ▸ ih).trans (Nat.le_succ _)
    | pop t => exact (hcall t _ hlast ▸ ih).trans (Nat.le_succ _)
    | len t => exact (hcall t _ hlast ▸ ih).trans (Nat.le_succ _)
    | advance t spurious =>
      obtain ⟨-, -, rfl⟩ := Threads.next_advance hlast
      unfold Threads.access
      rw [Threads.accepted_append, List.length_append]
      exact Nat.add_le_add ih (s.ring.advance_accepted_le spurious (s.pc t))

/-- To leave a cursor far enough behind takes as many steps. -/
lemma Inv.length_of_not_upToDate (hcap : 0 < capacity) (h : Inv capacity s r w phase)
    {as : List (Action ι T)} (hrun : (ringSystem ι T capacity).Run (Threads.new capacity) as s)
    (hnot : ¬s.UpToDate) : 2 ^ 60 ≤ as.length := by
  by_contra hshort
  refine hnot fun t position _ => ?_
  have hlength := accepted_length_le hrun
  have hcursor := cursor_le_four_mul hcap w
  have hwindow : w ≤ s.accepted.length := by
    rcases h.window with heq | ⟨heq, -⟩ <;> omega
  rw [h.write]
  omega

/-- Every run in words, of any number of threads, is in every step what the same run over unbounded
numbers is in words, with exclusion and FIFO order, unless some thread has come to compare with a
cursor that the write cursor has left `2 ^ 62` behind, which takes at least `2 ^ 60` steps. -/
theorem word_ring_runs_as_ring (hcap : 0 < capacity) (hfits : 8 * capacity < 2 ^ 63)
    {as : List (Action ι T)} {words : WordThreads ι T}
    (hrun : (wordRingSystem ι T capacity).Run (WordThreads.new capacity) as words) :
    (∃ s, (ringSystem ι T capacity).Run (Threads.new capacity) as s ∧ words = s.toWords ∧
      s.Exclusive ∧ s.Ordered capacity) ∨
    ∃ before s, before <+: as ∧ 2 ^ 60 ≤ before.length ∧
      (ringSystem ι T capacity).Run (Threads.new capacity) before s ∧ ¬s.UpToDate := by
  induction hrun with
  | nil =>
    have hinv : Inv capacity (Threads.new capacity : Threads ι T) 0 0 .free := inv_new
    refine .inl ⟨Threads.new capacity, .nil, ?_, hinv.exclusive hcap, hinv.ordered hcap⟩
    simp only [Threads.toWords, Threads.new, WordThreads.new, Ring.toWords_new, Pc.toWords]
    rfl
  | @snoc as a words words' _ hlast ih =>
    rcases ih with ⟨s, hbefore, rfl, -, -⟩ | ⟨before, s, hprefix, hlate⟩
    · rcases inv_of_reachable hcap (hbefore.reachable (.init rfl)) with ⟨r, w, phase, h⟩
      by_cases hrecent : s.UpToDate
      · have hnext := h.words_next hcap hfits hrecent a
        rw [show s.toWords.next a = some words' from hlast, eq_comm,
          Option.map_eq_some_iff] at hnext
        rcases hnext with ⟨s', hstep, rfl⟩
        rcases h.step hcap hstep with ⟨r', w', phase', h'⟩
        exact .inl ⟨s', hbefore.snoc hstep, rfl, h'.exclusive hcap, h'.ordered hcap⟩
      · exact .inr ⟨as, s, List.prefix_append as [a],
          h.length_of_not_upToDate hcap hbefore hrecent, hbefore, hrecent⟩
    · exact .inr ⟨before, s, hprefix.trans (List.prefix_append as [a]), hlate⟩

/-- An overwrite on a ring of one slot, with a pop that has loaded the cursor before it. -/
theorem word_ring_runs_as_ring_one_slot :
    let as : List (Action (Fin 2) ℕ) := [.push 0 7 false] ++ .replicate 5 (.advance 0 false) ++
      [.pop 1] ++ .replicate 2 (.advance 1 false) ++ [.push 0 8 true] ++
      .replicate 7 (.advance 0 false) ++ .replicate 2 (.advance 1 false)
    let words := (System.replay WordThreads.next (WordThreads.new 1) as).get rfl
    (∃ s, (ringSystem (Fin 2) ℕ 1).Run (Threads.new 1) as s ∧ words = s.toWords ∧
      s.Exclusive ∧ s.Ordered 1) ∨
    ∃ before s, before <+: as ∧ 2 ^ 60 ≤ before.length ∧
      (ringSystem (Fin 2) ℕ 1).Run (Threads.new 1) before s ∧ ¬s.UpToDate :=
  word_ring_runs_as_ring (by decide) (by decide) (System.run_replay rfl)

end Runs

end DoomFishUtils.Spsc
