import DoomFishUtils.Library.Views
import DoomFishUtils.Spsc.Answers

/-!
# The ring under release and acquire

The accesses of the ring with the orderings of the source: the cursors are sequentially consistent,
stamps are loaded with acquire and stored with release ordering, and values are plain memory.  A load
of a stamp may find any stamp that is not older than what its thread has seen of the slot.
-/

namespace DoomFishUtils.Spsc

set_option autoImplicit false

open Library

variable {ι T : Type*}

/-- The atomic locations. -/
inductive Location where
  | read
  | write
  | stamp (index : ℕ)
  deriving DecidableEq

/-- The threads on a ring that holds the latest value of each location, and the memory with the stamps
of each slot and what threads know.  The cells are the values of the slots. -/
structure WeakThreads (ι T : Type*) where
  threads : Threads ι T
  memory : Memory ι Location ℕ ℕ

/-- The position whose stamp a thread loads next. -/
def Pc.loading : Pc T → Option ℕ
  | .pushLoadStamp _ _ position | .popLoadStamp position => some position
  | _ => none

/-- The program point after a load that has found a stamp. -/
def Pc.afterStamp (ring : Ring T) (stamp : ℕ) : Pc T → Pc T
  | .pushLoadStamp item overwrite position =>
    if stamp = position then .pushCasWrite item overwrite position
    else match ring.oldest position with
      | none => .pushLoadWrite item overwrite
      | some oldest =>
        if stamp = oldest + 1 then .pushLoadRead item overwrite position oldest
        else .pushLoadWrite item overwrite
  | .popLoadStamp position =>
    if stamp = position + 1 then .popCasRead position
    else if stamp = position then .popLoadWrite position
    else .popLoadRead
  | pc => pc

/-- What an access other than a load of a stamp does to the memory. -/
def Ring.synchronize [DecidableEq ι] (r : Ring T) (spurious : Bool) (t : ι)
    (m : Memory ι Location ℕ ℕ) : Pc T → Memory ι Location ℕ ℕ
  | .pushLoadWrite _ _ | .popLoadWrite _ | .lenLoadWrite _ => m.acquireLatest t .write
  | .pushLoadRead _ _ _ _ | .popLoadRead | .lenLoadRead | .lenReloadRead _ _ =>
    m.acquireLatest t .read
  | .pushCasWrite _ _ position =>
    if r.write = position ∧ spurious = false then
      (m.acquireLatest t .write).release t .write (r.next position)
    else m.acquireLatest t .write
  | .pushCasRead _ _ oldest =>
    if r.read = oldest then (m.acquireLatest t .read).release t .read (r.next oldest)
    else m.acquireLatest t .read
  | .popCasRead position =>
    if r.read = position ∧ spurious = false then
      (m.acquireLatest t .read).release t .read (r.next position)
    else m.acquireLatest t .read
  | .pushStoreWrite _ position => m.release t .write (r.next position)
  | .pushWriteValue _ position | .pushReplace _ position | .popReadValue position =>
    m.access t (r.index position)
  | .pushStoreStamp position _ => m.release t (.stamp (r.index position)) (position + 1)
  | .popStoreStamp position _ => m.release t (.stamp (r.index position)) (position + r.lap)
  | .pushLoadStamp _ _ _ | .popLoadStamp _ | .idle | .fault => m

inductive WeakAction (ι T : Type*) where
  | step (action : Action ι T)
  /-- A load that finds the stamp at an index of the slot's modification order. -/
  | loadStamp (t : ι) (index : ℕ)

namespace WeakThreads

variable [DecidableEq ι]

def new (capacity : ℕ) : WeakThreads ι T where
  threads := .new capacity
  memory :=
    { order := fun
        | .read | .write => [⟨0, 0⟩]
        | .stamp index => [⟨index * 2, 0⟩]
      accesses := 0
      views := 0 }

/-- A load that finds the stamp at an index, which the thread has not seen overwritten. -/
def loadStamp (s : WeakThreads ι T) (t : ι) (index : ℕ) : Option (WeakThreads ι T) :=
  (s.threads.pc t).loading.bind fun position =>
    let location := Location.stamp (s.threads.ring.index position)
    (s.memory.order location)[index]?.bind fun message =>
      if (s.memory.views t).1 location ≤ index then
        let pc := (s.threads.pc t).afterStamp s.threads.ring message.value
        some ⟨{ s.threads with pc := Function.update s.threads.pc t pc },
          s.memory.acquire t location index⟩
      else none

def next (s : WeakThreads ι T) : WeakAction ι T → Option (WeakThreads ι T)
  | .step (.advance t spurious) =>
    match (s.threads.pc t).loading with
    | some _ => none
    | none => (s.threads.next (.advance t spurious)).map fun threads =>
        ⟨threads, s.threads.ring.synchronize spurious t s.memory (s.threads.pc t)⟩
  | .step action => (s.threads.next action).map fun threads => ⟨threads, s.memory⟩
  | .loadStamp t index => s.loadStamp t index

end WeakThreads

/-- All runs on a new ring. -/
def weakRingSystem (ι T : Type*) [DecidableEq ι] (capacity : ℕ) :
    System (WeakThreads ι T) (WeakAction ι T) :=
  .ofNext (WeakThreads.new capacity) WeakThreads.next

/-- No access to a value races with an earlier one, and no stamp is stored past another one. -/
structure WeakThreads.RaceFree (s : WeakThreads ι T) : Prop where
  values : ∀ t, (s.threads.pc t).holding = true →
    ¬s.memory.Races t (s.threads.ring.index (s.threads.pc t).position)
  stamps : ∀ t, (s.threads.pc t).holding = true →
    ¬s.memory.Overtakes t (.stamp (s.threads.ring.index (s.threads.pc t).position))

/-! ### Loads of stale stamps -/

section Loads

variable {capacity : ℕ} {s : Threads ι T} {r w : ℕ} {phase : ℕ → Phase ι}

lemma Pc.loading_holding {pc : Pc T} (h : pc.loading.isSome = true) : pc.holding = false := by
  cases pc <;> first | rfl | cases h

/-- In the interleavings a load finds the latest stamp. -/
lemma Ring.advance_loading {ring : Ring T} {pc : Pc T} {position : ℕ} {slot : Slot T}
    (hpc : pc.loading = some position) (hslot : ring.slot position = some slot) (spurious : Bool) :
    ring.advance spurious pc = (ring, pc.afterStamp ring slot.stamp, []) := by
  cases pc <;> cases hpc <;> simp only [Ring.advance, Pc.afterStamp, hslot]
  case pushLoadStamp item overwrite =>
    split_ifs
    · rfl
    · cases ring.oldest position with
      | none => rfl
      | some oldest =>
        dsimp only
        split_ifs <;> rfl
  case popLoadStamp => split_ifs <;> rfl

/-- A stamp that is not newer than the latest one says no more than that one. -/
lemma Inv.local_afterStamp (hcap : 0 < capacity) (h : Inv capacity s r w phase) {t : ι} {position : ℕ}
    (hpc : (s.pc t).loading = some position) {stamp : ℕ}
    (hstamp : StampGe s.ring.slots (s.ring.index position) stamp) :
    LocalOk capacity r w s.ring.slots ((s.pc t).afterStamp s.ring stamp) := by
  have hok := h.ownPc t
  generalize s.pc t = pc at hpc hok ⊢
  cases pc <;> cases hpc <;> unfold Pc.afterStamp <;> dsimp only
  case pushLoadStamp item overwrite =>
    obtain ⟨v, hv, rfl⟩ := hok
    rw [Ring.index_cursor hcap h.shaped] at hstamp
    split_ifs with heq
    · exact ⟨v, hv, rfl, heq ▸ hstamp⟩
    · cases hold : s.ring.oldest (cursor capacity v) with
      | none => trivial
      | some oldest =>
        obtain ⟨u, rfl, rfl⟩ := Ring.oldest_cursor hcap h.shaped hold
        dsimp only
        split_ifs with hfull
        · rw [Nat.add_mod_right] at hstamp
          exact ⟨u, hv, rfl, rfl, hfull ▸ hstamp⟩
        · trivial
  case popLoadStamp =>
    obtain ⟨v, hv, rfl⟩ := hok
    rw [Ring.index_cursor hcap h.shaped] at hstamp
    split_ifs with hfull hfree
    · exact ⟨v, hv, rfl, hfull ▸ hstamp⟩
    · exact ⟨v, hv, rfl, hfree ▸ hstamp⟩
    · trivial

lemma Pc.afterStamp_holding {pc : Pc T} (hpc : pc.loading.isSome = true) (ring : Ring T) (stamp : ℕ) :
    (pc.afterStamp ring stamp).holding = false := by
  rcases Option.isSome_iff_exists.mp hpc with ⟨position, hpc⟩
  cases pc <;> cases hpc <;> unfold Pc.afterStamp <;> dsimp only
  case pushLoadStamp =>
    split_ifs
    · rfl
    · cases ring.oldest position with
      | none => rfl
      | some oldest =>
        dsimp only
        split_ifs <;> rfl
  case popLoadStamp => split_ifs <;> rfl

lemma Inv.loadStamp [DecidableEq ι] (hcap : 0 < capacity) (h : Inv capacity s r w phase) {t : ι} {position : ℕ}
    (hpc : (s.pc t).loading = some position) {stamp : ℕ}
    (hstamp : StampGe s.ring.slots (s.ring.index position) stamp) :
    Inv capacity { s with pc := Function.update s.pc t ((s.pc t).afterStamp s.ring stamp) } r w
      phase := by
  have hloading : (s.pc t).loading.isSome = true := by rw [hpc]; rfl
  have hstay := h.stay [] rfl rfl (fun _ => rfl) (Pc.loading_holding hloading)
    (Pc.afterStamp_holding hloading s.ring stamp) (h.local_afterStamp hcap hpc hstamp)
  rwa [List.map_nil, List.append_nil] at hstay

end Loads

end DoomFishUtils.Spsc
