import DoomFishUtils.Spsc.WeakMemory

/-!
# No races on the slots

A thread that succeeds in a claim has read the latest stamp of its slot, however stale its loads may
be, and with it everything that has happened to the value before.  So the ring has no data race under
release and acquire, and what has been proved of its interleavings, which are among its runs, holds in
all of them.
-/

namespace DoomFishUtils.Spsc

set_option autoImplicit false

open Library

variable {ι T : Type*}

/-- The position and the stamp that a thread has found there, as long as they matter. -/
def Pc.found : Pc T → Option (ℕ × ℕ)
  | .pushCasWrite _ _ position => some (position, position)
  | .pushLoadRead _ _ position oldest | .pushCasRead _ position oldest =>
    some (position, oldest + 1)
  | .popCasRead position => some (position, position + 1)
  | _ => none

/-- The memory has the stamps of a slot in the order in which they were stored, growing, the latest one
last. -/
structure StampsOk (ring : Ring T) (m : Memory ι Location ℕ ℕ) (i : ℕ) : Prop where
  latest : (m.order (.stamp i)).getLast?.map Message.value = ring.slots[i]?.map Slot.stamp
  grows : ((m.order (.stamp i)).map Message.value).Pairwise (· < ·)

/-- Between a claim and the store of the stamp a thread owns its slot; between the others the stamp
hands it over. -/
structure Guarded (s : WeakThreads ι T) (i : ℕ) : Prop where
  stamps : StampsOk s.threads.ring s.memory i
  owned : ∀ t, s.threads.Inside t i → s.memory.Owns t (.stamp i) i
  handed : (∀ t, ¬s.threads.Inside t i) → s.memory.Hands (.stamp i) i

structure WeakInv (capacity : ℕ) (s : WeakThreads ι T) : Prop where
  inv : ∃ r w phase, Inv capacity s.threads r w phase
  guarded : ∀ i < capacity, Guarded s i
  found : ∀ t position stamp, (s.threads.pc t).found = some (position, stamp) →
    s.memory.Saw t (.stamp (s.threads.ring.index position)) stamp

/-- The stamp that a thread stores next. -/
def Pc.stored (lap : ℕ) : Pc T → Option ℕ
  | .pushStoreStamp position _ => some (position + 1)
  | .popStoreStamp position _ => some (position + lap)
  | _ => none

lemma StampsOk.le_latest {ring : Ring T} {m : Memory ι Location ℕ ℕ} {i : ℕ} (h : StampsOk ring m i)
    {slot : Slot T} (hslot : ring.slots[i]? = some slot) {stamp : ℕ}
    (hstamp : stamp ∈ (m.order (.stamp i)).map Message.value) : stamp ≤ slot.stamp := by
  have hlatest := h.latest
  rw [hslot, Option.map_some, ← List.getLast?_map] at hlatest
  obtain ⟨earlier, hsplit⟩ := List.getLast?_eq_some_iff.mp hlatest
  have hgrows := h.grows
  rw [hsplit] at hgrows hstamp
  rw [List.pairwise_append] at hgrows
  rcases List.mem_append.mp hstamp with hmem | hmem
  · exact (hgrows.2.2 stamp hmem _ (List.mem_singleton_self _)).le
  · exact (List.mem_singleton.mp hmem).le

section Facts

variable {capacity : ℕ} {s : Threads ι T} {r w : ℕ} {phase : ℕ → Phase ι}

/-! ### The slot of a claim -/

lemma Inv.holder_of_inside (hcap : 0 < capacity) (h : Inv capacity s r w phase) {t : ι} {i : ℕ}
    (hinside : s.Inside t i) : (phase i).holder = some t := by
  rcases hinside with ⟨hholding, rfl⟩
  obtain ⟨i, hi, hholder, hok⟩ := h.phase_of_pc hholding
  obtain ⟨slot, -, hs⟩ := h.slot_at hi
  obtain ⟨v, rfl, hposition⟩ := hok.position_eq hs hholder
  rw [hposition, Ring.index_cursor hcap h.shaped]
  exact hholder

lemma Inv.index_lt (hcap : 0 < capacity) (h : Inv capacity s r w phase) {t : ι} {i : ℕ}
    (hinside : s.Inside t i) : i < capacity := by
  rcases hinside with ⟨hholding, rfl⟩
  obtain ⟨i, hi, hholder, hok⟩ := h.phase_of_pc hholding
  obtain ⟨slot, -, hs⟩ := h.slot_at hi
  obtain ⟨v, rfl, hposition⟩ := hok.position_eq hs hholder
  rw [hposition, Ring.index_cursor hcap h.shaped]
  exact hi

/-- Which accesses claim a slot. -/
lemma Ring.advance_claims {ring : Ring T} {spurious : Bool} {pc : Pc T}
    (hbefore : pc.holding = false) (hafter : (ring.advance spurious pc).2.1.holding = true) :
    (∃ item overwrite position, pc = .pushCasWrite item overwrite position ∧
      ring.write = position ∧ spurious = false) ∨
    (∃ item position oldest, pc = .pushCasRead item position oldest ∧ ring.read = oldest) ∨
    ∃ position, pc = .popCasRead position ∧ ring.read = position ∧ spurious = false := by
  revert hbefore hafter
  fun_cases Ring.advance ring spurious pc <;> intro hbefore hafter <;> simp_all [Pc.holding]

/-- The slot of a cursor that no thread holds. -/
lemma Inv.unheld (hcap : 0 < capacity) (h : Inv capacity s r w phase) {v stamp : ℕ}
    (hphase : (phase (v % capacity)).holder = none)
    (hstamp : s.ring.slots[v % capacity]?.map Slot.stamp = some stamp) :
    s.ring.index (cursor capacity v) < capacity ∧
      (∀ u, ¬s.Inside u (s.ring.index (cursor capacity v))) ∧
      s.ring.slots[s.ring.index (cursor capacity v)]?.map Slot.stamp = some stamp := by
  rw [Ring.index_cursor hcap h.shaped]
  refine ⟨Nat.mod_lt v hcap, fun u hinside => ?_, hstamp⟩
  rw [h.holder_of_inside hcap hinside] at hphase
  cases hphase

/-- A claim goes through at a slot that nobody is inside, and the stamp that was found there is the
latest. -/
lemma Inv.claim (hcap : 0 < capacity) (h : Inv capacity s r w phase) {t : ι} {spurious : Bool}
    (hbefore : (s.pc t).holding = false)
    (hafter : (s.ring.advance spurious (s.pc t)).2.1.holding = true) :
    ∃ position stamp, (s.pc t).found = some (position, stamp) ∧
      s.ring.index (s.ring.advance spurious (s.pc t)).2.1.position = s.ring.index position ∧
      s.ring.index position < capacity ∧ (∀ u, ¬s.Inside u (s.ring.index position)) ∧
      s.ring.slots[s.ring.index position]?.map Slot.stamp = some stamp := by
  have hok := h.ownPc t
  rcases Ring.advance_claims hbefore hafter with
    ⟨item, overwrite, position, hpc, hcas, rfl⟩ | ⟨item, position, oldest, hpc, hcas⟩ |
      ⟨position, hpc, hcas, rfl⟩ <;>
    rw [hpc] at hok ⊢
  · obtain ⟨v, -, rfl, hstamp⟩ := hok
    obtain rfl : w = v := (cursor_inj hcap).mp (h.write.symm.trans hcas)
    obtain ⟨hphase, -⟩ := h.phase_free hcap hstamp
    obtain ⟨slot, hslot, hs⟩ := h.slot_at (Nat.mod_lt w hcap)
    rw [hphase] at hs
    obtain ⟨-, -, -, rfl⟩ := hs
    refine ⟨_, _, rfl, ?_, h.unheld hcap (by rw [hphase]; rfl) (by rw [hslot]; rfl)⟩
    rw [Ring.advance, if_pos ⟨hcas, rfl⟩]
    rfl
  · obtain ⟨v, -, rfl, rfl, hstamp⟩ := hok
    obtain ⟨rfl, hphase, slot, hslot, -, -, -, rfl⟩ := h.claimable hcap hcas hstamp
    rw [← Nat.add_mod_right] at hphase hslot
    refine ⟨_, _, rfl, ?_, h.unheld hcap (by rw [hphase]; rfl) (by rw [hslot]; rfl)⟩
    rw [Ring.advance, if_pos hcas]
    rfl
  · obtain ⟨v, -, rfl, hstamp⟩ := hok
    obtain ⟨rfl, hphase, slot, hslot, -, -, -, rfl⟩ := h.claimable hcap hcas hstamp
    refine ⟨_, _, rfl, ?_, h.unheld hcap (by rw [hphase]; rfl) (by rw [hslot]; rfl)⟩
    rw [Ring.advance, if_pos ⟨hcas, rfl⟩]
    rfl

/-- The stamps of a slot grow. -/
lemma Inv.stamp_lt_stored (hcap : 0 < capacity) (h : Inv capacity s r w phase) {t : ι} {i : ℕ}
    (hinside : s.Inside t i) {slot : Slot T} (hslot : s.ring.slots[i]? = some slot) {stamp : ℕ}
    (hstored : (s.pc t).stored s.ring.lap = some stamp) : slot.stamp < stamp := by
  have hi := h.index_lt hcap hinside
  have hholder := h.holder_of_inside hcap hinside
  have hok := h.holder i hi
  have hs := h.slot i slot hslot
  have hlap := two_mul_le_lapOf capacity
  rw [h.shaped.lap] at hstored
  generalize phase i = phase at hholder hok hs
  cases phase with
  | free | full => cases hholder
  | writing v u written =>
    obtain rfl : u = t := Option.some.inj hholder
    obtain ⟨-, -, -, rfl⟩ := hs
    cases written with
    | false =>
      obtain ⟨_, -, hpc⟩ := hok
      rw [hpc] at hstored
      cases hstored
    | true =>
      rw [show s.pc u = _ from hok] at hstored
      cases hstored
      exact Nat.lt_succ_self _
  | reading v u taken =>
    obtain rfl : u = t := Option.some.inj hholder
    obtain ⟨-, -, -, rfl⟩ := hs
    cases taken with
    | false =>
      rw [show s.pc u = _ from hok] at hstored
      cases hstored
    | true =>
      obtain ⟨_, -, hpc⟩ := hok
      rw [hpc] at hstored
      cases hstored
      dsimp only
      omega
  | replacing v u stage =>
    obtain rfl : u = t := Option.some.inj hholder
    obtain ⟨-, -, -, -, rfl, -⟩ := hs
    cases stage with
    | claimed | published =>
      obtain ⟨_, -, hpc⟩ := hok
      rw [hpc] at hstored
      cases hstored
    | replaced =>
      obtain ⟨_, -, hpc⟩ := hok
      rw [hpc, cursor_add_capacity hcap] at hstored
      cases hstored
      dsimp only
      omega

end Facts

/-! ### What the accesses leave alone -/

lemma Ring.stamp_modify (slots : List (Slot T)) (f : Slot T → Slot T) (i j : ℕ)
    (h : i ≠ j ∨ ∀ slot, (f slot).stamp = slot.stamp) :
    (slots.modify i f)[j]?.map Slot.stamp = slots[j]?.map Slot.stamp := by
  rw [List.getElem?_modify, Option.map_eq_map, Option.map_map]
  congr 1
  funext slot
  dsimp only [Function.comp]
  split_ifs with heq
  · exact h.resolve_left (fun hne => hne heq) slot
  · rfl

lemma Ring.advance_index {ring : Ring T} {spurious : Bool} {pc : Pc T} (position : ℕ) :
    (ring.advance spurious pc).1.index position = ring.index position := by
  fun_cases Ring.advance ring spurious pc <;> rfl

/-- A thread changes the stamp of no slot that it is not inside. -/
lemma Ring.advance_elsewhere {ring : Ring T} {pc : Pc T} {i : ℕ}
    (h : ¬(pc.holding = true ∧ ring.index pc.position = i)) (spurious : Bool) :
    (ring.advance spurious pc).1.slots[i]?.map Slot.stamp = ring.slots[i]?.map Slot.stamp := by
  revert h
  fun_cases Ring.advance ring spurious pc <;> intro h <;> try rfl
  all_goals first
    | exact Ring.stamp_modify _ _ _ _ (.inr fun _ => rfl)
    | exact Ring.stamp_modify _ _ _ _ (.inl fun heq => h ⟨rfl, heq⟩)

/-- What a thread knows of a slot that it is not inside stays in order. -/
lemma Ring.synchronize_elsewhere [DecidableEq ι] {ring : Ring T} {pc : Pc T} {i : ℕ}
    (h : ¬(pc.holding = true ∧ ring.index pc.position = i)) (spurious : Bool) (t : ι)
    (m : Memory ι Location ℕ ℕ) :
    (ring.synchronize spurious t m pc).order (.stamp i) = m.order (.stamp i) ∧
      (ring.synchronize spurious t m pc).accesses i = m.accesses i := by
  have hread : Location.stamp i ≠ .read := by intro heq; cases heq
  have hwrite : Location.stamp i ≠ .write := by intro heq; cases heq
  revert h
  fun_cases Ring.synchronize ring spurious t m pc <;> intro h <;>
    first
    | exact ⟨rfl, Memory.access_accesses_of_ne _ _ fun heq => h ⟨rfl, heq.symm⟩⟩
    | exact ⟨Memory.release_order_of_ne _ _ _ fun heq => h ⟨rfl, (Location.stamp.inj heq).symm⟩, rfl⟩
    | simp [Memory.release_order_of_ne, hread, hwrite]

lemma Ring.extends_synchronize [DecidableEq ι] (ring : Ring T) (spurious : Bool) (t : ι)
    (m : Memory ι Location ℕ ℕ) (pc : Pc T) :
    m.Extends (ring.synchronize spurious t m pc) := by
  fun_cases Ring.synchronize ring spurious t m pc <;>
    first
    | exact m.extends_acquireLatest t _
    | exact (m.extends_acquireLatest t _).trans (Memory.extends_release ..)
    | exact m.extends_release t _ _
    | exact m.extends_access t _
    | exact .refl m

lemma Ring.advance_found {ring : Ring T} {spurious : Bool} {pc : Pc T} (hpc : pc.loading = none)
    {x : ℕ × ℕ} (h : (ring.advance spurious pc).2.1.found = some x) : pc.found = some x := by
  revert hpc h
  fun_cases Ring.advance ring spurious pc <;> intro hpc h <;>
    first
    | cases h; done
    | cases hpc; done
    | exact h

/-- What a thread does to the slot that it is inside. -/
lemma Ring.advance_holding [DecidableEq ι] {ring : Ring T} {spurious : Bool} {pc : Pc T}
    (h : pc.holding = true) (hfault : (ring.advance spurious pc).2.1 ≠ .fault) (t : ι)
    (m : Memory ι Location ℕ ℕ) :
    ((ring.advance spurious pc).2.1.holding = true ∧
      (ring.advance spurious pc).2.1.position = pc.position ∧
      (∀ i : ℕ, (ring.advance spurious pc).1.slots[i]?.map Slot.stamp =
        ring.slots[i]?.map Slot.stamp) ∧
      (ring.synchronize spurious t m pc = m.release t .write (ring.next pc.position) ∨
        ring.synchronize spurious t m pc = m.access t (ring.index pc.position))) ∨
    (ring.advance spurious pc).2.1.holding = false ∧ ∃ stamp,
      (pc.stored ring.lap = some stamp) ∧
      (ring.advance spurious pc).1 = ring.setStamp pc.position stamp ∧
      ring.synchronize spurious t m pc = m.release t (.stamp (ring.index pc.position)) stamp := by
  revert h hfault
  fun_cases Ring.advance ring spurious pc <;> intro h hfault <;>
    first
    | cases h; done
    | exact absurd rfl hfault
    | exact .inr ⟨rfl, _, rfl, rfl, rfl⟩
    | exact .inl ⟨rfl, rfl, fun _ => rfl, .inl rfl⟩
    | exact .inl ⟨rfl, rfl, fun _ => Ring.stamp_modify _ _ _ _ (.inr fun _ => rfl), .inr rfl⟩

section Steps

variable {s s' : WeakThreads ι T} {t : ι} {i : ℕ}

/-! ### Steps at one slot -/

lemma StampsOk.congr {ring ring' : Ring T} {m m' : Memory ι Location ℕ ℕ} (h : StampsOk ring m i)
    (horder : m'.order (.stamp i) = m.order (.stamp i))
    (hstamp : ring'.slots[i]?.map Slot.stamp = ring.slots[i]?.map Slot.stamp) :
    StampsOk ring' m' i where
  latest := by rw [horder, hstamp, h.latest]
  grows := by
    rw [horder]
    exact h.grows

/-- A step at another slot, or one that leaves the value and the stamp of this one. -/
lemma Guarded.frame (h : Guarded s i) (hext : s.memory.Extends s'.memory)
    (horder : s'.memory.order (.stamp i) = s.memory.order (.stamp i))
    (haccesses : s'.memory.accesses i = s.memory.accesses i)
    (hstamp : s'.threads.ring.slots[i]?.map Slot.stamp = s.threads.ring.slots[i]?.map Slot.stamp)
    (hinside : ∀ u, s'.threads.Inside u i ↔ s.threads.Inside u i) : Guarded s' i where
  stamps := h.stamps.congr horder hstamp
  owned u hu := (h.owned u ((hinside u).mp hu)).extend hext horder haccesses
  handed hnone :=
    (h.handed fun u hu => hnone u ((hinside u).mpr hu)).congr horder haccesses

/-- The thread inside accesses the value. -/
lemma Guarded.access [DecidableEq ι] (h : Guarded s i)
    (hmemory : s'.memory = s.memory.access t i)
    (hstamp : s'.threads.ring.slots[i]?.map Slot.stamp = s.threads.ring.slots[i]?.map Slot.stamp)
    (hinside : ∀ u, s'.threads.Inside u i ↔ u = t) (ht : s.threads.Inside t i) : Guarded s' i where
  stamps := h.stamps.congr (by rw [hmemory]; rfl) hstamp
  owned u hu := by
    rw [(hinside u).mp hu, hmemory]
    exact (h.owned t ht).access
  handed hnone := absurd ((hinside t).mpr rfl) (hnone t)

/-- The thread inside stores a stamp and leaves. -/
lemma Guarded.release [DecidableEq ι] (h : Guarded s i) {slot : Slot T} {stamp : ℕ}
    (hslot : s.threads.ring.slots[i]? = some slot) (hlt : slot.stamp < stamp)
    (hmemory : s'.memory = s.memory.release t (.stamp i) stamp)
    (hstamp : s'.threads.ring.slots[i]?.map Slot.stamp = some stamp)
    (hnone : ∀ u, ¬s'.threads.Inside u i) (ht : s.threads.Inside t i) : Guarded s' i where
  stamps := by
    have horder := s.memory.release_order t (.stamp i) stamp
    rw [← hmemory] at horder
    refine ⟨?_, ?_⟩
    · rw [horder, List.getLast?_concat, hstamp]
      rfl
    · rw [horder, List.map_append, List.pairwise_append]
      refine ⟨h.stamps.grows, List.pairwise_singleton .., fun value hvalue other hother => ?_⟩
      obtain rfl : other = stamp := List.mem_singleton.mp hother
      exact (h.stamps.le_latest hslot hvalue).trans_lt hlt
  owned u hu := absurd hu (hnone u)
  handed _ := by
    rw [hmemory]
    exact (h.owned t ht).hands_release stamp

/-- A thread that has found the latest stamp comes in. -/
lemma Guarded.claim (h : Guarded s i) {stamp : ℕ} (hext : s.memory.Extends s'.memory)
    (horder : s'.memory.order (.stamp i) = s.memory.order (.stamp i))
    (haccesses : s'.memory.accesses i = s.memory.accesses i)
    (hlatest : s.threads.ring.slots[i]?.map Slot.stamp = some stamp)
    (hstamp : s'.threads.ring.slots[i]?.map Slot.stamp = s.threads.ring.slots[i]?.map Slot.stamp)
    (hsaw : s.memory.Saw t (.stamp i) stamp) (hnone : ∀ u, ¬s.threads.Inside u i)
    (hinside : ∀ u, s'.threads.Inside u i ↔ u = t) : Guarded s' i where
  stamps := h.stamps.congr horder hstamp
  owned u hu := by
    rw [(hinside u).mp hu]
    have howns := hsaw.owns (h.stamps.grows.imp fun hlt => hlt.ne)
      (h.stamps.latest.trans hlatest) (h.handed hnone)
    exact howns.extend hext horder haccesses
  handed hnone' := absurd ((hinside t).mpr rfl) (hnone' t)

end Steps

section Runs

variable {capacity : ℕ} {s s' : WeakThreads ι T} {t : ι} {i : ℕ}

lemma Threads.inside_others (s s' : Threads ι T) (hpc : ∀ u, u ≠ t → s'.pc u = s.pc u)
    (hindex : ∀ position, s'.ring.index position = s.ring.index position) {u : ι} (hu : u ≠ t) :
    s'.Inside u i ↔ s.Inside u i := by
  rw [Threads.Inside, Threads.Inside, hpc u hu, hindex]

/-- Threads other than the one that takes a step still know what they have found. -/
lemma WeakInv.found_step (h : WeakInv capacity s) (hext : s.memory.Extends s'.memory)
    (hpc : ∀ u, u ≠ t → s'.threads.pc u = s.threads.pc u)
    (hindex : ∀ position, s'.threads.ring.index position = s.threads.ring.index position)
    (hfound : ∀ position stamp, (s'.threads.pc t).found = some (position, stamp) →
      s'.memory.Saw t (.stamp (s.threads.ring.index position)) stamp) (u : ι) (position stamp : ℕ)
    (hu : (s'.threads.pc u).found = some (position, stamp)) :
    s'.memory.Saw u (.stamp (s'.threads.ring.index position)) stamp := by
  rw [hindex]
  by_cases heq : u = t
  · subst heq
    exact hfound position stamp hu
  · rw [hpc u heq] at hu
    exact (h.found u position stamp hu).extend hext

variable [DecidableEq ι]

/-- An access other than a load of a stamp. -/
def WeakThreads.access (s : WeakThreads ι T) (t : ι) (spurious : Bool) : WeakThreads ι T :=
  ⟨s.threads.access t spurious,
    s.threads.ring.synchronize spurious t s.memory (s.threads.pc t)⟩

section Access

variable {spurious : Bool}

lemma Threads.access_pc (s : Threads ι T) (t : ι) (spurious : Bool) :
    (s.access t spurious).pc t = (s.ring.advance spurious (s.pc t)).2.1 :=
  Function.update_self ..

lemma Threads.access_index (s : Threads ι T) (t : ι) (spurious : Bool) (position : ℕ) :
    (s.access t spurious).ring.index position = s.ring.index position :=
  Ring.advance_index position

lemma Threads.access_others (s : Threads ι T) (t : ι) (spurious : Bool) {u : ι} (hu : u ≠ t) :
    (s.access t spurious).pc u = s.pc u :=
  Function.update_of_ne hu ..

lemma Threads.access_inside (s : Threads ι T) (spurious : Bool) (i : ℕ) {u : ι} (hu : u ≠ t) :
    (s.access t spurious).Inside u i ↔ s.Inside u i :=
  Threads.inside_others s _ (fun _ => s.access_others t spurious) (s.access_index t spurious) hu

/-- The slot that a thread is inside when it performs an access. -/
lemma Guarded.access_inside {r w : ℕ} {phase : ℕ → Phase ι} (hcap : 0 < capacity)
    (hinv : Inv capacity s.threads r w phase) (h : Guarded s i) (hin : s.threads.Inside t i)
    (hfault : (s.threads.access t spurious).pc t ≠ .fault) : Guarded (s.access t spurious) i := by
  have halone : ∀ u, u ≠ t → ¬s.threads.Inside u i :=
    fun u hu hother => hu ((hinv.exclusive hcap).one_inside u t i hother hin)
  have hothers : ∀ u, u ≠ t → ¬(s.threads.access t spurious).Inside u i :=
    fun u hu hother => halone u hu ((s.threads.access_inside spurious i hu).mp hother)
  obtain ⟨hholding, hat⟩ := id hin
  rw [s.threads.access_pc] at hfault
  rcases Ring.advance_holding hholding hfault t s.memory with
    ⟨hstays, hposition, hstamp, hmemory⟩ | ⟨hleaves, stamp, hstored, hring, hmemory⟩
  · have hafter : (s.threads.access t spurious).Inside t i :=
      ⟨by rw [s.threads.access_pc, hstays],
        by rw [s.threads.access_index, s.threads.access_pc, hposition, hat]⟩
    have honly : ∀ u, (s.threads.access t spurious).Inside u i ↔ u = t := by
      refine fun u => ⟨fun hother => ?_, fun hu => hu ▸ hafter⟩
      by_contra hu
      exact hothers u hu hother
    rcases hmemory with hmemory | hmemory
    · have hne : Location.stamp i ≠ .write := by intro heq; cases heq
      refine h.frame (s.threads.ring.extends_synchronize ..) ?_ ?_ (hstamp i) fun u => ?_
      · exact (congrArg (fun m => m.order (.stamp i)) hmemory).trans
          (s.memory.release_order_of_ne t _ hne)
      · exact congrArg (fun m => m.accesses i) hmemory
      · by_cases hu : u = t
        · rw [hu]
          exact iff_of_true hafter hin
        · exact iff_of_false (hothers u hu) (halone u hu)
    · rw [hat] at hmemory
      exact h.access hmemory (hstamp i) honly hin
  · obtain ⟨slot, hslot, -⟩ := hinv.slot_at (hinv.index_lt hcap hin)
    rw [hat] at hmemory
    refine h.release hslot (hinv.stamp_lt_stored hcap hin hslot hstored) hmemory ?_
      (fun u hu => ?_) hin
    · have hring : (s.threads.access t spurious).ring =
          s.threads.ring.setStamp (s.threads.pc t).position stamp := hring
      rw [WeakThreads.access, hring, Ring.setStamp, hat, List.getElem?_modify, hslot,
        Option.map_eq_map, Option.map_some, if_pos rfl, Option.map_some]
    · by_cases heq : u = t
      · rw [heq] at hu
        have hstill := hu.1
        rw [WeakThreads.access, s.threads.access_pc, hleaves] at hstill
        cases hstill
      · exact hothers u heq hu

/-- A slot that a thread is not inside when it performs an access; it may come in by that. -/
lemma WeakInv.access_outside {r w : ℕ} {phase : ℕ → Phase ι} (hcap : 0 < capacity)
    (h : WeakInv capacity s) (hinv : Inv capacity s.threads r w phase) (hi : i < capacity)
    (hout : ¬s.threads.Inside t i) (hfault : (s.threads.access t spurious).pc t ≠ .fault) :
    Guarded (s.access t spurious) i := by
  have hext := s.threads.ring.extends_synchronize spurious t s.memory (s.threads.pc t)
  obtain ⟨horder, haccesses⟩ := Ring.synchronize_elsewhere hout spurious t s.memory
  have hstamp := Ring.advance_elsewhere hout spurious
  rw [s.threads.access_pc] at hfault
  by_cases hafter : (s.threads.access t spurious).Inside t i
  · obtain ⟨hentered, hat⟩ := id hafter
    rw [s.threads.access_index, s.threads.access_pc] at hat
    rw [s.threads.access_pc] at hentered
    have houtside : (s.threads.pc t).holding = false := by
      by_contra hholding
      rw [Bool.not_eq_false] at hholding
      rcases Ring.advance_holding hholding hfault t s.memory with
        ⟨-, hposition, -, -⟩ | ⟨hleaves, -⟩
      · exact hout ⟨hholding, by rw [← hposition, hat]⟩
      · rw [hentered] at hleaves
        cases hleaves
    obtain ⟨position, stamp, hfound, hslot, -, hnone, hlatest⟩ := hinv.claim hcap houtside hentered
    obtain rfl : s.threads.ring.index position = i := hslot.symm.trans hat
    refine (h.guarded _ hi).claim hext horder haccesses hlatest hstamp
      (h.found t position stamp hfound) hnone fun u => ⟨fun hin => ?_, fun hu => hu ▸ hafter⟩
    by_contra hu
    exact hnone u ((s.threads.access_inside spurious _ hu).mp hin)
  · refine (h.guarded i hi).frame hext horder haccesses hstamp fun u => ?_
    by_cases hu : u = t
    · rw [hu]
      exact iff_of_false hafter hout
    · exact s.threads.access_inside spurious i hu

lemma WeakInv.access (hcap : 0 < capacity) (h : WeakInv capacity s)
    (hloading : (s.threads.pc t).loading = none) {threads : Threads ι T}
    (hnext : s.threads.next (.advance t spurious) = some threads) :
    WeakInv capacity (s.access t spurious) := by
  obtain ⟨r, w, phase, hinv⟩ := h.inv
  obtain ⟨r', w', phase', hinv'⟩ := hinv.step hcap hnext
  obtain ⟨-, -, rfl⟩ := Threads.next_advance hnext
  have hext := s.threads.ring.extends_synchronize spurious t s.memory (s.threads.pc t)
  have hfault : (s.threads.access t spurious).pc t ≠ .fault := by
    intro hfault
    have hok := hinv'.ownPc t
    rw [hfault] at hok
    exact hok
  refine ⟨⟨r', w', phase', hinv'⟩, fun i hi => ?_,
    h.found_step hext (fun _ => s.threads.access_others t spurious)
      (s.threads.access_index t spurious) fun position stamp hfound => ?_⟩
  · by_cases hin : s.threads.Inside t i
    · exact (h.guarded i hi).access_inside hcap hinv hin hfault
    · exact h.access_outside hcap hinv hi hin hfault
  · rw [WeakThreads.access, s.threads.access_pc] at hfound
    exact (h.found t position stamp (Ring.advance_found hloading hfound)).extend hext

end Access

section Stay

variable {pc : Pc T} {memory : Memory ι Location ℕ ℕ}

/-- A step that changes nothing but the program point of a thread outside every slot and what that
thread knows. -/
lemma WeakInv.stay (h : WeakInv capacity s)
    (hinv : ∃ r w phase,
      Inv capacity { s.threads with pc := Function.update s.threads.pc t pc } r w phase)
    (hbefore : (s.threads.pc t).holding = false) (hafter : pc.holding = false)
    (hext : s.memory.Extends memory) (horder : memory.order = s.memory.order)
    (haccesses : memory.accesses = s.memory.accesses)
    (hfound : ∀ position stamp, pc.found = some (position, stamp) →
      memory.Saw t (.stamp (s.threads.ring.index position)) stamp) :
    WeakInv capacity
      ⟨{ s.threads with pc := Function.update s.threads.pc t pc }, memory⟩ := by
  have hpc : Function.update s.threads.pc t pc t = pc := Function.update_self ..
  have hothers : ∀ u, u ≠ t → Function.update s.threads.pc t pc u = s.threads.pc u :=
    fun u hu => Function.update_of_ne hu ..
  refine ⟨hinv, fun i hi => ?_,
    h.found_step hext hothers (fun _ => rfl) fun position stamp hfound' => ?_⟩
  · refine (h.guarded i hi).frame hext (by rw [horder]) (by rw [haccesses]) rfl fun u => ?_
    by_cases hu : u = t
    · rw [hu]
      refine iff_of_false (fun hin => ?_) fun hin => ?_
      · have hholding : (Function.update s.threads.pc t pc t).holding = true := hin.1
        rw [hpc, hafter] at hholding
        cases hholding
      · have hholding := hin.1
        rw [hbefore] at hholding
        cases hholding
    · exact Threads.inside_others s.threads { s.threads with pc := Function.update s.threads.pc t pc }
        hothers (fun _ => rfl) hu
  · dsimp only at hfound'
    rw [hpc] at hfound'
    exact hfound position stamp hfound'

lemma WeakInv.call (h : WeakInv capacity s) {threads : Threads ι T}
    (hcall : s.threads.call t pc = some threads)
    (hinv : ∃ r w phase, Inv capacity threads r w phase) (hentry : pc.holding = false)
    (hfound : pc.found = none) : WeakInv capacity ⟨threads, s.memory⟩ := by
  cases hpc : s.threads.pc t with
  | idle =>
    rw [Threads.call, hpc] at hcall
    obtain rfl := Option.some.inj hcall
    refine h.stay hinv (by rw [hpc]; rfl) hentry (.refl _) rfl rfl fun position stamp heq => ?_
    rw [hfound] at heq
    cases heq
  | _ =>
    rw [Threads.call, hpc] at hcall
    cases hcall

lemma Pc.afterStamp_found {ring : Ring T} {stamp position position' stamp' : ℕ} {before : Pc T}
    (hpc : before.loading = some position)
    (h : (before.afterStamp ring stamp).found = some (position', stamp')) :
    position' = position ∧ stamp' = stamp := by
  revert h
  cases before <;> cases hpc <;> unfold Pc.afterStamp <;> dsimp only
  case pushLoadStamp =>
    split_ifs with hfree
    · intro h
      cases h
      exact ⟨rfl, hfree.symm⟩
    · cases ring.oldest position with
      | none => intro h; cases h
      | some oldest =>
        dsimp only
        split_ifs with hfull
        · intro h
          cases h
          exact ⟨rfl, hfull.symm⟩
        · intro h; cases h
  case popLoadStamp =>
    split_ifs with hfull
    · intro h
      cases h
      exact ⟨rfl, hfull.symm⟩
    · intro h; cases h
    · intro h; cases h

/-- A load finds a stamp that is not newer than the latest one. -/
lemma WeakInv.loadStamp (hcap : 0 < capacity) (h : WeakInv capacity s) {index : ℕ}
    (hnext : s.loadStamp t index = some s') : WeakInv capacity s' := by
  obtain ⟨r, w, phase, hinv⟩ := h.inv
  obtain ⟨position, hpc, hnext⟩ := Option.bind_eq_some_iff.mp hnext
  obtain ⟨message, hmessage, hnext⟩ := Option.bind_eq_some_iff.mp hnext
  split_ifs at hnext
  obtain rfl := Option.some.inj hnext
  have hloading : (s.threads.pc t).loading.isSome = true := by rw [hpc]; rfl
  have hstamp : StampGe s.threads.ring.slots (s.threads.ring.index position) message.value := by
    intro slot hslot
    have hlt : s.threads.ring.index position < capacity := by
      rw [← hinv.shaped.length]
      exact (List.getElem?_eq_some_iff.mp hslot).1
    exact (h.guarded _ hlt).stamps.le_latest hslot
      (List.mem_map_of_mem (List.mem_of_getElem? hmessage))
  refine h.stay ⟨r, w, phase, hinv.loadStamp hcap hpc hstamp⟩ (Pc.loading_holding hloading)
    (Pc.afterStamp_holding hloading ..) (s.memory.extends_acquire ..) (s.memory.acquire_order ..)
    (s.memory.acquire_accesses ..) fun position' stamp hfound => ?_
  obtain ⟨rfl, rfl⟩ := Pc.afterStamp_found hpc hfound
  exact Memory.saw_acquire hmessage t

end Stay

lemma WeakInv.next (hcap : 0 < capacity) (h : WeakInv capacity s) {a : WeakAction ι T}
    (hnext : s.next a = some s') : WeakInv capacity s' := by
  obtain ⟨r, w, phase, hinv⟩ := h.inv
  cases a with
  | loadStamp t index => exact h.loadStamp hcap hnext
  | step action =>
    cases action with
    | push t item overwrite | pop t | len t =>
      obtain ⟨threads, hthreads, rfl⟩ := Option.map_eq_some_iff.mp hnext
      exact h.call hthreads (hinv.step hcap hthreads) rfl rfl
    | advance t spurious =>
      cases hloading : (s.threads.pc t).loading with
      | some position =>
        rw [WeakThreads.next, hloading] at hnext
        cases hnext
      | none =>
        rw [WeakThreads.next, hloading] at hnext
        obtain ⟨threads, hthreads, rfl⟩ := Option.map_eq_some_iff.mp hnext
        obtain ⟨-, -, rfl⟩ := Threads.next_advance hthreads
        exact h.access hcap hloading hthreads

omit [DecidableEq ι] in
lemma weakInv_new : WeakInv capacity (WeakThreads.new capacity : WeakThreads ι T) where
  inv := ⟨0, 0, _, inv_new⟩
  guarded i hi := by
    have hslot : (WeakThreads.new capacity : WeakThreads ι T).threads.ring.slots[i]? =
        some ⟨i * 2, none⟩ := by
      simp [WeakThreads.new, Threads.new, Ring.new, List.getElem?_range hi]
    refine ⟨⟨by rw [hslot]; rfl, List.pairwise_singleton ..⟩, fun t hin => ?_, fun _ => ?_⟩
    · cases hin.1
    · exact ⟨_, rfl, le_rfl⟩
  found t position stamp h := by cases h

lemma weakInv_of_reachable (hcap : 0 < capacity)
    (hs : (weakRingSystem ι T capacity).Reachable s) : WeakInv capacity s := by
  refine hs.invariant (P := WeakInv capacity) ?_ fun _ _ _ h hnext => h.next hcap hnext
  rintro s rfl
  exact weakInv_new

/-! ### The answers -/

omit [DecidableEq ι] in
lemma Pc.overwriting_of_outside {pc : Pc T} (h : pc.holding = false) (lap : ℕ) :
    pc.overwriting lap = none := by
  cases pc <;> first | rfl | cases h

lemma WeakInv.logged (hcap : 0 < capacity) (h : WeakInv capacity s)
    (hl : Logged capacity s.threads) {a : WeakAction ι T} (hnext : s.next a = some s') :
    Logged capacity s'.threads := by
  obtain ⟨r, w, phase, hinv⟩ := h.inv
  cases a with
  | loadStamp t index =>
    obtain ⟨position, hpc, hnext⟩ := Option.bind_eq_some_iff.mp hnext
    obtain ⟨message, -, hnext⟩ := Option.bind_eq_some_iff.mp hnext
    split_ifs at hnext
    obtain rfl := Option.some.inj hnext
    refine hl.of_pc t (Pc.overwriting_of_outside (Pc.afterStamp_holding ?_ ..))
    rw [hpc]
    rfl
  | step action =>
    cases action with
    | push t item overwrite | pop t | len t =>
      obtain ⟨threads, hthreads, rfl⟩ := Option.map_eq_some_iff.mp hnext
      exact hl.of_call hthreads fun _ => rfl
    | advance t spurious =>
      rw [WeakThreads.next] at hnext
      split at hnext
      · cases hnext
      · obtain ⟨threads, hthreads, rfl⟩ := Option.map_eq_some_iff.mp hnext
        obtain ⟨-, -, rfl⟩ := Threads.next_advance hthreads
        exact hl.of_access hcap hinv t spurious

lemma weak_logged_of_reachable (hcap : 0 < capacity)
    (hs : (weakRingSystem ι T capacity).Reachable s) : Logged capacity s.threads := by
  refine hs.invariant' (P := fun s => Logged capacity s.threads) ?_ ?_
  · rintro s rfl
    exact logged_new
  · intro s a s' hreach hl hnext
    exact (weakInv_of_reachable hcap hreach).logged hcap hl hnext

/-- Under release and acquire, with loads that may find stale stamps, no run on a ring has a data race
on the values or stores a stamp past another one, and what holds of the slots, of the order of the
items and of the answers in all interleavings still holds. -/
theorem ring_race_free (hcap : 0 < capacity)
    (hs : (weakRingSystem ι T capacity).Reachable s) :
    s.RaceFree ∧ s.threads.Exclusive ∧ s.threads.Ordered capacity ∧
      s.threads.Answered capacity := by
  have h := weakInv_of_reachable hcap hs
  obtain ⟨r, w, phase, hinv⟩ := h.inv
  have howns : ∀ t, (s.threads.pc t).holding = true →
      s.memory.Owns t (.stamp (s.threads.ring.index (s.threads.pc t).position))
        (s.threads.ring.index (s.threads.pc t).position) := by
    intro t hholding
    have hin : s.threads.Inside t (s.threads.ring.index (s.threads.pc t).position) :=
      ⟨hholding, rfl⟩
    exact (h.guarded _ (hinv.index_lt hcap hin)).owned t hin
  exact ⟨⟨fun t ht => (howns t ht).not_races, fun t ht => (howns t ht).not_overtakes⟩,
    hinv.exclusive hcap, hinv.ordered hcap, (weak_logged_of_reachable hcap hs).answered hcap hinv⟩

/-- On a ring of one slot, the second push finds the stamp that was there before the item was taken
out, and tries again. -/
theorem ring_race_free_stale :
    let s := (System.replay WeakThreads.next (WeakThreads.new 1 : WeakThreads (Fin 2) ℕ)
      ([.step (.push 0 7 false), .step (.advance 0 false), .loadStamp 0 0] ++
        .replicate 3 (.step (.advance 0 false)) ++
        [.step (.pop 1), .step (.advance 1 false), .loadStamp 1 1] ++
        .replicate 3 (.step (.advance 1 false)) ++
        [.step (.push 0 8 false), .step (.advance 0 false), .loadStamp 0 1,
          .step (.advance 0 false), .step (.advance 0 false), .loadStamp 0 2] ++
        .replicate 2 (.step (.advance 0 false)))).get rfl
    s.RaceFree ∧ s.threads.Exclusive ∧ s.threads.Ordered 1 ∧ s.threads.Answered 1 :=
  ring_race_free (by decide) (System.reachable_replay rfl)

/-! ### The interleavings among the runs -/

lemma Ring.bounded_synchronize {m : Memory ι Location ℕ ℕ} (h : m.Bounded) (ring : Ring T)
    (spurious : Bool) (t : ι) (pc : Pc T) : (ring.synchronize spurious t m pc).Bounded := by
  fun_cases Ring.synchronize ring spurious t m pc <;>
    first
    | exact h.acquireLatest t _
    | exact (h.acquireLatest t _).release t _ _
    | exact h.release t _ _
    | exact h.access t _
    | exact h

/-- A load that finds the latest stamp, as in the interleavings. -/
lemma WeakInv.loadStamp_latest (hcap : 0 < capacity) (h : WeakInv capacity s)
    (hbounded : s.memory.Bounded) {position : ℕ} (hpc : (s.threads.pc t).loading = some position)
    (spurious : Bool) : ∃ index, s.loadStamp t index = some ⟨s.threads.access t spurious,
      s.memory.acquire t (.stamp (s.threads.ring.index position)) index⟩ := by
  obtain ⟨r, w, phase, hinv⟩ := h.inv
  have hlt : s.threads.ring.index position < capacity := by
    have hok := hinv.ownPc t
    generalize s.threads.pc t = pc at hpc hok
    cases pc <;> cases hpc <;> obtain ⟨v, -, rfl⟩ := hok <;>
      rw [Ring.index_cursor hcap hinv.shaped] <;> exact Nat.mod_lt v hcap
  obtain ⟨slot, hslot, -⟩ := hinv.slot_at hlt
  have hlatest := (h.guarded _ hlt).stamps.latest
  rw [hslot] at hlatest
  obtain ⟨message, hlast, hvalue⟩ := Option.map_eq_some_iff.mp hlatest
  rw [List.getLast?_eq_getElem?] at hlast
  have hview := hbounded.views t (.stamp (s.threads.ring.index position))
  refine ⟨_, Option.bind_eq_some_iff.mpr ⟨position, hpc,
    Option.bind_eq_some_iff.mpr ⟨message, hlast, ?_⟩⟩⟩
  rw [if_pos (Nat.le_sub_one_of_lt hview), hvalue,
    Threads.access_eq (Ring.advance_loading hpc hslot spurious), List.map_nil, List.append_nil]

omit [DecidableEq ι] in
lemma WeakThreads.bounded_new : (WeakThreads.new capacity : WeakThreads ι T).memory.Bounded where
  views t l := by cases l <;> exact Nat.zero_lt_one
  messages l message hmessage l' := by
    have hzero : message.view = 0 := by
      cases l <;> rw [List.mem_singleton.mp hmessage]
    rw [hzero]
    cases l' <;> exact Nat.zero_lt_one

/-- A run under release and acquire may go as any interleaving does. -/
def interleavings (hcap : 0 < capacity) :
    System.Simulation (ringSystem ι T capacity) (weakRingSystem ι T capacity) where
  rel s weak := weak.threads = s ∧ WeakInv capacity weak ∧ weak.memory.Bounded
  init := by
    rintro s rfl
    exact ⟨WeakThreads.new capacity, rfl, rfl, weakInv_new, WeakThreads.bounded_new⟩
  step := by
    rintro s a s' weak ⟨rfl, h, hbounded⟩ hstep
    have hstep : weak.threads.next a = some s' := hstep
    right
    have hcall : weak.next (.step a) =
        (weak.threads.next a).map (fun threads => ⟨threads, weak.memory⟩) →
        ∃ b weak', weak.next b = some weak' ∧ weak'.threads = s' ∧ WeakInv capacity weak' ∧
          weak'.memory.Bounded := by
      intro heq
      have hnext : weak.next (.step a) = some ⟨s', weak.memory⟩ := by
        rw [heq, hstep]
        rfl
      exact ⟨_, _, hnext, rfl, h.next hcap hnext, hbounded⟩
    cases a with
    | push t item overwrite | pop t | len t => exact hcall rfl
    | advance t spurious =>
      cases hloading : (weak.threads.pc t).loading with
      | none =>
        have hnext : weak.next (.step (.advance t spurious)) = some ⟨s',
            weak.threads.ring.synchronize spurious t weak.memory (weak.threads.pc t)⟩ := by
          rw [WeakThreads.next, hloading]
          dsimp only
          rw [hstep]
          rfl
        exact ⟨_, _, hnext, rfl, h.next hcap hnext, Ring.bounded_synchronize hbounded ..⟩
      | some position =>
        obtain ⟨-, -, rfl⟩ := Threads.next_advance hstep
        obtain ⟨index, hload⟩ := h.loadStamp_latest hcap hbounded hloading spurious
        have hnext : weak.next (.loadStamp t index) = some _ := hload
        exact ⟨_, _, hnext, rfl, h.next hcap hnext, hbounded.acquire t _ index⟩

/-- The runs under release and acquire go through all states of the interleavings. -/
theorem ring_interleavings_occur (hcap : 0 < capacity) {threads : Threads ι T}
    (hs : (ringSystem ι T capacity).Reachable threads) :
    ∃ weak, (weakRingSystem ι T capacity).Reachable weak ∧ weak.threads = threads := by
  obtain ⟨weak, hreach, hthreads, -⟩ := (interleavings hcap).reachable hs
  exact ⟨weak, hreach, hthreads⟩

/-- A push that is about to store its stamp while a pop is under way. -/
theorem ring_interleavings_occur_pushing :
    let threads := (System.replay Threads.next (Threads.new 1 : Threads (Fin 2) ℕ)
      ([.push 0 7 false] ++ .replicate 4 (.advance 0 false) ++ [.pop 1, .advance 1 false])).get rfl
    ∃ weak, (weakRingSystem (Fin 2) ℕ 1).Reachable weak ∧ weak.threads = threads :=
  ring_interleavings_occur (by decide) (System.reachable_replay rfl)

end Runs

end DoomFishUtils.Spsc
