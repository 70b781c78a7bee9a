import Mathlib.Data.List.Forall2
import Mathlib.Data.List.Nodup
import DoomFishUtils.Spsc.Accesses

/-!
# Exclusion and order in the ring

In every interleaving a slot is accessed by one thread at a time, values are only taken
from slots that hold one, and the items leave the ring in the order in which they were
accepted.
-/

namespace DoomFishUtils.Spsc
set_option autoImplicit false
open Library

variable {ι T : Type*}

/-- The read position that a thread has claimed and whose item it has not yet returned. -/
def Pc.readClaim (lap : ℕ) : Pc T → Option ℕ
  | .popReadValue position | .popStoreStamp position _ => some position
  | .pushStoreWrite _ position | .pushReplace _ position | .pushStoreStamp position (some _) =>
    some (position - lap)
  | _ => none

/-- The write position that a thread has claimed and whose stamp it has not yet stored. -/
def Pc.writeClaim : Pc T → Option ℕ
  | .pushWriteValue _ position | .pushStoreWrite _ position | .pushReplace _ position
  | .pushStoreStamp position _ => some position
  | _ => none

namespace Threads

/-- Between its claim and its store of the stamp a thread is inside a slot. All accesses to
the value of the slot lie in between. -/
def Inside (s : Threads ι T) (t : ι) (i : ℕ) : Prop :=
  (s.pc t).holding = true ∧ s.ring.index (s.pc t).position = i

def valueAt (s : Threads ι T) (position : ℕ) : Option T :=
  (s.ring.slot position).bind Slot.value

/-- The item that a thread with a read claim has taken out, or finds in its slot. -/
def outgoing (s : Threads ι T) (t : ι) : Option T :=
  match s.pc t with
  | .popReadValue position | .pushStoreWrite _ position | .pushReplace _ position =>
    s.valueAt position
  | .popStoreStamp _ item | .pushStoreStamp _ (some item) => some item
  | _ => none

/-- The item that a thread with a write claim brings, or has already stored. -/
def incoming (s : Threads ι T) (t : ι) : Option T :=
  match s.pc t with
  | .pushWriteValue item _ | .pushStoreWrite item _ | .pushReplace item _ => some item
  | .pushStoreStamp position _ => s.valueAt position
  | _ => none

/-- The claim of a read position delivers one item, once: it has been returned, or exactly
one thread is about to return it. -/
def Delivers (s : Threads ι T) (position : ℕ) (item : T) : Prop :=
  (s.handedOut position = [item] ∧ ∀ t, (s.pc t).readClaim s.ring.lap ≠ some position) ∨
    (s.handedOut position = [] ∧ ∃ t, (s.pc t).readClaim s.ring.lap = some position ∧
      s.outgoing t = some item ∧ ∀ u, (s.pc u).readClaim s.ring.lap = some position → u = t)

/-- The ring keeps an item at a write position: the slot is readable and holds it, or exactly
one thread is bringing it there. -/
def Keeps (s : Threads ι T) (position : ℕ) (item : T) : Prop :=
  (s.ring.slot position = some ⟨position + 1, some item⟩ ∧
      ∀ t, (s.pc t).writeClaim ≠ some position) ∨
    ∃ t, (s.pc t).writeClaim = some position ∧ s.incoming t = some item ∧
      ∀ u, (s.pc u).writeClaim = some position → u = t

/-- One thread at a time, and every value access finds the slot as it needs it. -/
structure Exclusive (s : Threads ι T) : Prop where
  one_inside : ∀ t u i, s.Inside t i → s.Inside u i → t = u
  pop_takes : ∀ t position, s.pc t = .popReadValue position → (s.valueAt position).isSome
  overwrite_takes : ∀ t item position, s.pc t = .pushReplace item position →
    (s.valueAt position).isSome
  push_fills : ∀ t item position, s.pc t = .pushWriteValue item position →
    ∃ slot, s.ring.slot position = some slot ∧ slot.value = none
  no_fault : ∀ t, s.pc t ≠ .fault

/-- First in, first out: the claims, in their order, deliver a prefix of the accepted items,
in theirs. The rest is in the ring. -/
structure Ordered (capacity : ℕ) (s : Threads ι T) : Prop where
  delivered : ∃ items : List T, items <+: s.accepted ∧ List.Forall₂ s.Delivers s.claims items
  claimed_once : s.claims.Nodup
  only_claimed : ∀ position, s.handedOut position ≠ [] → position ∈ s.claims
  settled : (∀ t, (s.pc t).readClaim s.ring.lap = none) →
    s.claims.flatMap s.handedOut = s.accepted.take s.claims.length
  kept : ∀ k item, s.claims.length ≤ k → s.accepted[k]? = some item →
    s.Keeps (cursor capacity k) item

end Threads

section

variable {capacity : ℕ} {s : Threads ι T} {r w : ℕ} {phase : ℕ → Phase ι}

lemma Inv.valueAt_cursor (hcap : 0 < capacity) (h : Inv capacity s r w phase) (v : ℕ) :
    s.valueAt (cursor capacity v) = (s.ring.slots[v % capacity]?).bind Slot.value := by
  rw [Threads.valueAt, Ring.slot_cursor hcap h.shaped]

lemma cursor_add_sub_lap (hcap : 0 < capacity) (h : Inv capacity s r w phase) (v : ℕ) :
    cursor capacity (v + capacity) - s.ring.lap = cursor capacity v := by
  rw [h.shaped.lap, cursor_add_capacity hcap, Nat.add_sub_cancel]

lemma Inv.exclusive (hcap : 0 < capacity) (h : Inv capacity s r w phase) : s.Exclusive where
  one_inside := by
    rintro t u i ⟨ht, rfl⟩ ⟨hu, hi⟩
    have key : ∀ t, (s.pc t).holding = true →
        (phase (s.ring.index (s.pc t).position)).holder = some t := by
      intro t ht
      obtain ⟨i, hi, hholder, hok⟩ := h.phase_of_pc ht
      obtain ⟨slot, -, hs⟩ := h.slot_at hi
      obtain ⟨v, hv, hp⟩ := hok.position_eq hs hholder
      rw [hp, Ring.index_cursor hcap h.shaped, hv, hholder]
    have hu' := key u hu
    rw [hi] at hu'
    exact Option.some.inj ((key t ht).symm.trans hu')
  pop_takes := by
    intro t position hpc
    have hholding := h.holding (t := t) (by rw [hpc]; rfl)
    rw [hpc] at hholding
    cases hholding with
    | reading v hp =>
      obtain ⟨slot, hslot, hs⟩ := h.slot_at (Nat.mod_lt v hcap)
      rw [hp] at hs
      obtain ⟨-, hlt, -, rfl⟩ := hs
      have hle := h.write_le_accepted
      have horder := h.order
      rw [h.valueAt_cursor hcap, hslot]
      simp
      omega
  overwrite_takes := by
    intro t item position hpc
    have hholding := h.holding (t := t) (by rw [hpc]; rfl)
    rw [hpc] at hholding
    cases hholding with
    | published v item hp hitem =>
      obtain ⟨slot, hslot, hs⟩ := h.slot_at (Nat.mod_lt v hcap)
      rw [hp] at hs
      obtain ⟨-, -, -, hlt, rfl, -⟩ := hs
      rw [h.valueAt_cursor hcap, Nat.add_mod_right, hslot]
      simp
      omega
  push_fills := by
    intro t item position hpc
    have hholding := h.holding (t := t) (by rw [hpc]; rfl)
    rw [hpc] at hholding
    cases hholding with
    | writing v item hp hitem =>
      obtain ⟨slot, hslot, hs⟩ := h.slot_at (Nat.mod_lt v hcap)
      rw [hp] at hs
      obtain ⟨-, -, -, rfl⟩ := hs
      exact ⟨_, (Ring.slot_cursor hcap h.shaped v).trans hslot, rfl⟩
  no_fault := by
    intro t hpc
    have hok := h.ownPc t
    rw [hpc] at hok
    exact hok

/-! ### Claims in progress and phases -/

lemma Pc.holding_of_readClaim {pc : Pc T} {lap c : ℕ} (h : pc.readClaim lap = some c) :
    pc.holding = true := by
  cases pc <;> first | rfl | cases h

lemma Pc.holding_of_writeClaim {pc : Pc T} {c : ℕ} (h : pc.writeClaim = some c) :
    pc.holding = true := by
  cases pc <;> first | rfl | cases h

lemma Inv.readClaim_phase (hcap : 0 < capacity) (h : Inv capacity s r w phase) {t : ι} {k : ℕ}
    (hc : (s.pc t).readClaim s.ring.lap = some (cursor capacity k)) :
    (phase (k % capacity)).readClaim = some k ∧ (phase (k % capacity)).holder = some t ∧
      s.outgoing t = s.accepted[k]? := by
  have hinj : ∀ v, cursor capacity v = cursor capacity k → v = k := fun v => (cursor_inj hcap).mp
  have hcases := h.holding (Pc.holding_of_readClaim hc)
  generalize hpc : s.pc t = pc at hcases hc
  cases hcases with
  | writing | written => simp [Pc.readClaim] at hc
  | reading v hp =>
    obtain rfl := hinj v (by simpa [Pc.readClaim] using hc)
    obtain ⟨slot, hslot, hs⟩ := h.slot_at (Nat.mod_lt v hcap)
    rw [hp] at hs ⊢
    obtain ⟨-, -, -, rfl⟩ := hs
    exact ⟨rfl, rfl, by simp [Threads.outgoing, hpc, h.valueAt_cursor hcap, hslot]⟩
  | taken v item hp hitem =>
    obtain rfl := hinj v (by simpa [Pc.readClaim] using hc)
    rw [hp]
    exact ⟨rfl, rfl, by simp [Threads.outgoing, hpc, hitem]⟩
  | claimed v item hp hitem | published v item hp hitem =>
    obtain rfl := hinj v (by simpa [Pc.readClaim, cursor_add_sub_lap hcap h] using hc)
    obtain ⟨slot, hslot, hs⟩ := h.slot_at (Nat.mod_lt v hcap)
    rw [hp] at hs ⊢
    obtain ⟨-, -, -, -, rfl, -⟩ := hs
    refine ⟨rfl, rfl, ?_⟩
    simp [Threads.outgoing, hpc, h.valueAt_cursor hcap, hslot]
  | replaced v item hp hitem =>
    obtain rfl := hinj v (by simpa [Pc.readClaim, cursor_add_sub_lap hcap h] using hc)
    rw [hp]
    exact ⟨rfl, rfl, by simp [Threads.outgoing, hpc, hitem]⟩

/-- A read claim that a phase records belongs to the thread that holds the slot. -/
lemma Inv.exists_readClaim (hcap : 0 < capacity) (h : Inv capacity s r w phase) {k : ℕ}
    (hc : (phase (k % capacity)).readClaim = some k) :
    ∃ t, (s.pc t).readClaim s.ring.lap = some (cursor capacity k) := by
  have hok := h.holder _ (Nat.mod_lt k hcap)
  cases hp : phase (k % capacity) with
  | free | writing | full => simp [hp, Phase.readClaim] at hc
  | reading v t taken =>
    obtain rfl : v = k := by simpa [hp, Phase.readClaim] using hc
    rw [hp] at hok
    cases taken with
    | false => exact ⟨t, by rw [show s.pc t = _ from hok]; rfl⟩
    | true => obtain ⟨item, -, hpc⟩ := hok; exact ⟨t, by rw [hpc]; rfl⟩
  | replacing v t stage =>
    obtain rfl : v = k := by simpa [hp, Phase.readClaim] using hc
    rw [hp] at hok
    refine ⟨t, ?_⟩
    cases stage with
    | claimed | published | replaced =>
      obtain ⟨item, -, hpc⟩ := hok
      simp [hpc, Pc.readClaim, cursor_add_sub_lap hcap h]

lemma Inv.delivers (hcap : 0 < capacity) (h : Inv capacity s r w phase) {k : ℕ} (hk : k < r)
    {item : T} (hitem : s.accepted[k]? = some item) : s.Delivers (cursor capacity k) item := by
  by_cases hc : (phase (k % capacity)).readClaim = some k
  · obtain ⟨t, ht⟩ := h.exists_readClaim hcap hc
    obtain ⟨-, hholder, hout⟩ := h.readClaim_phase hcap ht
    refine .inr ⟨by rw [h.handed, if_neg (by simp [hc])], t, ht, hout.trans hitem, ?_⟩
    intro u hu
    have := (h.readClaim_phase hcap hu).2.1
    exact Option.some.inj (this.symm.trans hholder)
  · refine .inl ⟨by rw [h.handed, if_pos ⟨hk, hc⟩, hitem]; rfl, ?_⟩
    intro t ht
    exact hc (h.readClaim_phase hcap ht).1

lemma Inv.writeClaim_phase (hcap : 0 < capacity) (h : Inv capacity s r w phase) {t : ι} {k : ℕ}
    (hc : (s.pc t).writeClaim = some (cursor capacity k)) :
    (phase (k % capacity)).holder = some t ∧ s.incoming t = s.accepted[k]? ∧
      ∀ v, phase (k % capacity) ≠ .full v := by
  have hinj : ∀ v, cursor capacity v = cursor capacity k → v = k := fun v => (cursor_inj hcap).mp
  have hmod : ∀ v, (v + capacity) % capacity = v % capacity := fun v => Nat.add_mod_right v capacity
  have hcases := h.holding (Pc.holding_of_writeClaim hc)
  generalize hpc : s.pc t = pc at hcases hc
  cases hcases with
  | reading | taken => simp [Pc.writeClaim] at hc
  | writing v item hp hitem =>
    obtain rfl := hinj v (by simpa [Pc.writeClaim] using hc)
    rw [hp]
    exact ⟨rfl, by simp [Threads.incoming, hpc, hitem], by simp⟩
  | written v hp =>
    obtain rfl := hinj v (by simpa [Pc.writeClaim] using hc)
    obtain ⟨slot, hslot, hs⟩ := h.slot_at (Nat.mod_lt v hcap)
    rw [hp] at hs ⊢
    obtain ⟨-, -, -, rfl⟩ := hs
    exact ⟨rfl, by simp [Threads.incoming, hpc, h.valueAt_cursor hcap, hslot], by simp⟩
  | claimed v item hp hitem | published v item hp hitem =>
    obtain rfl := hinj _ (by simpa [Pc.writeClaim] using hc)
    rw [hmod, hp]
    exact ⟨rfl, by simp [Threads.incoming, hpc, hitem], by simp⟩
  | replaced v item hp hitem =>
    obtain rfl := hinj _ (by simpa [Pc.writeClaim] using hc)
    obtain ⟨slot, hslot, hs⟩ := h.slot_at (Nat.mod_lt v hcap)
    rw [hmod, hp]
    rw [hp] at hs
    obtain ⟨-, -, -, -, rfl, -⟩ := hs
    refine ⟨rfl, ?_, by simp⟩
    simp [Threads.incoming, hpc, h.valueAt_cursor hcap, hmod, hslot]

/-- An accepted item whose number is not claimed for reading is in its slot or on its way. -/
lemma Inv.keeps (hcap : 0 < capacity) (h : Inv capacity s r w phase) {k : ℕ} (hk : r ≤ k)
    {item : T} (hitem : s.accepted[k]? = some item) : s.Keeps (cursor capacity k) item := by
  have hlt : k < s.accepted.length := (List.getElem?_eq_some_iff.mp hitem).1
  have hbound := h.bound
  obtain ⟨slot, hslot, hs⟩ := h.slot_at (Nat.mod_lt k hcap)
  have hbring : ∀ t, (s.pc t).writeClaim = some (cursor capacity k) →
      s.Keeps (cursor capacity k) item := by
    intro t ht
    obtain ⟨hholder, hin, -⟩ := h.writeClaim_phase hcap ht
    refine .inr ⟨t, ht, hin.trans hitem, fun u hu => ?_⟩
    have := (h.writeClaim_phase hcap hu).1
    exact Option.some.inj (this.symm.trans hholder)
  have hok := h.holder _ (Nat.mod_lt k hcap)
  cases hp : phase (k % capacity) with
  | free v =>
    rw [hp] at hs
    obtain ⟨hv, hlow, hhigh, -⟩ := hs
    obtain rfl : v = k := eq_of_mod_eq_of_window r hv (by omega) hhigh hk (by omega)
    omega
  | writing v t written =>
    rw [hp] at hs hok
    obtain ⟨hv, hlow, hhigh, -⟩ := hs
    obtain rfl : v = k := eq_of_mod_eq_of_window r hv hlow (by omega) hk (by omega)
    apply hbring t
    cases written with
    | false => obtain ⟨x, -, hpc⟩ := hok; rw [hpc]; rfl
    | true => rw [show s.pc t = _ from hok]; rfl
  | full v =>
    rw [hp] at hs
    obtain ⟨hv, hlow, hhigh, rfl⟩ := hs
    obtain rfl : v = k := eq_of_mod_eq_of_window r hv hlow (by omega) hk (by omega)
    refine .inl ⟨by rw [Ring.slot_cursor hcap h.shaped, hslot, hitem], fun t ht => ?_⟩
    exact (h.writeClaim_phase hcap ht).2.2 v hp
  | reading v t taken =>
    rw [hp] at hs
    obtain ⟨hv, hlow, hhigh, -⟩ := hs
    have := add_le_of_mod_eq_of_lt hv (show v < k by omega)
    omega
  | replacing v t stage =>
    rw [hp] at hs hok
    obtain ⟨hv, hlow, hge, hhigh, -, -⟩ := hs
    obtain rfl : v + capacity = k := eq_of_mod_eq_of_window r
      ((Nat.add_mod_right v capacity).trans hv) hge (by omega) hk (by omega)
    apply hbring t
    cases stage with
    | claimed | published | replaced => obtain ⟨x, -, hpc⟩ := hok; rw [hpc]; rfl

lemma Inv.claims_length (h : Inv capacity s r w phase) : s.claims.length = r := by
  rw [h.claims, List.length_map, List.length_range]

lemma Inv.read_le_accepted (h : Inv capacity s r w phase) : r ≤ s.accepted.length :=
  h.order.trans h.write_le_accepted

lemma Inv.ordered (hcap : 0 < capacity) (h : Inv capacity s r w phase) :
    s.Ordered capacity where
  delivered := by
    refine ⟨s.accepted.take r, List.take_prefix r _, ?_⟩
    rw [List.forall₂_iff_get]
    have hle := h.read_le_accepted
    refine ⟨by rw [h.claims_length, List.length_take]; omega, fun k hk hk' => ?_⟩
    have hkr : k < r := h.claims_length ▸ hk
    have hget : s.claims.get ⟨k, hk⟩ = cursor capacity k := by simp [h.claims]
    rw [hget]
    exact h.delivers hcap hkr (by simp)
  claimed_once := by
    rw [h.claims]
    exact List.Nodup.map (fun a b => (cursor_inj hcap).mp) List.nodup_range
  only_claimed := by
    intro position hne
    obtain ⟨v, rfl⟩ := h.stray position hne
    rw [h.handed] at hne
    have hlt : v < r := by
      by_contra hge
      exact hne (if_neg (by simp [hge]))
    rw [h.claims]
    exact List.mem_map.mpr ⟨v, List.mem_range.mpr hlt, rfl⟩
  settled := by
    intro hnone
    have hle := h.read_le_accepted
    have hnil : ∀ v, (phase (v % capacity)).readClaim ≠ some v := by
      intro v hc
      obtain ⟨t, ht⟩ := h.exists_readClaim hcap hc
      simp [hnone t] at ht
    have key : ∀ n ≤ r, ((List.range n).map (cursor capacity)).flatMap s.handedOut =
        s.accepted.take n := by
      intro n hn
      induction n with
      | zero => simp
      | succ n ih =>
        rw [List.range_succ, List.map_append, List.flatMap_append, ih (by omega),
          List.map_singleton, List.flatMap_singleton, h.handed, if_pos ⟨by omega, hnil n⟩,
          List.take_add_one]
    rw [h.claims_length, h.claims]
    exact key r le_rfl
  kept := by
    intro k item hk hitem
    rw [h.claims_length] at hk
    exact h.keeps hcap hk hitem

variable [DecidableEq ι]

/-- Exclusion and FIFO order under every interleaving, for every capacity and any number of
threads that push, overwrite and pop. -/
theorem ring_exclusive_and_ordered (hcap : 0 < capacity)
    (hs : (ringSystem ι T capacity).Reachable s) : s.Exclusive ∧ s.Ordered capacity := by
  obtain ⟨r, w, phase, h⟩ := inv_of_reachable hcap hs
  exact ⟨h.exclusive hcap, h.ordered hcap⟩

end

/-- On a ring of one slot, a pop has claimed the first item while an overwrite is under way. -/
theorem ring_exclusive_and_ordered_one_slot :
    let s := (System.replay Threads.next (Threads.new 1 : Threads (Fin 2) ℕ)
      ([.push 0 7 false] ++ .replicate 5 (.advance 0 false) ++ [.pop 1] ++
        .replicate 3 (.advance 1 false) ++ [.push 0 8 true] ++
        .replicate 2 (.advance 0 false))).get rfl
    s.Exclusive ∧ s.Ordered 1 :=
  ring_exclusive_and_ordered (by decide) (System.reachable_replay rfl)

end DoomFishUtils.Spsc
