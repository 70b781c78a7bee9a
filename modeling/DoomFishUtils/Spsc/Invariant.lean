import DoomFishUtils.Spsc.Protocol

/-!
# The invariant of the ring

`Inv capacity s r w phase`: `r` and `w` number the cursors of `s`, and `phase` gives the
phase of every slot. The two frame rules of this file reduce a step of a thread to the
slot that it touches.
-/

namespace DoomFishUtils.Spsc
set_option autoImplicit false
open Library

variable {ι T : Type*}

/-! ### What the events say -/

def Event.accepted? : Event T → Option T
  | .accepted item => some item
  | _ => none

def Event.claimed? : Event T → Option ℕ
  | .claimed position => some position
  | _ => none

/-- The item that leaves the ring under the claim of `position`. -/
def Event.handedOut? (position : ℕ) : Event T → Option T
  | .returned (.popped p item) | .returned (.displaced p item) =>
    if p = position then some item else none
  | _ => none

namespace Event

variable (item : T) (position p : ℕ) (answer : Answer T)

@[simp] lemma accepted?_accepted : (accepted item).accepted? = some item := rfl

@[simp] lemma accepted?_claimed : (claimed p : Event T).accepted? = none := rfl

@[simp] lemma accepted?_returned : (returned answer).accepted? = none := rfl

@[simp] lemma claimed?_accepted : (accepted item).claimed? = none := rfl

@[simp] lemma claimed?_claimed : (claimed p : Event T).claimed? = some p := rfl

@[simp] lemma claimed?_returned : (returned answer).claimed? = none := rfl

@[simp] lemma handedOut?_accepted : (accepted item).handedOut? position = none := rfl

@[simp] lemma handedOut?_claimed : (claimed p : Event T).handedOut? position = none := rfl

@[simp] lemma handedOut?_pushed : (returned .pushed : Event T).handedOut? position = none := rfl

@[simp] lemma handedOut?_popped :
    (returned (.popped p item)).handedOut? position = if p = position then some item else none :=
  rfl

@[simp] lemma handedOut?_displaced :
    (returned (.displaced p item)).handedOut? position = if p = position then some item else none :=
  rfl

end Event

/-- The items in the order in which their write positions were claimed. -/
def acceptedIn (log : List (ι × Event T)) : List T :=
  log.filterMap fun e => e.2.accepted?

/-- The read positions in the order in which they were claimed. -/
def claimsIn (log : List (ι × Event T)) : List ℕ :=
  log.filterMap fun e => e.2.claimed?

namespace Threads

def accepted (s : Threads ι T) : List T :=
  acceptedIn s.log

def claims (s : Threads ι T) : List ℕ :=
  claimsIn s.log

/-- The items returned so far under the claim of `position`. -/
def handedOut (s : Threads ι T) (position : ℕ) : List T :=
  s.log.filterMap fun e => e.2.handedOut? position

variable (s : Threads ι T) (ring : Ring T) (pc : ι → Pc T) (t : ι) (events : List (Event T))

@[simp] lemma accepted_append :
    accepted ⟨ring, pc, s.log ++ events.map (t, ·)⟩ =
      s.accepted ++ events.filterMap Event.accepted? := by
  unfold accepted acceptedIn
  rw [List.filterMap_append, List.filterMap_map]
  rfl

@[simp] lemma claims_append :
    claims ⟨ring, pc, s.log ++ events.map (t, ·)⟩ =
      s.claims ++ events.filterMap Event.claimed? := by
  unfold claims claimsIn
  rw [List.filterMap_append, List.filterMap_map]
  rfl

@[simp] lemma handedOut_append (position : ℕ) :
    handedOut ⟨ring, pc, s.log ++ events.map (t, ·)⟩ position =
      s.handedOut position ++ events.filterMap (Event.handedOut? position) := by
  unfold handedOut
  rw [List.filterMap_append, List.filterMap_map]
  rfl

end Threads

/-! ### Phases -/

/-- How far an overwrite has come: both positions claimed, the write cursor moved on, the
value replaced. -/
inductive Stage where
  | claimed
  | published
  | replaced
  deriving DecidableEq, Repr

/-- The phase of a slot, with the cursor number that it serves. A slot that is being
replaced leaves number `v` and will serve the number one lap later. -/
inductive Phase (ι : Type*) where
  | free (v : ℕ)
  | writing (v : ℕ) (t : ι) (written : Bool)
  | full (v : ℕ)
  | reading (v : ℕ) (t : ι) (taken : Bool)
  | replacing (v : ℕ) (t : ι) (stage : Stage)

namespace Phase

/-- The thread that holds the slot. -/
def holder : Phase ι → Option ι
  | .free _ | .full _ => none
  | .writing _ t _ | .reading _ t _ | .replacing _ t _ => some t

/-- The read position that is claimed and not yet handed out. -/
def readClaim : Phase ι → Option ℕ
  | .reading v _ _ | .replacing v _ _ => some v
  | _ => none

end Phase

/-- The program points between a successful claim and the store of the stamp. -/
def Pc.holding : Pc T → Bool
  | .pushWriteValue _ _ | .pushStoreWrite _ _ | .pushReplace _ _ | .pushStoreStamp _ _
  | .popReadValue _ | .popStoreStamp _ _ => true
  | _ => false

section

variable (capacity : ℕ)

/-- What slot `i` holds in its phase. -/
def SlotOk (r w : ℕ) (accepted : List T) (i : ℕ) (slot : Slot T) : Phase ι → Prop
  | .free v => v % capacity = i ∧ accepted.length ≤ v ∧ v < r + capacity ∧
      slot = ⟨cursor capacity v, none⟩
  | .writing v _ written => v % capacity = i ∧ r ≤ v ∧ v < accepted.length ∧
      slot = ⟨cursor capacity v, if written then accepted[v]? else none⟩
  | .full v => v % capacity = i ∧ r ≤ v ∧ v < accepted.length ∧
      slot = ⟨cursor capacity v + 1, accepted[v]?⟩
  | .reading v _ taken => v % capacity = i ∧ v < r ∧ accepted.length ≤ v + capacity ∧
      slot = ⟨cursor capacity v + 1, if taken then none else accepted[v]?⟩
  | .replacing v _ stage => v % capacity = i ∧ v < r ∧ r ≤ v + capacity ∧
      v + capacity < accepted.length ∧
      slot = ⟨cursor capacity v + 1,
        if stage = .replaced then accepted[v + capacity]? else accepted[v]?⟩ ∧
      (stage = .claimed → v + capacity = w ∧ accepted.length = w + 1)

/-- The program point of the thread that holds a slot. -/
def HolderOk (accepted : List T) (pc : ι → Pc T) : Phase ι → Prop
  | .free _ | .full _ => True
  | .writing v t false =>
    ∃ item, accepted[v]? = some item ∧ pc t = .pushWriteValue item (cursor capacity v)
  | .writing v t true => pc t = .pushStoreStamp (cursor capacity v) none
  | .reading v t false => pc t = .popReadValue (cursor capacity v)
  | .reading v t true =>
    ∃ item, accepted[v]? = some item ∧ pc t = .popStoreStamp (cursor capacity v) item
  | .replacing v t .claimed => ∃ item, accepted[v + capacity]? = some item ∧
      pc t = .pushStoreWrite item (cursor capacity (v + capacity))
  | .replacing v t .published => ∃ item, accepted[v + capacity]? = some item ∧
      pc t = .pushReplace item (cursor capacity (v + capacity))
  | .replacing v t .replaced => ∃ item, accepted[v]? = some item ∧
      pc t = .pushStoreStamp (cursor capacity (v + capacity)) (some item)

/-- The stamp of slot `i` has reached `n`. -/
def StampGe (slots : List (Slot T)) (i n : ℕ) : Prop :=
  ∀ slot, slots[i]? = some slot → n ≤ slot.stamp

/-- What the local variables of a thread that holds no slot still say: cursors and stamps
only grow, so each loaded value is a lower bound. -/
def LocalOk (r w : ℕ) (slots : List (Slot T)) : Pc T → Prop
  | .pushLoadStamp _ _ position => ∃ v ≤ w, position = cursor capacity v
  | .pushCasWrite _ _ position => ∃ v ≤ w, position = cursor capacity v ∧
      StampGe slots (v % capacity) (cursor capacity v)
  | .pushLoadRead _ _ position oldest | .pushCasRead _ position oldest =>
    ∃ v, v + capacity ≤ w ∧ position = cursor capacity (v + capacity) ∧
      oldest = cursor capacity v ∧ StampGe slots (v % capacity) (cursor capacity v + 1)
  | .popLoadStamp position => ∃ v ≤ r, position = cursor capacity v
  | .popCasRead position => ∃ v ≤ r, position = cursor capacity v ∧
      StampGe slots (v % capacity) (cursor capacity v + 1)
  | .popLoadWrite position => ∃ v ≤ r, position = cursor capacity v ∧
      StampGe slots (v % capacity) (cursor capacity v)
  | .lenLoadWrite read => ∃ v ≤ r, read = cursor capacity v
  | .lenReloadRead read write =>
    ∃ v ≤ r, ∃ u ≤ w, read = cursor capacity v ∧ write = cursor capacity u
  | .fault => False
  | _ => True

structure Inv (s : Threads ι T) (r w : ℕ) (phase : ℕ → Phase ι) : Prop where
  shaped : s.ring.Shaped capacity
  read : s.ring.read = cursor capacity r
  write : s.ring.write = cursor capacity w
  claims : s.claims = (List.range r).map (cursor capacity)
  order : r ≤ w
  bound : s.accepted.length ≤ r + capacity
  /-- An overwrite claims its write position one step before it moves the write cursor. -/
  window : s.accepted.length = w ∨ s.accepted.length = w + 1 ∧
    ∃ i < capacity, ∃ v t, phase i = .replacing v t .claimed
  slot : ∀ i slot, s.ring.slots[i]? = some slot → SlotOk capacity r w s.accepted i slot (phase i)
  holder : ∀ i < capacity, HolderOk capacity s.accepted s.pc (phase i)
  held : ∀ t, (s.pc t).holding = true → ∃ i < capacity, (phase i).holder = some t
  ownPc : ∀ t, LocalOk capacity r w s.ring.slots (s.pc t)
  handed : ∀ v, s.handedOut (cursor capacity v) =
    if v < r ∧ (phase (v % capacity)).readClaim ≠ some v then s.accepted[v]?.toList else []
  stray : ∀ position, s.handedOut position ≠ [] → ∃ v, position = cursor capacity v

end

/-! ### Frame rules -/

section Frame

variable {capacity : ℕ}

lemma HolderOk.holding {accepted : List T} {pc : ι → Pc T} {phase : Phase ι} {t : ι}
    (h : HolderOk capacity accepted pc phase) (ht : phase.holder = some t) :
    (pc t).holding = true := by
  cases phase with
  | free | full => simp [Phase.holder] at ht
  | writing v u written =>
    obtain rfl : u = t := by simpa [Phase.holder] using ht
    cases written with
    | false => obtain ⟨_, _, hpc⟩ := h; simp [hpc, Pc.holding]
    | true => simp [show pc u = _ from h, Pc.holding]
  | reading v u taken =>
    obtain rfl : u = t := by simpa [Phase.holder] using ht
    cases taken with
    | false => simp [show pc u = _ from h, Pc.holding]
    | true => obtain ⟨_, _, hpc⟩ := h; simp [hpc, Pc.holding]
  | replacing v u stage =>
    obtain rfl : u = t := by simpa [Phase.holder] using ht
    cases stage with
    | claimed | published | replaced => obtain ⟨_, _, hpc⟩ := h; simp [hpc, Pc.holding]

/-- A phase only speaks of its own holder, and of items that stay accepted. -/
lemma HolderOk.frame {accepted accepted' : List T} {pc pc' : ι → Pc T} {phase : Phase ι}
    (h : HolderOk capacity accepted pc phase) (hacc : accepted <+: accepted')
    (hpc : ∀ t, phase.holder = some t → pc' t = pc t) : HolderOk capacity accepted' pc' phase := by
  have hget : ∀ (v : ℕ) (item : T), accepted[v]? = some item → accepted'[v]? = some item := by
    intro v item hv
    obtain ⟨rest, rfl⟩ := hacc
    rw [List.getElem?_append_left (List.getElem?_eq_some_iff.mp hv).1, hv]
  cases phase with
  | free | full => trivial
  | writing v u written =>
    have he := hpc u rfl
    cases written with
    | false => exact h.imp fun item hi => ⟨hget _ _ hi.1, he.trans hi.2⟩
    | true => exact he.trans h
  | reading v u taken =>
    have he := hpc u rfl
    cases taken with
    | false => exact he.trans h
    | true => exact h.imp fun item hi => ⟨hget _ _ hi.1, he.trans hi.2⟩
  | replacing v u stage =>
    have he := hpc u rfl
    cases stage with
    | claimed | published | replaced =>
      exact h.imp fun item hi => ⟨hget _ _ hi.1, he.trans hi.2⟩

/-- How the numbers may move in a step that concerns slot `i` alone. -/
structure Moves (capacity i r w r' w' : ℕ) (accepted accepted' : List T) : Prop where
  read : r' = r ∨ r' = r + 1 ∧ r % capacity = i
  write : w' = w ∨ w' = w + 1 ∧ w % capacity = i
  accepted : accepted' = accepted ∨
    ∃ item, accepted' = accepted ++ [item] ∧ accepted.length = w ∧ w % capacity = i

lemma Moves.isPrefix {i r w r' w' : ℕ} {accepted accepted' : List T}
    (h : Moves capacity i r w r' w' accepted accepted') : accepted <+: accepted' := by
  rcases h.accepted with he | ⟨item, he, -, -⟩
  · exact he ▸ List.prefix_rfl
  · exact he ▸ List.prefix_append _ _

/-- The other slots stay in their phases when the numbers move past slot `i`. -/
lemma SlotOk.frame {i j r w r' w' : ℕ} {accepted accepted' : List T} {slot : Slot T}
    {phase : Phase ι} (h : SlotOk capacity r w accepted j slot phase)
    (hm : Moves capacity i r w r' w' accepted accepted') (hij : j ≠ i) :
    SlotOk capacity r' w' accepted' j slot phase := by
  have hr : ∀ v, v % capacity = j → (v < r' ↔ v < r) ∧ (r' ≤ v ↔ r ≤ v) := by
    intro v hv
    rcases hm.read with rfl | ⟨rfl, hi⟩
    · simp
    · have : v ≠ r := by rintro rfl; exact hij (hv.symm.trans hi)
      omega
  have hlen : ∀ v, v % capacity = j →
      (v < accepted'.length ↔ v < accepted.length) ∧ accepted'[v]? = accepted[v]? ∧
        (accepted'.length ≤ v ↔ accepted.length ≤ v) := by
    intro v hv
    rcases hm.accepted with rfl | ⟨item, rfl, hw, hi⟩
    · simp
    · have : v ≠ accepted.length := by rintro rfl; exact hij (hv.symm.trans (hw ▸ hi))
      have hget : (accepted ++ [item])[v]? = accepted[v]? := by
        rw [List.getElem?_append]
        split
        · rfl
        · rw [List.getElem?_singleton, if_neg (by omega), List.getElem?_eq_none (by omega)]
      simp only [List.length_append, List.length_singleton, hget, true_and]
      omega
  have hadd : ∀ v, (v + capacity) % capacity = v % capacity := fun v => Nat.add_mod_right v capacity
  cases phase with
  | free v =>
    obtain ⟨hv, hge, hlt, hs⟩ := h
    refine ⟨hv, (hlen v hv).2.2.mpr hge, ?_, hs⟩
    rcases hm.read with rfl | ⟨rfl, -⟩ <;> omega
  | writing v t written =>
    obtain ⟨hv, hge, hlt, hs⟩ := h
    exact ⟨hv, (hr v hv).2.mpr hge, (hlen v hv).1.mpr hlt, by rw [(hlen v hv).2.1]; exact hs⟩
  | full v =>
    obtain ⟨hv, hge, hlt, hs⟩ := h
    exact ⟨hv, (hr v hv).2.mpr hge, (hlen v hv).1.mpr hlt, by rw [(hlen v hv).2.1]; exact hs⟩
  | reading v t taken =>
    obtain ⟨hv, hlt, hge, hs⟩ := h
    have hv' := (hadd v).trans hv
    exact ⟨hv, (hr v hv).1.mpr hlt, (hlen _ hv').2.2.mpr hge, by rw [(hlen v hv).2.1]; exact hs⟩
  | replacing v t stage =>
    obtain ⟨hv, hlt, hge, hlt', hs, hclaimed⟩ := h
    have hv' := (hadd v).trans hv
    refine ⟨hv, (hr v hv).1.mpr hlt, (hr _ hv').2.mpr hge, (hlen _ hv').1.mpr hlt',
      by rw [(hlen v hv).2.1, (hlen _ hv').2.1]; exact hs, ?_⟩
    intro hst
    obtain ⟨hw, hl⟩ := hclaimed hst
    have hw' : w' = w := by
      rcases hm.write with he | ⟨-, hi⟩
      · exact he
      · exact absurd (hv'.symm.trans (hw ▸ hi)) hij
    refine ⟨hw'.symm ▸ hw, ?_⟩
    rcases hm.accepted with rfl | ⟨item, -, hlw, -⟩
    · rw [hl, hw']
    · omega

/-- The lower bounds of a waiting thread survive whatever other threads do. -/
lemma LocalOk.frame {r w r' w' : ℕ} {slots slots' : List (Slot T)} {pc : Pc T}
    (h : LocalOk capacity r w slots pc) (hr : r ≤ r') (hw : w ≤ w')
    (hs : ∀ i n, StampGe slots i n → StampGe slots' i n) : LocalOk capacity r' w' slots' pc := by
  cases pc with
  | pushLoadStamp => exact h.imp fun v hv => ⟨hv.1.trans hw, hv.2⟩
  | pushCasWrite => exact h.imp fun v hv => ⟨hv.1.trans hw, hv.2.1, hs _ _ hv.2.2⟩
  | pushLoadRead | pushCasRead =>
    exact h.imp fun v hv => ⟨hv.1.trans hw, hv.2.1, hv.2.2.1, hs _ _ hv.2.2.2⟩
  | popLoadStamp => exact h.imp fun v hv => ⟨hv.1.trans hr, hv.2⟩
  | popCasRead | popLoadWrite => exact h.imp fun v hv => ⟨hv.1.trans hr, hv.2.1, hs _ _ hv.2.2⟩
  | lenLoadWrite => exact h.imp fun v hv => ⟨hv.1.trans hr, hv.2⟩
  | lenReloadRead =>
    obtain ⟨v, hv, u, hu, he⟩ := h
    exact ⟨v, hv.trans hr, u, hu.trans hw, he⟩
  | _ => exact h

lemma Inv.write_le_accepted {s : Threads ι T} {r w : ℕ} {phase : ℕ → Phase ι}
    (h : Inv capacity s r w phase) : w ≤ s.accepted.length := by
  rcases h.window with he | ⟨he, -⟩ <;> omega

end Frame

end DoomFishUtils.Spsc
