import DoomFishUtils.SlotMap.Generations
import DoomFishUtils.SlotMap.Secondary

/-!
# The ages of keys

A slot map and a secondary map that stores values under its keys, used side by side.  The keys of
a slot carry versions two apart, so that within half the range of a version the wrapped distance
between two of them tells which one was issued first.
-/

namespace DoomFishUtils.SlotMap

set_option autoImplicit false

open Library

variable {V U : Type}

/-! ### Joint runs -/

inductive SecondaryOp (U : Type) where
  | insert (key : KeyData) (value : U)
  | remove (key : KeyData)
  | get (key : KeyData)
  | getMut (key : KeyData) (write : U → U)

inductive JointOp (V U : Type) where
  | primary (op : Op V)
  | secondary (op : SecondaryOp U)

inductive JointEvent (V U : Type) where
  | primary (op : Op V) (answer : Except Panic (Response V))
  | secondary (op : SecondaryOp U) (answer : Except Panic (Option U))

/-- The key that an insert has issued. -/
def JointEvent.issues : JointEvent V U → Option KeyData
  | .primary _ (.ok (.key key)) => some key
  | _ => none

/-- The value that an operation of the secondary map writes under a key. -/
def JointEvent.writes (key : KeyData) : JointEvent V U → Option U
  | .secondary (.insert other value) _ => if other = key then some value else none
  | .secondary (.getMut other write) (.ok (some value)) =>
    if other = key then some (write value) else none
  | _ => none

/-- Both maps, the slot map as it was when the secondary one was made, and the history since,
latest event first. -/
structure Joint (V U : Type) where
  start : SlotMap V
  primary : SlotMap V
  secondary : SecondaryMap U
  log : List (JointEvent V U)

namespace Joint

def new (start : SlotMap V) (capacity : ℕ) : Joint V U :=
  ⟨start, start, .withCapacity capacity, []⟩

/-- The keys that were live at the start and those issued since, oldest first. -/
def issued (joint : Joint V U) : List KeyData :=
  joint.start.keys ++ joint.log.reverse.filterMap JointEvent.issues

/-- How many inserts have put a value into a slot that was there already. -/
def reuses (joint : Joint V U) (idx : UInt32) : ℕ :=
  (joint.log.filterMap JointEvent.issues).countP (fun key => key.idx = idx) -
    if idx.toNat < joint.start.slots.length then 0 else 1

/-- The first key was issued before the second one for the same slot. -/
def Older (joint : Joint V U) (first second : KeyData) : Prop :=
  first.idx = second.idx ∧ [first, second].Sublist joint.issued

/-- The value last written under a key. -/
def written (joint : Joint V U) (key : KeyData) : Option U :=
  joint.log.findSome? (JointEvent.writes key)

/-- What an operation on the secondary map returns, and the map it leaves. -/
def applySecondary (map : SecondaryMap U) :
    SecondaryOp U → Except Panic (Option U) × SecondaryMap U
  | .insert key value => map.insert key value
  | .remove key => (.ok (map.remove key).1, (map.remove key).2)
  | .get key => (.ok (map.get key), map)
  | .getMut key write => (.ok (map.getMut key write).1, (map.getMut key write).2)

/-- A value is stored only under a key of the slot map or a null key. -/
def permits (joint : Joint V U) : SecondaryOp U → Bool
  | .insert key _ => key.isNull || decide (key ∈ joint.issued)
  | _ => true

/-- One operation on either map.  No slot is reused `2 ^ 30` times. -/
def next (dropPanics : V → Bool) (joint : Joint V U) : JointOp V U → Option (Joint V U)
  | .primary op =>
    let result := joint.primary.apply dropPanics op
    let joint := { joint with primary := result.2, log := .primary op result.1 :: joint.log }
    if ∀ key ∈ joint.issued, joint.reuses key.idx < 2 ^ 30 then some joint else none
  | .secondary op =>
    let result := applySecondary joint.secondary op
    if joint.permits op then
      some { joint with secondary := result.2, log := .secondary op result.1 :: joint.log }
    else none

end Joint

/-- The joint runs of a slot map in this state and a new secondary map. -/
def jointSystem (dropPanics : V → Bool) (start : SlotMap V) (capacity : ℕ) :
    System (Joint V U) (JointOp V U) :=
  .ofNext (Joint.new start capacity) (Joint.next dropPanics)

/-! ### Distances between versions -/

section Distances

/-- Within half the range the wrapped distance orders two numbers. -/
lemma distance_lt_iff (base : UInt32) {i j : ℕ} (hi : i < 2 ^ 31) (hj : j < 2 ^ 31) :
    (base + UInt32.ofNat i - (base + UInt32.ofNat j)).toNat < 2 ^ 31 ↔ j ≤ i := by
  have hlt := base.toNat_lt
  rw [UInt32.toNat_sub, UInt32.toNat_add, UInt32.toNat_add, UInt32.toNat_ofNat',
    UInt32.toNat_ofNat']
  omega

end Distances

/-! ### The next version of a slot -/

section NextVersion

/-- The version of the key that the next insert into a slot issues. -/
def nextVersion (map : SlotMap V) (idx : UInt32) : UInt32 :=
  match map.slots[idx.toNat]? with
  | none => 1
  | some ⟨version, .vacant _⟩ => version + 1
  | some ⟨version, .occupied _⟩ => version + 2

variable {map map' : SlotMap V} {dropPanics : V → Bool} {op : Op V}
  {answer : Except Panic (Response V)} {idx : UInt32}

lemma add_one_add_one (version : UInt32) : version + 1 + 1 = version + 2 := by
  rw [UInt32.add_assoc]
  rfl

/-- The slot holds a value. -/
def OccupiedAt (map : SlotMap V) (idx : UInt32) : Prop :=
  ∃ version value, map.slots[idx.toNat]? = some ⟨version, .occupied value⟩

/-- Only `insert` returns a key. -/
lemma apply_ne_key (map : SlotMap V) (dropPanics : V → Bool) (hop : ∀ value, op ≠ .insert value)
    (key : KeyData) :
    (map.apply dropPanics op).1 ≠ .ok (.key key) := by
  cases op with
  | insert value => exact absurd rfl (hop value)
  | remove key => exact map_ne_ok (fun _ heq => by cases heq) _
  | clear => exact map_ne_ok (fun _ heq => by cases heq) _
  | get key => exact fun heq => by cases heq
  | getMut key write => exact fun heq => by cases heq
  | valuesMut write => exact fun heq => by cases heq
  | index key => exact map_ne_ok (fun _ heq => by cases heq) _
  | indexMut key write => exact map_ne_ok (fun _ heq => by cases heq) _

/-- A kept slot has the same next version. -/
lemma nextVersion_of_kept (hkeeps : KeepsSlots map map')
    (hlength : map'.slots.length = map.slots.length) :
    nextVersion map' idx = nextVersion map idx ∧ (OccupiedAt map' idx → OccupiedAt map idx) := by
  unfold nextVersion OccupiedAt
  rcases hslot : map.slots[idx.toNat]? with _ | slot
  · have hnone : map'.slots[idx.toNat]? = none := by
      rw [List.getElem?_eq_none_iff, hlength]
      exact List.getElem?_eq_none_iff.mp hslot
    rw [hnone]
    exact ⟨rfl, id⟩
  · rcases hkeeps hslot with ⟨slot', hslot', hkept⟩
    rw [hslot']
    cases hkept with
    | same => exact ⟨rfl, id⟩
    | written version value value' => exact ⟨rfl, fun _ => ⟨version, value, rfl⟩⟩
    | emptied version value next =>
      exact ⟨add_one_add_one version, fun _ => ⟨version, value, rfl⟩⟩

/-- What an operation means for the versions: an insert issues the next one of its slot, and
nothing else moves them. -/
lemma apply_versions (h : Chained map.slots map.freeHead)
    (hstep : map.apply dropPanics op = (answer, map')) :
    (∃ key, answer = .ok (.key key) ∧ key.version = nextVersion map key.idx ∧
      nextVersion map' key.idx = nextVersion map key.idx + 2 ∧
      ∀ idx, idx ≠ key.idx → map'.slots[idx.toNat]? = map.slots[idx.toNat]?) ∨
    ((∀ key, answer ≠ .ok (.key key)) ∧ ∀ idx, nextVersion map' idx = nextVersion map idx ∧
      (OccupiedAt map' idx → OccupiedAt map idx)) := by
  have hissue : ∀ (idx version : UInt32) (value : V) (slots : List (Slot V)) (head : UInt32) (len : ℕ),
      (version ||| 1 = nextVersion map idx) →
      slots[idx.toNat]? = some ⟨version ||| 1, .occupied value⟩ →
      (KeyData.new idx (version ||| 1)).version = nextVersion map idx ∧
        nextVersion ⟨slots, head, len⟩ idx = nextVersion map idx + 2 := by
    intro idx version value slots head len hversion hslot
    refine ⟨(KeyData.new_version_of_odd idx (or_one_odd version)).trans hversion, ?_⟩
    rw [← hversion, nextVersion, hslot]
  by_cases hop : ∃ value, op = .insert value
  · rcases hop with ⟨value, rfl⟩
    rw [apply_insert] at hstep
    rcases insert_cases h value with ⟨version, next, hslot, heq⟩ | ⟨hslot, index, hindex, heq⟩ |
      ⟨hslot, hindex, heq⟩ <;> rw [heq] at hstep <;> cases hstep
    · have heven : version.toNat % 2 = 0 := h.parity hslot
      have hversion : version ||| 1 = nextVersion map map.freeHead := by
        rw [nextVersion, hslot, or_one_of_even heven]
      have hset := getElem?_set_eq hslot ⟨version ||| 1, .occupied value⟩
      rcases hissue _ version value _ next (map.len + 1) hversion
        ((hset map.freeHead.toNat).trans (if_pos rfl)) with ⟨hkey, hnext⟩
      refine .inl ⟨_, rfl, hkey, hnext, fun idx hidx => (hset idx.toNat).trans (if_neg ?_)⟩
      exact fun heq => hidx (UInt32.toNat_inj.mp heq).symm
    · have hnone : map.slots[index.toNat]? = none := by
        rw [(pushIndex_eq_some hindex).2]
        exact List.getElem?_eq_none le_rfl
      have hversion : (1 : UInt32) ||| 1 = nextVersion map index := by
        rw [nextVersion, hnone]
        rfl
      have hpush := getElem?_push map.slots ⟨1, .occupied value⟩
      rcases hissue index 1 value (map.slots ++ [⟨1, .occupied value⟩]) (index + 1) (map.len + 1)
        hversion ((hpush index.toNat).trans (if_pos (pushIndex_eq_some hindex).2)) with
        ⟨hkey, hnext⟩
      refine .inl ⟨_, rfl, hkey, hnext, fun idx hidx => (hpush idx.toNat).trans (if_neg ?_)⟩
      rw [← (pushIndex_eq_some hindex).2]
      exact fun heq => hidx (UInt32.toNat_inj.mp heq)
    · exact .inr ⟨fun key heq => (by cases heq), fun idx => ⟨rfl, id⟩⟩
  · have hother : ∀ value, op ≠ .insert value := fun value heq => hop ⟨value, heq⟩
    have hlength := length_apply dropPanics h hother
    rcases (apply_cases dropPanics h op).2 with ⟨value, -, -, rfl, -⟩ | ⟨hkeeps, -⟩
    · exact absurd rfl (hother value)
    · have hnone := apply_ne_key map dropPanics hother
      rw [hstep] at hlength hkeeps hnone
      exact .inr ⟨hnone, fun idx => nextVersion_of_kept hkeeps hlength⟩

end NextVersion

/-! ### The invariant -/

section Invariant

/-- The keys issued for a slot, `count` of them, carry versions two apart up to the next one. -/
structure Numbered (joint : Joint V U) (idx base : UInt32) (count : ℕ) : Prop where
  versions : (joint.issued.filter fun key => key.idx = idx).map KeyData.version =
    (List.range count).map fun i => base + UInt32.ofNat (2 * i)
  next : nextVersion joint.primary idx = base + UInt32.ofNat (2 * count)
  occupied : OccupiedAt joint.primary idx → 0 < count
  count_le : count ≤ (joint.log.filterMap JointEvent.issues).countP (fun key => key.idx = idx) +
    if idx.toNat < joint.start.slots.length then 1 else 0

structure Ages (joint : Joint V U) : Prop where
  chained : Chained joint.primary.slots joint.primary.freeHead
  numbered : ∀ idx, ∃ base count, Numbered joint idx base count
  window : ∀ key ∈ joint.issued, joint.reuses key.idx < 2 ^ 30
  stored : ∀ {idx entry}, joint.secondary.entryAt idx = some entry →
    ∃ key ∈ joint.issued, key.idx = idx ∧ key.version = entry.version ∧ key.isNull = false
  written : ∀ {key value}, joint.secondary.get key = some value → joint.written key = some value

variable {joint joint' : Joint V U} {idx base : UInt32} {count : ℕ} {key other : KeyData}

lemma issued_record (joint : Joint V U) (primary : SlotMap V) (secondary : SecondaryMap U)
    (event : JointEvent V U) :
    (Joint.mk joint.start primary secondary (event :: joint.log)).issued =
      joint.issued ++ event.issues.toList := by
  unfold Joint.issued
  rw [List.reverse_cons, List.filterMap_append, List.append_assoc]
  rcases hevent : event.issues with _ | key <;> simp [hevent]

/-- Members of a list come in one order or the other. -/
lemma pair_sublist_of_mem {A : Type} {list : List A} {first second : A} (hfirst : first ∈ list)
    (hsecond : second ∈ list) (hne : first ≠ second) :
    [first, second].Sublist list ∨ [second, first].Sublist list := by
  rcases List.append_of_mem hfirst with ⟨front, back, rfl⟩
  rcases List.mem_append.mp hsecond with hmem | hmem
  · refine .inr ?_
    exact (List.singleton_sublist.mpr hmem).append (List.singleton_sublist.mpr List.mem_cons_self)
  · rcases List.mem_cons.mp hmem with rfl | hmem
    · exact absurd rfl hne
    · exact .inl (((List.singleton_sublist.mpr hmem).cons_cons first).trans
        (List.sublist_append_right front _))

/-- The window bounds the keys of a slot. -/
lemma Numbered.le (h : Numbered joint idx base count)
    (hwindow : ∀ key ∈ joint.issued, joint.reuses key.idx < 2 ^ 30) : count ≤ 2 ^ 30 := by
  rcases Nat.eq_zero_or_pos count with rfl | hpos
  · exact Nat.zero_le _
  · have hmem : (base + UInt32.ofNat (2 * 0)) ∈
        (joint.issued.filter fun key => key.idx = idx).map KeyData.version := by
      rw [h.versions]
      exact List.mem_map_of_mem (List.mem_range.mpr hpos)
    rcases List.mem_map.mp hmem with ⟨key, hkey, -⟩
    rcases List.mem_filter.mp hkey with ⟨hissued, hidx⟩
    have hfew := hwindow key hissued
    rw [of_decide_eq_true hidx] at hfew
    have hcount := h.count_le
    unfold Joint.reuses at hfew
    split_ifs at hfew hcount <;> omega

/-- Where the versions of an issued key is in the numbering of its slot. -/
lemma Numbered.exists_version (h : Numbered joint idx base count) (hkey : key ∈ joint.issued)
    (hidx : key.idx = idx) : ∃ i < count, key.version = base + UInt32.ofNat (2 * i) := by
  have hmem : key.version ∈
      (joint.issued.filter fun key => key.idx = idx).map KeyData.version :=
    List.mem_map_of_mem (List.mem_filter.mpr ⟨hkey, decide_eq_true hidx⟩)
  rw [h.versions] at hmem
  rcases List.mem_map.mp hmem with ⟨i, hi, hversion⟩
  exact ⟨i, List.mem_range.mp hi, hversion.symm⟩

/-- The distance between two keys of a slot tells which of them is the older one. -/
lemma Ages.far_of_older (h : Ages joint) (holder : joint.Older key other) :
    2 ^ 31 ≤ (key.version - other.version).toNat := by
  rcases holder with ⟨hidx, hsublist⟩
  rcases h.numbered other.idx with ⟨base, count, hnumbered⟩
  have hle := hnumbered.le h.window
  have hversions : [key.version, other.version].Sublist
      ((List.range count).map fun i => base + UInt32.ofNat (2 * i)) := by
    have hfilter := (hsublist.filter fun key => key.idx = other.idx).map KeyData.version
    rw [hnumbered.versions] at hfilter
    simpa [hidx] using hfilter
  have hpairwise : ((List.range count).map fun i => base + UInt32.ofNat (2 * i)).Pairwise
      fun first second => 2 ^ 31 ≤ (first - second).toNat := by
    rw [List.pairwise_map]
    refine List.pairwise_lt_range.imp_of_mem fun {i j} hi hj hlt => ?_
    rw [List.mem_range] at hi hj
    have hfar := distance_lt_iff base (show 2 * i < 2 ^ 31 by omega) (show 2 * j < 2 ^ 31 by omega)
    omega
  exact List.pairwise_iff_forall_sublist.mp hpairwise hversions

/-- A live key was issued, and no key of its slot is ahead of it. -/
lemma Ages.newest (h : Ages joint) (hlive : joint.primary.get key ≠ none) :
    key ∈ joint.issued ∧ key.isNull = false ∧ ∀ other ∈ joint.issued, other.idx = key.idx →
      (key.version - other.version).toNat < 2 ^ 31 := by
  rcases Option.ne_none_iff_exists'.mp hlive with ⟨value, hvalue⟩
  have hslot := get_eq_some.mp hvalue
  rcases h.numbered key.idx with ⟨base, count, hnumbered⟩
  have hle := hnumbered.le h.window
  have hpos := hnumbered.occupied ⟨key.version, value, hslot⟩
  have hversion : key.version = base + UInt32.ofNat (2 * (count - 1)) := by
    have hnext := hnumbered.next
    unfold nextVersion at hnext
    rw [hslot] at hnext
    have hsucc : base + UInt32.ofNat (2 * count) = base + UInt32.ofNat (2 * (count - 1)) + 2 := by
      rw [show 2 * count = 2 * (count - 1) + 2 by omega, UInt32.ofNat_add, UInt32.add_assoc]
      rfl
    exact (UInt32.add_left_inj 2).mp (hnext.trans hsucc)
  have hlast : key.version ∈
      (joint.issued.filter fun other => other.idx = key.idx).map KeyData.version := by
    rw [hnumbered.versions, hversion]
    exact List.mem_map_of_mem (List.mem_range.mpr (by omega))
  rcases List.mem_map.mp hlast with ⟨issued, hmem, hissued⟩
  rcases List.mem_filter.mp hmem with ⟨hmem, hidx⟩
  refine ⟨KeyData.ext (of_decide_eq_true hidx) hissued ▸ hmem, ?_, fun other hother hidx => ?_⟩
  · have hlt := lt_length_of_getElem?_eq_some hslot
    have hlength := h.chained.length_lt
    unfold KeyData.isNull
    rw [beq_eq_false_iff_ne]
    intro hnull
    rw [hnull] at hlt
    have : (0xffffffff : UInt32).toNat = 2 ^ 32 - 1 := rfl
    omega
  · rcases hnumbered.exists_version hother hidx with ⟨i, hi, hother⟩
    rw [hversion, hother]
    exact (distance_lt_iff base (by omega) (by omega)).mpr (by omega)

end Invariant

/-! ### Steps -/

section Steps

variable {joint joint' : Joint V U} {dropPanics : V → Bool} {capacity : ℕ} {start : SlotMap V}

/-- The two kinds of steps. -/
lemma next_cases {op : JointOp V U} (hnext : joint.next dropPanics op = some joint') :
    (∃ op' answer map, op = .primary op' ∧ joint.primary.apply dropPanics op' = (answer, map) ∧
      joint' = ⟨joint.start, map, joint.secondary, .primary op' answer :: joint.log⟩ ∧
      ∀ key ∈ joint'.issued, joint'.reuses key.idx < 2 ^ 30) ∨
    (∃ op' answer map, op = .secondary op' ∧ joint.permits op' = true ∧
      Joint.applySecondary joint.secondary op' = (answer, map) ∧
      joint' = ⟨joint.start, joint.primary, map, .secondary op' answer :: joint.log⟩) := by
  rcases op with op | op
  · rcases Option.ite_none_right_eq_some.mp hnext with ⟨hwindow, hjoint⟩
    cases hjoint
    exact .inl ⟨op, _, _, rfl, rfl, rfl, hwindow⟩
  · rcases Option.ite_none_right_eq_some.mp hnext with ⟨hpermits, hjoint⟩
    cases hjoint
    exact .inr ⟨op, _, _, rfl, hpermits, rfl, rfl⟩

/-- At the start the live keys are the issued ones, at most one for each slot. -/
lemma ages_new (h : Chained start.slots start.freeHead) :
    Ages (Joint.new start capacity : Joint V U) := by
  have hissued : (Joint.new start capacity : Joint V U).issued = start.keys := List.append_nil _
  refine ⟨h, fun idx => ?_, fun key _ => ?_, fun {idx entry} hentry => ?_, fun {key value} hget => ?_⟩
  · by_cases hlive : OccupiedAt start idx
    · rcases hlive with ⟨version, value, hslot⟩
      have hodd : version.toNat % 2 = 1 := h.parity hslot
      have hall : ∀ key ∈ start.keys.filter (fun key => key.idx = idx),
          key = ⟨idx, version, hodd⟩ := by
        intro key hkey
        rcases List.mem_filter.mp hkey with ⟨hmem, hidx⟩
        rcases (mem_keys h).mp hmem with ⟨value', hslot'⟩
        rw [of_decide_eq_true hidx, hslot, Option.some.injEq, Slot.mk.injEq] at hslot'
        exact KeyData.ext (of_decide_eq_true hidx) hslot'.1.symm
      have hmem : (⟨idx, version, hodd⟩ : KeyData) ∈ start.keys.filter (fun key => key.idx = idx) :=
        List.mem_filter.mpr ⟨(mem_keys h).mpr ⟨value, hslot⟩, decide_eq_true rfl⟩
      have hone : start.keys.filter (fun key => key.idx = idx) = [⟨idx, version, hodd⟩] := by
        have hnodup := (keys_nodup h).filter (fun key => key.idx = idx)
        rw [List.eq_replicate_of_mem hall] at hnodup hmem ⊢
        rw [List.nodup_replicate] at hnodup
        have hlength := (List.mem_replicate.mp hmem).1
        rw [show (start.keys.filter (fun key => key.idx = idx)).length = 1 by omega]
        rfl
      refine ⟨version, 1, ?_, ?_, fun _ => Nat.one_pos, ?_⟩
      · rw [hissued, hone]
        exact congrArg (fun version => [version]) (UInt32.add_zero version).symm
      · change nextVersion start idx = _
        rw [nextVersion, hslot]
        rfl
      · change 1 ≤ 0 + if idx.toNat < start.slots.length then 1 else 0
        rw [if_pos (lt_length_of_getElem?_eq_some hslot)]
    · have hnil : start.keys.filter (fun key => key.idx = idx) = [] := by
        refine List.filter_eq_nil_iff.mpr fun key hmem hidx => hlive ?_
        rcases (mem_keys h).mp hmem with ⟨value, hslot⟩
        rw [of_decide_eq_true hidx] at hslot
        exact ⟨key.version, value, hslot⟩
      refine ⟨nextVersion start idx, 0, ?_, (UInt32.add_zero _).symm, fun hocc => absurd hocc hlive,
        Nat.zero_le _⟩
      rw [hissued, hnil]
      rfl
  · exact (Nat.sub_le _ _).trans_lt (by simp [Joint.new])
  · cases hentry
  · cases hget

/-- The numbering of a slot depends on the slot map and the issued keys. -/
lemma Numbered.congr {idx base : UInt32} {count : ℕ} (h : Numbered joint idx base count)
    (hstart : joint'.start = joint.start) (hissued : joint'.issued = joint.issued)
    (hlog : joint'.log.filterMap JointEvent.issues = joint.log.filterMap JointEvent.issues)
    (hnext : nextVersion joint'.primary idx = nextVersion joint.primary idx)
    (hoccupied : OccupiedAt joint'.primary idx → OccupiedAt joint.primary idx) :
    Numbered joint' idx base count := by
  refine ⟨?_, ?_, fun hocc => h.occupied (hoccupied hocc), ?_⟩
  · rw [hissued]
    exact h.versions
  · rw [hnext]
    exact h.next
  · rw [hlog, hstart]
    exact h.count_le

lemma issues_eq_none {op : Op V} {answer : Except Panic (Response V)}
    (h : ∀ key, answer ≠ .ok (.key key)) :
    (JointEvent.primary op answer : JointEvent V U).issues = none := by
  rcases answer with _ | (key | _ | _ | _)
  · rfl
  · exact absurd rfl (h key)
  · rfl
  · rfl
  · rfl

/-- An operation on the slot map issues the next version of a slot or none. -/
lemma Ages.primary (h : Ages joint) {op : Op V} {answer : Except Panic (Response V)}
    {map : SlotMap V} (happly : joint.primary.apply dropPanics op = (answer, map))
    (hwindow : ∀ key ∈ (Joint.mk joint.start map joint.secondary
        (.primary op answer :: joint.log)).issued,
      (Joint.mk joint.start map joint.secondary (.primary op answer :: joint.log)).reuses key.idx <
        2 ^ 30) :
    Ages ⟨joint.start, map, joint.secondary, .primary op answer :: joint.log⟩ := by
  have hchained := (apply_cases dropPanics h.chained op).1
  rw [happly] at hchained
  refine ⟨hchained, fun idx => ?_, hwindow, fun {idx entry} hentry => ?_, fun {key value} hget => ?_⟩
  · rcases h.numbered idx with ⟨base, count, hnumbered⟩
    rcases apply_versions h.chained happly with ⟨key, rfl, hversion, hnext, hother⟩ |
      ⟨hnone, hsame⟩
    · have hissued := issued_record joint map joint.secondary (.primary op (.ok (.key key)))
      by_cases hidx : idx = key.idx
      · subst hidx
        refine ⟨base, count + 1, ?_, ?_, fun _ => Nat.succ_pos _, ?_⟩
        · rw [hissued, List.filter_append, List.map_append, hnumbered.versions, List.range_succ,
            List.map_append]
          simp [JointEvent.issues, hversion, hnumbered.next]
        · rw [hnext, hnumbered.next, Nat.mul_succ, UInt32.ofNat_add, ← UInt32.add_assoc]
          rfl
        · have hle := hnumbered.count_le
          simp only [JointEvent.issues, List.filterMap_cons, List.countP_cons, decide_true,
            if_true]
          omega
      · have hslot := hother idx hidx
        refine ⟨base, count, ?_, ?_, ?_, ?_⟩
        · rw [hissued, List.filter_append, List.map_append, hnumbered.versions]
          simp [JointEvent.issues, Ne.symm hidx]
        · rw [← hnumbered.next, nextVersion, nextVersion, hslot]
        · rintro ⟨version, value, hvalue⟩
          exact hnumbered.occupied ⟨version, value, hslot ▸ hvalue⟩
        · refine hnumbered.count_le.trans (Nat.add_le_add_right ?_ _)
          simp only [JointEvent.issues, List.filterMap_cons, List.countP_cons]
          exact Nat.le_add_right _ _
    · have hissues : (JointEvent.primary op answer : JointEvent V U).issues = none :=
        issues_eq_none hnone
      refine ⟨base, count, hnumbered.congr rfl ?_ (List.filterMap_cons_none hissues) (hsame idx).1
        (hsame idx).2⟩
      rw [issued_record, hissues]
      exact List.append_nil _
  · rcases h.stored hentry with ⟨key, hmem, hkey⟩
    refine ⟨key, ?_, hkey⟩
    rw [issued_record]
    exact List.mem_append_left _ hmem
  · exact h.written hget

/-- What an operation on the secondary map does to the entries. -/
inductive SecondaryStep (map : SecondaryMap U) :
    SecondaryOp U → Except Panic (Option U) → SecondaryMap U → Prop
  | ignore (key : KeyData) (value : U)
      (hignored : key.isNull = true ∨ ∃ entry, map.entryAt key.idx = some entry ∧
        2 ^ 31 ≤ (key.version - entry.version).toNat) :
      SecondaryStep map (.insert key value) (.ok none) map
  | insert (key : KeyData) (value : U) (map' : SecondaryMap U) (hnull : key.isNull = false)
      (hnear : ∀ entry, map.entryAt key.idx = some entry →
        (key.version - entry.version).toNat < 2 ^ 31)
      (hentries : ∀ idx, map'.entryAt idx =
        if idx = key.idx then some ⟨key.version, value⟩ else map.entryAt idx) :
      SecondaryStep map (.insert key value) (.ok (map.get key)) map'
  | removeNone (key : KeyData) : SecondaryStep map (.remove key) (.ok none) map
  | remove (key : KeyData) (value : U) (map' : SecondaryMap U) (hget : map.get key = some value)
      (hentries : ∀ idx, map'.entryAt idx = if idx = key.idx then none else map.entryAt idx) :
      SecondaryStep map (.remove key) (.ok (some value)) map'
  | get (key : KeyData) : SecondaryStep map (.get key) (.ok (map.get key)) map
  | getMutNone (key : KeyData) (write : U → U) :
      SecondaryStep map (.getMut key write) (.ok none) map
  | getMut (key : KeyData) (write : U → U) (value : U) (map' : SecondaryMap U)
      (hget : map.get key = some value)
      (hentries : ∀ idx, map'.entryAt idx =
        if idx = key.idx then some ⟨key.version, write value⟩ else map.entryAt idx) :
      SecondaryStep map (.getMut key write) (.ok (some value)) map'

lemma step_applySecondary (map : SecondaryMap U) (op : SecondaryOp U) :
    SecondaryStep map op (Joint.applySecondary map op).1 (Joint.applySecondary map op).2 := by
  cases op with
  | insert key value =>
    change SecondaryStep map _ (map.insert key value).1 (map.insert key value).2
    rcases map.insert_cases key value with ⟨hignored, heq⟩ | ⟨hnull, hnear, hanswer, hentries⟩
    · rw [heq]
      exact .ignore key value hignored
    · rw [hanswer]
      exact .insert key value _ hnull hnear hentries
  | remove key =>
    change SecondaryStep map _ (.ok (map.remove key).1) (map.remove key).2
    rcases hget : map.get key with _ | value
    · rw [SecondaryMap.remove_of_get_none hget]
      exact .removeNone key
    · rcases SecondaryMap.remove_of_get hget with ⟨hanswer, hentries⟩
      rw [hanswer]
      exact .remove key value _ hget hentries
  | get key => exact .get key
  | getMut key write =>
    change SecondaryStep map _ (.ok (map.getMut key write).1) (map.getMut key write).2
    rcases hget : map.get key with _ | value
    · rw [SecondaryMap.getMut_of_get_none hget]
      exact .getMutNone key write
    · rcases SecondaryMap.getMut_of_get hget write with ⟨hanswer, hentries⟩
      rw [hanswer]
      exact .getMut key write value _ hget hentries

/-- A stored entry has the version of the inserted key or of an entry before. -/
lemma SecondaryStep.stored {map map' : SecondaryMap U} {op : SecondaryOp U}
    {answer : Except Panic (Option U)} (hstep : SecondaryStep map op answer map') {idx : UInt32}
    {entry : SecondaryMap.Entry U} (hentry : map'.entryAt idx = some entry) :
    (∃ old, map.entryAt idx = some old ∧ old.version = entry.version) ∨
      ∃ key value, op = .insert key value ∧ key.isNull = false ∧ key.idx = idx ∧
        key.version = entry.version := by
  cases hstep with
  | ignore | removeNone | get | getMutNone => exact .inl ⟨entry, hentry, rfl⟩
  | insert key value _ hnull hnear hentries =>
    rw [hentries] at hentry
    split_ifs at hentry with hidx
    · cases hentry
      exact .inr ⟨key, value, rfl, hnull, hidx.symm, rfl⟩
    · exact .inl ⟨entry, hentry, rfl⟩
  | remove key value _ hget hentries =>
    rw [hentries] at hentry
    split_ifs at hentry
    exact .inl ⟨entry, hentry, rfl⟩
  | getMut key write value _ hget hentries =>
    rw [hentries] at hentry
    split_ifs at hentry with hidx
    · cases hentry
      exact .inl ⟨⟨key.version, value⟩, hidx ▸ SecondaryMap.get_eq_some.mp hget, rfl⟩
    · exact .inl ⟨entry, hentry, rfl⟩

/-- A write under one key is not found by another key. -/
lemma get_of_write {map map' : SecondaryMap U} {key other : KeyData} {written value : U}
    (hentries : ∀ idx, map'.entryAt idx =
      if idx = other.idx then some ⟨other.version, written⟩ else map.entryAt idx)
    (hget : map'.get key = some value) :
    other = key ∧ written = value ∨ other ≠ key ∧ map.get key = some value := by
  rw [SecondaryMap.get_eq_some, hentries] at hget
  split_ifs at hget with hidx
  · rw [Option.some.injEq, SecondaryMap.Entry.mk.injEq] at hget
    exact .inl ⟨KeyData.ext hidx.symm hget.1, hget.2⟩
  · exact .inr ⟨fun hsame => hidx (congrArg KeyData.idx hsame.symm), SecondaryMap.get_eq_some.mpr hget⟩

/-- A key that finds a value is neither null nor behind the entry of its slot. -/
lemma Ages.not_ignored (h : Ages joint) {key : KeyData} {value : U}
    (hget : joint.secondary.get key = some value) :
    ¬(key.isNull = true ∨ ∃ entry, joint.secondary.entryAt key.idx = some entry ∧
      2 ^ 31 ≤ (key.version - entry.version).toNat) := by
  have hentry := SecondaryMap.get_eq_some.mp hget
  rintro (hnull | ⟨entry, hentry', hfar⟩)
  · rcases h.stored hentry with ⟨stored, -, hidx, -, hstored⟩
    unfold KeyData.isNull at hnull hstored
    rw [hidx, hnull] at hstored
    cases hstored
  · rw [hentry, Option.some.injEq] at hentry'
    rw [← hentry', UInt32.sub_self] at hfar
    exact absurd hfar (by decide)

/-- What a key finds after an operation is what the operation wrote under it, or what the key found
before. -/
lemma Ages.written_step (h : Ages joint) {op : SecondaryOp U} {answer : Except Panic (Option U)}
    {map : SecondaryMap U} (hstep : SecondaryStep joint.secondary op answer map) {key : KeyData}
    {value : U} (hget : map.get key = some value) :
    (JointEvent.secondary op answer : JointEvent V U).writes key = some value ∨
      (JointEvent.secondary op answer : JointEvent V U).writes key = none ∧
        joint.secondary.get key = some value := by
  cases hstep with
  | ignore other written hignored =>
    refine .inr ⟨if_neg fun hsame => ?_, hget⟩
    exact h.not_ignored hget (hsame ▸ hignored)
  | insert other written _ hnull hnear hentries =>
    rcases get_of_write hentries hget with ⟨hsame, hvalue⟩ | ⟨hne, hbefore⟩
    · exact .inl ((if_pos hsame).trans (congrArg some hvalue))
    · exact .inr ⟨if_neg hne, hbefore⟩
  | removeNone | get | getMutNone => exact .inr ⟨rfl, hget⟩
  | remove other removed _ hother hentries =>
    rw [SecondaryMap.get_eq_some, hentries] at hget
    split_ifs at hget
    exact .inr ⟨rfl, SecondaryMap.get_eq_some.mpr hget⟩
  | getMut other write old _ hother hentries =>
    rcases get_of_write hentries hget with ⟨hsame, hvalue⟩ | ⟨hne, hbefore⟩
    · exact .inl ((if_pos hsame).trans (congrArg some hvalue))
    · exact .inr ⟨if_neg hne, hbefore⟩

lemma Ages.secondary (h : Ages joint) {op : SecondaryOp U} {answer : Except Panic (Option U)}
    {map : SecondaryMap U} (hpermits : joint.permits op = true)
    (happly : Joint.applySecondary joint.secondary op = (answer, map)) :
    Ages ⟨joint.start, joint.primary, map, .secondary op answer :: joint.log⟩ := by
  have hissued : (Joint.mk joint.start joint.primary map
      (.secondary op answer :: joint.log)).issued = joint.issued := by
    rw [issued_record]
    exact List.append_nil _
  have hstep : SecondaryStep joint.secondary op answer map := by
    have hstep := step_applySecondary joint.secondary op
    rwa [happly] at hstep
  refine ⟨h.chained, fun idx => ?_, fun key hkey => ?_, fun {idx entry} hentry => ?_,
    fun {key value} hget => ?_⟩
  · rcases h.numbered idx with ⟨base, count, hnumbered⟩
    exact ⟨base, count, hnumbered.congr rfl hissued rfl rfl id⟩
  · exact h.window key (hissued ▸ hkey)
  · rw [hissued]
    rcases hstep.stored hentry with ⟨old, hold, hversion⟩ |
      ⟨key, value, rfl, hnull, hidx, hversion⟩
    · rcases h.stored hold with ⟨key, hmem, hidx, hkey, hnull⟩
      exact ⟨key, hmem, hidx, hkey.trans hversion, hnull⟩
    · have hmem : key ∈ joint.issued := by
        simpa [Joint.permits, hnull] using hpermits
      exact ⟨key, hmem, hidx, hversion, hnull⟩
  · unfold Joint.written
    rcases h.written_step hstep hget with hwrites | ⟨hwrites, hbefore⟩
    · rw [List.findSome?_cons, hwrites]
    · rw [List.findSome?_cons, hwrites]
      exact h.written hbefore

lemma Ages.next (h : Ages joint) {op : JointOp V U}
    (hnext : joint.next dropPanics op = some joint') : Ages joint' := by
  rcases next_cases hnext with ⟨op', answer, map, rfl, happly, rfl, hwindow⟩ |
    ⟨op', answer, map, rfl, hpermits, happly, rfl⟩
  · exact h.primary happly hwindow
  · exact h.secondary hpermits happly

theorem ages_of_reachable {slots : ℕ} (hstart : (slotMapSystem dropPanics slots).Reachable start)
    (h : (jointSystem dropPanics start capacity : System (Joint V U) _).Reachable joint) :
    Ages joint := by
  refine h.invariant ?_ fun _ _ _ hages hstep => hages.next hstep
  rintro _ rfl
  exact ages_new (chained_of_reachable hstart)

end Steps

/-! ### Keys in use -/

section Keeping

variable {joint joint' last : Joint V U} {dropPanics : V → Bool} {capacity : ℕ} {start : SlotMap V}
  {key other : KeyData} {value : U}

/-- The operations that may change what a key finds: writes and removals under the key itself, and
inserts under newer keys of its slot. -/
def JointOp.Disturbs (joint : Joint V U) (key : KeyData) : JointOp V U → Prop
  | .secondary (.insert other _) => other = key ∨ joint.Older key other
  | .secondary (.remove other) => other = key
  | .secondary (.getMut other _) => other = key
  | _ => False

lemma issued_next {op : JointOp V U} (hnext : joint.next dropPanics op = some joint') :
    ∃ newer, joint'.issued = joint.issued ++ newer := by
  rcases next_cases hnext with ⟨op', answer, map, rfl, -, rfl, -⟩ |
    ⟨op', answer, map, rfl, -, -, rfl⟩
  · exact ⟨_, issued_record joint map joint.secondary (.primary op' answer)⟩
  · exact ⟨_, issued_record joint joint.primary map (.secondary op' answer)⟩

/-- Ages do not change. -/
lemma Older.next {op : JointOp V U} (hnext : joint.next dropPanics op = some joint')
    (holder : joint.Older key other) : joint'.Older key other := by
  rcases issued_next hnext with ⟨newer, hissued⟩
  refine ⟨holder.1, holder.2.trans ?_⟩
  rw [hissued]
  exact List.sublist_append_left _ _

lemma JointOp.Disturbs.next {op op' : JointOp V U} (hnext : joint.next dropPanics op = some joint')
    (h : op'.Disturbs joint key) : op'.Disturbs joint' key := by
  rcases op' with _ | (_ | _ | _ | _)
  · exact h
  · exact h.imp id (Older.next hnext)
  · exact h
  · exact h
  · exact h

/-- An issued key that finds a value goes on finding it. -/
lemma Ages.keeps (h : Ages joint) (hissued : key ∈ joint.issued)
    (hget : joint.secondary.get key = some value) {op : JointOp V U}
    (hnext : joint.next dropPanics op = some joint') (hop : ¬op.Disturbs joint key) :
    joint'.secondary.get key = some value := by
  have hentry := SecondaryMap.get_eq_some.mp hget
  rcases next_cases hnext with ⟨op', answer, map, rfl, -, rfl, -⟩ |
    ⟨op', answer, map, rfl, hpermits, happly, rfl⟩
  · exact hget
  · change map.get key = some value
    have hstep := step_applySecondary joint.secondary op'
    rw [happly] at hstep
    cases hstep with
    | ignore | removeNone | get | getMutNone => exact hget
    | insert other written _ hnull hnear hentries =>
      rw [SecondaryMap.get_eq_some, hentries]
      split_ifs with hidx
      · -- the key that is inserted is another one of the slot, and newer
        have hne : key ≠ other := fun heq => hop (.inl heq.symm)
        have hother : other ∈ joint.issued := by
          simpa [Joint.permits, hnull] using hpermits
        rcases pair_sublist_of_mem hissued hother hne with holder | holder
        · exact absurd (.inr ⟨hidx, holder⟩) hop
        · have hfar := h.far_of_older ⟨hidx.symm, holder⟩
          have hclose := hnear ⟨key.version, value⟩ (hidx ▸ hentry)
          exact absurd hfar (Nat.not_le.mpr hclose)
      · exact hentry
    | remove other removed _ hother hentries =>
      have hidx := SecondaryMap.idx_ne_of_get hget hother fun heq => hop heq.symm
      rw [SecondaryMap.get_eq_some, hentries, if_neg hidx]
      exact hentry
    | getMut other write old _ hother hentries =>
      have hidx := SecondaryMap.idx_ne_of_get hget hother fun heq => hop heq.symm
      rw [SecondaryMap.get_eq_some, hentries, if_neg hidx]
      exact hentry

/-- An insert under a live key stores its value. -/
lemma Ages.get_of_insert (h : Ages joint) (hlive : joint.primary.get key ≠ none)
    (hnext : joint.next dropPanics (.secondary (.insert key value)) = some joint') :
    key ∈ joint'.issued ∧ joint'.secondary.get key = some value := by
  rcases h.newest hlive with ⟨hissued, hnull, hnewest⟩
  have hnear : ∀ entry, joint.secondary.entryAt key.idx = some entry →
      (key.version - entry.version).toNat < 2 ^ 31 := by
    intro entry hentry
    rcases h.stored hentry with ⟨stored, hmem, hidx, hversion, -⟩
    rw [← hversion]
    exact hnewest stored hmem hidx
  rcases next_cases hnext with ⟨_, _, _, hop, -⟩ | ⟨op, answer, map, hop, -, happly, rfl⟩
  · cases hop
  · cases hop
    have hmap : (joint.secondary.insert key value).2 = map := congrArg Prod.snd happly
    rw [issued_record]
    refine ⟨List.mem_append_left _ hissued, SecondaryMap.get_eq_some.mpr ?_⟩
    change map.entryAt key.idx = _
    rw [← hmap, (SecondaryMap.insert_of_near hnull hnear value).2, if_pos rfl]

/-- What an issued key finds lasts until an operation disturbs the key. -/
lemma kept_of_run {slots : ℕ} (hstart : (slotMapSystem dropPanics slots).Reachable start)
    (hreach : (jointSystem dropPanics start capacity).Reachable joint) {ops : List (JointOp V U)}
    (hrun : (jointSystem dropPanics start capacity).Run joint ops last)
    (hkept : key ∈ joint.issued ∧ joint.secondary.get key = some value)
    (hops : ∀ op ∈ ops, ¬op.Disturbs last key) :
    key ∈ last.issued ∧ last.secondary.get key = some value := by
  induction hrun with
  | nil => exact hkept
  | @snoc ops op middle last hbefore hlast ih =>
    have hmiddle := ih fun other hmem hdisturbs =>
      hops other (List.mem_append_left _ hmem) (hdisturbs.next hlast)
    rcases issued_next hlast with ⟨newer, hissued⟩
    refine ⟨hissued ▸ List.mem_append_left _ hmiddle.1, ?_⟩
    refine (ages_of_reachable hstart (hbefore.reachable hreach)).keeps hmiddle.1 hmiddle.2 hlast
      fun hdisturbs => ?_
    exact hops op (List.mem_append_right _ List.mem_cons_self) (hdisturbs.next hlast)

end Keeping

/-! ### Keys out of use -/

section Stale

variable {joint : Joint V U} {key stored : KeyData}

lemma Ages.stale (h : Ages joint) (hstored : joint.secondary.get stored ≠ none)
    (holder : joint.Older key stored) (value : U) :
    joint.secondary.insert key value = (.ok none, joint.secondary) ∧
      joint.secondary.remove key = (none, joint.secondary) := by
  rcases Option.ne_none_iff_exists'.mp hstored with ⟨found, hfound⟩
  have hentry := SecondaryMap.get_eq_some.mp hfound
  rw [← holder.1] at hentry
  have hfar := h.far_of_older holder
  have hne : stored.version ≠ key.version := by
    intro hsame
    rw [← hsame, UInt32.sub_self] at hfar
    exact absurd hfar (by decide)
  refine ⟨SecondaryMap.insert_of_far hentry hfar value, SecondaryMap.remove_of_get_none ?_⟩
  refine SecondaryMap.get_eq_none fun entry hother => ?_
  rw [hentry, Option.some.injEq] at hother
  exact hother ▸ hne

lemma Ages.null (h : Ages joint) (hnull : key.isNull = true) (value : U) :
    joint.secondary.insert key value = (.ok none, joint.secondary) ∧
      joint.secondary.remove key = (none, joint.secondary) := by
  refine ⟨SecondaryMap.insert_of_null hnull value, SecondaryMap.remove_of_get_none ?_⟩
  refine SecondaryMap.get_eq_none fun entry hentry => ?_
  rcases h.stored hentry with ⟨stored, -, hidx, -, hstored⟩
  unfold KeyData.isNull at hnull hstored
  rw [hidx, hnull] at hstored
  cases hstored

end Stale

/-- What a secondary map promises about the keys of its slot map. -/
structure RespectsAges (dropPanics : V → Bool) (start : SlotMap V) (capacity : ℕ)
    (joint : Joint V U) : Prop where
  /-- A key finds only the value last written under it. -/
  exact : ∀ key value, joint.secondary.get key = some value → joint.written key = some value
  /-- A key that is older than the stored one of its slot changes nothing. -/
  stale : ∀ key stored value, joint.secondary.get stored ≠ none → joint.Older key stored →
    joint.secondary.insert key value = (.ok none, joint.secondary) ∧
      joint.secondary.remove key = (none, joint.secondary)
  null : ∀ key value, key.isNull = true →
    joint.secondary.insert key value = (.ok none, joint.secondary) ∧
      joint.secondary.remove key = (none, joint.secondary)
  /-- A value inserted under a live key is found until the key is disturbed. -/
  kept : ∀ key value joint' ops last, joint.primary.get key ≠ none →
    (jointSystem dropPanics start capacity).step joint (.secondary (.insert key value)) joint' →
    (jointSystem dropPanics start capacity).Run joint' ops last →
    (∀ op ∈ ops, ¬op.Disturbs last key) → last.secondary.get key = some value

/-- In the joint runs of a secondary map with a slot map in any state that it can be in, stale keys
never disturb newer ones. -/
theorem secondary_respects_ages {dropPanics : V → Bool} {slots capacity : ℕ} {start : SlotMap V}
    {joint : Joint V U} (hstart : (slotMapSystem dropPanics slots).Reachable start)
    (h : (jointSystem dropPanics start capacity).Reachable joint) :
    RespectsAges dropPanics start capacity joint := by
  have hages := ages_of_reachable hstart h
  constructor
  case exact => exact fun key value hget => hages.written hget
  case stale => exact fun key stored value hstored holder => hages.stale hstored holder value
  case null => exact fun key value hnull => hages.null hnull value
  case kept =>
    intro key value joint' ops last hlive hinsert hrun hops
    exact (kept_of_run hstart (h.step hinsert) hrun (hages.get_of_insert hlive hinsert) hops).2

/-- Two keys of one slot: the second one is stored, and an insert under the first one follows. -/
theorem secondary_respects_ages_reused :
    let first := KeyData.new 1 1
    let second := KeyData.new 1 3
    let joint := (System.replay (Joint.next fun _ => false)
      (Joint.new (withCapacity 0) 0 : Joint ℕ ℕ)
      [.primary (.insert 1), .secondary (.insert first 10), .primary (.remove first),
        .primary (.insert 2), .secondary (.insert second 20),
        .secondary (.insert first 30)]).get (by decide +kernel)
    RespectsAges (fun _ => false) (withCapacity 0) 0 joint :=
  secondary_respects_ages (show (slotMapSystem _ 0).Reachable _ from .init rfl)
    (System.reachable_replay _)

end DoomFishUtils.SlotMap
