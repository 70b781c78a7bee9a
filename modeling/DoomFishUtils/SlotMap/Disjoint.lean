import DoomFishUtils.SlotMap.Secondary
import Mathlib.Data.List.Nodup

/-!
# Disjoint references into the secondary map

`get_disjoint_mut` checks each key against the map and the keys before it, and then takes the
references by raw slot accesses.  A reference is the index of the slot whose value it points to.
-/

namespace DoomFishUtils.SecondaryMap

set_option autoImplicit false

open SlotMap (KeyData)

variable {V : Type}

/-- What the unchecked accesses rely on never to happen. -/
inductive Fault where
  /-- A raw access outside the slots. -/
  | outOfBounds
  /-- `unreachable!()`, at a slot without an entry. -/
  | unreachable
  deriving DecidableEq

/-- The loop over the keys left; `earlier` is `keys[..position]`. -/
def checkLoop (map : SecondaryMap V) (earlier : List KeyData) : List KeyData → Bool
  | [] => true
  | key :: rest =>
    let index := key.idx
    if (map.get key).isNone || earlier.any fun other => other.idx == index then false
    else checkLoop map (earlier ++ [key]) rest

/-- `&mut *slots.add(idx)`, matched for its entry. -/
def rawMut (map : SecondaryMap V) (key : KeyData) : Except Fault ℕ :=
  match map.slots[key.idx.toNat]? with
  | none => .error .outOfBounds
  | some none => .error .unreachable
  | some (some _) => .ok key.idx.toNat

def rawMuts (map : SecondaryMap V) : List KeyData → Except Fault (List ℕ)
  | [] => .ok []
  | key :: keys =>
    match map.rawMut key with
    | .error fault => .error fault
    | .ok reference => (map.rawMuts keys).map (reference :: ·)

def getDisjointMut (map : SecondaryMap V) (keys : List KeyData) :
    Except Fault (Option (List ℕ)) :=
  if map.checkLoop [] keys then (map.rawMuts keys).map some else .ok none

/-- A write through a reference. -/
def writeAt (map : SecondaryMap V) (reference : ℕ) (value : V) : SecondaryMap V :=
  match map.slots[reference]? with
  | some (some entry) => map.store reference (some { entry with value := value })
  | _ => map

def writeAll (map : SecondaryMap V) : List (ℕ × V) → SecondaryMap V
  | [] => map
  | (reference, value) :: writes => (map.writeAt reference value).writeAll writes

variable {map : SecondaryMap V} {key : KeyData} {keys : List KeyData} {value : V}

/-! ### The checks -/

section Checks

lemma checkLoop_eq_true {earlier : List KeyData} :
    map.checkLoop earlier keys = true ↔ (∀ key ∈ keys, (map.get key).isSome) ∧
      (∀ key ∈ keys, ∀ other ∈ earlier, other.idx ≠ key.idx) ∧
      (keys.map KeyData.idx).Nodup := by
  induction keys generalizing earlier with
  | nil => simp [checkLoop]
  | cons key rest ih =>
    have hearlier : (earlier.any fun other => other.idx == key.idx) = true ↔
        ∃ other ∈ earlier, other.idx = key.idx := by simp
    unfold checkLoop
    dsimp only
    split_ifs with hrefused
    · simp only [false_iff, not_and]
      intro hpresent hfresh
      rw [Bool.or_eq_true, hearlier] at hrefused
      rcases hrefused with hnone | ⟨other, hmem, hsame⟩
      · have hsome := hpresent key List.mem_cons_self
        rw [Option.isNone_iff_eq_none.mp hnone] at hsome
        cases hsome
      · exact absurd hsame (hfresh key List.mem_cons_self other hmem)
    · rw [Bool.or_eq_true, hearlier, not_or] at hrefused
      obtain ⟨hsome, hfresh⟩ := hrefused
      rw [Bool.not_eq_true, Option.isNone_eq_false_iff] at hsome
      rw [ih, List.map_cons, List.nodup_cons]
      constructor
      · rintro ⟨hpresent, hlater, hnodup⟩
        refine ⟨List.forall_mem_cons.mpr ⟨hsome, hpresent⟩,
          List.forall_mem_cons.mpr ⟨?_, ?_⟩, ?_, hnodup⟩
        · exact fun other hmem hsame => hfresh ⟨other, hmem, hsame⟩
        · exact fun k hk other hmem => hlater k hk other (List.mem_append_left _ hmem)
        · intro hmem
          obtain ⟨k, hk, hidx⟩ := List.mem_map.mp hmem
          exact hlater k hk key (by simp) hidx.symm
      · rintro ⟨hpresent, hlater, hout, hnodup⟩
        rw [List.forall_mem_cons] at hpresent
        refine ⟨hpresent.2, fun k hk other hmem => ?_, hnodup⟩
        rcases List.mem_append.mp hmem with hmem | hmem
        · exact hlater k (List.mem_cons_of_mem _ hk) other hmem
        · obtain rfl := List.mem_singleton.mp hmem
          exact fun hidx => hout (List.mem_map.mpr ⟨k, hk, hidx.symm⟩)

/-- Among keys that all find a value, different keys have different slots. -/
lemma nodup_idx_iff (hpresent : ∀ key ∈ keys, (map.get key).isSome) :
    (keys.map KeyData.idx).Nodup ↔ keys.Nodup := by
  refine ⟨fun h => h.of_map _, fun h => h.map_on fun first hfirst second hsecond hidx => ?_⟩
  obtain ⟨value, hget⟩ := Option.isSome_iff_exists.mp (hpresent first hfirst)
  obtain ⟨value', hget'⟩ := Option.isSome_iff_exists.mp (hpresent second hsecond)
  by_contra hne
  exact idx_ne_of_get hget hget' hne hidx

lemma checkLoop_nil_eq_true :
    map.checkLoop [] keys = true ↔ (∀ key ∈ keys, (map.get key).isSome) ∧ keys.Nodup := by
  rw [checkLoop_eq_true]
  constructor
  · rintro ⟨hpresent, -, hnodup⟩
    exact ⟨hpresent, (nodup_idx_iff hpresent).mp hnodup⟩
  · rintro ⟨hpresent, hnodup⟩
    exact ⟨hpresent, by simp, (nodup_idx_iff hpresent).mpr hnodup⟩

end Checks

/-! ### The raw accesses -/

lemma rawMut_of_get (hget : map.get key = some value) : map.rawMut key = .ok key.idx.toNat := by
  unfold rawMut
  rw [entryAt_eq_some.mp (get_eq_some.mp hget)]

/-- Present keys are accessed inside the slots, and their slots have entries. -/
lemma rawMuts_of_present (hpresent : ∀ key ∈ keys, (map.get key).isSome) :
    map.rawMuts keys = .ok (keys.map fun key => key.idx.toNat) := by
  induction keys with
  | nil => rfl
  | cons key keys ih =>
    obtain ⟨value, hget⟩ := Option.isSome_iff_exists.mp (hpresent key List.mem_cons_self)
    have hrest := ih fun k hk => hpresent k (List.mem_cons_of_mem _ hk)
    unfold rawMuts
    rw [rawMut_of_get hget, hrest]
    rfl

/-! ### Writes through references -/

section Writes

/-- A write through a reference changes what the key of its slot reads. -/
lemma get_writeAt (reference : ℕ) (value : V) :
    (map.writeAt reference value).get key =
      (map.get key).map fun old => if key.idx.toNat = reference then value else old := by
  by_cases hidx : key.idx.toNat = reference
  · obtain rfl := hidx
    simp only [if_pos]
    unfold writeAt get
    rcases hslot : map.slots[key.idx.toNat]? with _ | _ | entry
    · dsimp only
      rw [hslot]
      rfl
    · dsimp only
      rw [hslot]
      rfl
    · have hlt := (List.getElem?_eq_some_iff.mp hslot).1
      simp only [store, List.getElem?_set_self hlt]
      split_ifs <;> rfl
  · simp only [if_neg hidx, Option.map_id']
    unfold writeAt
    split
    · unfold get store
      rw [List.getElem?_set_ne (Ne.symm hidx)]
    · rfl

lemma get_writeAll_of_notMem {writes : List (ℕ × V)}
    (hout : key.idx.toNat ∉ writes.map Prod.fst) : (map.writeAll writes).get key = map.get key := by
  induction writes generalizing map with
  | nil => rfl
  | cons write writes ih =>
    rw [List.map_cons, List.mem_cons, not_or] at hout
    unfold writeAll
    rw [ih hout.2, get_writeAt]
    simp only [if_neg hout.1, Option.map_id']

lemma get_writeAll_of_get_none {writes : List (ℕ × V)} (hnone : map.get key = none) :
    (map.writeAll writes).get key = none := by
  induction writes generalizing map with
  | nil => exact hnone
  | cons write writes ih =>
    refine ih ?_
    rw [get_writeAt, hnone]
    rfl

/-- Of writes through different references each one is read afterwards. -/
lemma get_writeAll_of_mem {writes : List (ℕ × V)} (hnodup : (writes.map Prod.fst).Nodup)
    (hmem : (key.idx.toNat, value) ∈ writes) (hpresent : (map.get key).isSome) :
    (map.writeAll writes).get key = some value := by
  induction writes generalizing map with
  | nil => cases hmem
  | cons write writes ih =>
    obtain ⟨hout, hnodup⟩ := List.nodup_cons.mp hnodup
    unfold writeAll
    rcases List.mem_cons.mp hmem with rfl | hlater
    · obtain ⟨old, hget⟩ := Option.isSome_iff_exists.mp hpresent
      rw [get_writeAll_of_notMem hout, get_writeAt, hget, Option.map_some, if_pos rfl]
    · refine ih hnodup hlater ?_
      rw [get_writeAt, Option.isSome_map]
      exact hpresent

end Writes

/-- What it takes that references handed out for keys do not alias: each is the slot of its key,
inside the slots and holding the entry of the key, no two are the same, and after a write through
each of them, in any order, every key reads what was written for it. -/
structure Handout (map : SecondaryMap V) (keys : List KeyData) (references : List ℕ) : Prop where
  length_eq : references.length = keys.length
  entry : ∀ (i : ℕ) (key : KeyData) (reference : ℕ), keys[i]? = some key →
    references[i]? = some reference → ∃ value, map.get key = some value ∧
      map.slots[reference]? = some (some ⟨key.version, value⟩)
  nodup : references.Nodup
  written : ∀ (values : List V) (writes : List (ℕ × V)), values.length = keys.length →
    writes.Perm (references.zip values) →
    (∀ (i : ℕ) (key : KeyData), keys[i]? = some key →
      (map.writeAll writes).get key = values[i]?) ∧
    ∀ key ∉ keys, (map.writeAll writes).get key = map.get key

section Handouts

variable {references : List ℕ} {values : List V} {writes : List (ℕ × V)}

lemma nodup_toNat_idx (hpresent : ∀ key ∈ keys, (map.get key).isSome) (hnodup : keys.Nodup) :
    (keys.map fun key => key.idx.toNat).Nodup := by
  have hidx := (nodup_idx_iff hpresent).mpr hnodup
  have htoNat := hidx.map fun first second => UInt32.toNat_inj.mp
  rwa [List.map_map] at htoNat

/-- The writes in any order go through each reference once. -/
lemma map_fst_writes (hlength : references.length ≤ values.length)
    (hwrites : writes.Perm (references.zip values)) : (writes.map Prod.fst).Perm references := by
  have hfst := hwrites.map Prod.fst
  rwa [List.map_fst_zip hlength] at hfst

lemma get_written (hpresent : ∀ key ∈ keys, (map.get key).isSome) (hnodup : keys.Nodup)
    (hlength : values.length = keys.length)
    (hwrites : writes.Perm ((keys.map fun key => key.idx.toNat).zip values)) {i : ℕ}
    (hi : keys[i]? = some key) : (map.writeAll writes).get key = values[i]? := by
  have hlt : i < values.length := by
    rw [hlength]
    exact (List.getElem?_eq_some_iff.mp hi).1
  have hvalue : values[i]? = some values[i] := List.getElem?_eq_getElem hlt
  have hmem : (key.idx.toNat, values[i]) ∈ writes := by
    refine hwrites.mem_iff.mpr (List.mem_of_getElem? (i := i) ?_)
    rw [List.getElem?_zip_eq_some, List.getElem?_map, hi]
    exact ⟨rfl, hvalue⟩
  have hfst : (writes.map Prod.fst).Nodup :=
    (map_fst_writes (by simp [hlength]) hwrites).nodup_iff.mpr (nodup_toNat_idx hpresent hnodup)
  rw [hvalue]
  exact get_writeAll_of_mem hfst hmem (hpresent key (List.mem_of_getElem? hi))

/-- A key that was not asked for reads as before: where it shares the slot of one that was, it finds
nothing. -/
lemma get_unwritten (hpresent : ∀ key ∈ keys, (map.get key).isSome)
    (hlength : values.length = keys.length)
    (hwrites : writes.Perm ((keys.map fun key => key.idx.toNat).zip values)) (hkey : key ∉ keys) :
    (map.writeAll writes).get key = map.get key := by
  by_cases hmem : key.idx.toNat ∈ writes.map Prod.fst
  · rw [(map_fst_writes (by simp [hlength]) hwrites).mem_iff, List.mem_map] at hmem
    obtain ⟨other, hother, hidx⟩ := hmem
    have hne : other ≠ key := fun h => hkey (h ▸ hother)
    have hnone : map.get key = none := by
      refine Option.eq_none_iff_forall_ne_some.mpr fun value hget => ?_
      obtain ⟨value', hget'⟩ := Option.isSome_iff_exists.mp (hpresent other hother)
      exact idx_ne_of_get hget' hget hne (UInt32.toNat_inj.mp hidx)
    rw [get_writeAll_of_get_none hnone, hnone]
  · exact get_writeAll_of_notMem hmem

lemma handout_of_present (hpresent : ∀ key ∈ keys, (map.get key).isSome) (hnodup : keys.Nodup) :
    Handout map keys (keys.map fun key => key.idx.toNat) where
  length_eq := List.length_map _
  entry i key reference hi hreference := by
    rw [List.getElem?_map, hi, Option.map_some, Option.some.injEq] at hreference
    obtain rfl := hreference
    obtain ⟨value, hget⟩ := Option.isSome_iff_exists.mp (hpresent key (List.mem_of_getElem? hi))
    exact ⟨value, hget, entryAt_eq_some.mp (get_eq_some.mp hget)⟩
  nodup := nodup_toNat_idx hpresent hnodup
  written values writes hlength hwrites :=
    ⟨fun i key hi => get_written hpresent hnodup hlength hwrites hi,
      fun key hkey => get_unwritten hpresent hlength hwrites hkey⟩

end Handouts

/-- For any keys `get_disjoint_mut` makes no access that its checks do not cover, and it hands out
references that do not alias exactly when every key is present and none is repeated. -/
theorem getDisjointMut_no_alias (map : SecondaryMap V) (keys : List KeyData) :
    ∃ handed, map.getDisjointMut keys = .ok handed ∧
      (handed.isSome = true ↔ (∀ key ∈ keys, (map.get key).isSome) ∧ keys.Nodup) ∧
      ∀ references, handed = some references → Handout map keys references := by
  unfold getDisjointMut
  rw [← checkLoop_nil_eq_true]
  split_ifs with hcheck
  · obtain ⟨hpresent, hnodup⟩ := checkLoop_nil_eq_true.mp hcheck
    rw [rawMuts_of_present hpresent]
    refine ⟨_, rfl, iff_of_true rfl hcheck, ?_⟩
    rintro references hreferences
    cases hreferences
    exact handout_of_present hpresent hnodup
  · exact ⟨none, rfl, iff_of_false Bool.false_ne_true hcheck, by rintro references ⟨⟩⟩

end DoomFishUtils.SecondaryMap
