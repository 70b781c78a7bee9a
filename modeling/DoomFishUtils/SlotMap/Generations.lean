import DoomFishUtils.SlotMap.Unwinding

/-!
# Stale keys

Every reuse of a slot moves its version on by two, so that a key whose value is gone comes back
with the reuse that wraps the version around, and not before.
-/

namespace DoomFishUtils.SlotMap

set_option autoImplicit false

open Library

variable {V : Type}

section Versions

lemma or_one_of_even {version : UInt32} (h : version.toNat % 2 = 0) :
    version ||| 1 = version + 1 := by
  apply UInt32.toNat_inj.mp
  have hlt := version.toNat_lt
  have hone : (1 : UInt32).toNat = 1 := rfl
  rw [toNat_or_one, UInt32.toNat_add, hone]
  omega

lemma add_ofNat_succ (version : UInt32) (n : ℕ) :
    version + UInt32.ofNat n + 1 = version + UInt32.ofNat (n + 1) := by
  rw [UInt32.ofNat_add, ← UInt32.add_assoc]
  rfl

lemma add_ofNat_eq_self {version : UInt32} {n : ℕ} :
    version + UInt32.ofNat n = version ↔ n % 2 ^ 32 = 0 := by
  rw [← UInt32.toNat_inj, UInt32.toNat_add, UInt32.toNat_ofNat']
  have hlt := version.toNat_lt
  omega

end Versions

section Trail

/-- The slot of a key after the key has died and the slot has been reused so often. -/
def Slot.Reused (key : KeyData) (n : ℕ) : Slot V → Prop
  | ⟨version, .vacant _⟩ => version = key.version + UInt32.ofNat (2 * n + 1)
  | ⟨version, .occupied _⟩ => 0 < n ∧ version = key.version + UInt32.ofNat (2 * n)

def Trail (key : KeyData) (n : ℕ) (map : SlotMap V) : Prop :=
  ∃ slot, map.slots[key.idx.toNat]? = some slot ∧ slot.Reused key n

/-- How many inserts have returned a key of the key's slot. -/
def reuses (key : KeyData) (labels : List (Op V × Except Panic (Response V))) : ℕ :=
  labels.countP fun label =>
    match label.2 with
    | .ok (.key other) => other.idx == key.idx
    | _ => false

variable {key : KeyData} {n : ℕ} {map map' : SlotMap V} {dropPanics : V → Bool}

lemma Slot.Reused.kept {slot slot' : Slot V} (h : slot.Reused key n) (hkept : Kept slot slot') :
    slot'.Reused key n := by
  cases hkept with
  | same => exact h
  | written => exact h
  | emptied version value next =>
    have hversion : version = key.version + UInt32.ofNat (2 * n) := h.2
    change version + 1 = key.version + UInt32.ofNat (2 * n + 1)
    rw [hversion, add_ofNat_succ]

lemma Slot.Reused.fill {version next : UInt32}
    (h : (⟨version, .vacant next⟩ : Slot V).Reused key n) (heven : version.toNat % 2 = 0) :
    version ||| 1 = key.version + UInt32.ofNat (2 * (n + 1)) := by
  have hversion : version = key.version + UInt32.ofNat (2 * n + 1) := h
  rw [or_one_of_even heven, hversion, add_ofNat_succ]
  rfl

/-- One step: a reuse moves the version on by two, and its key tells how often that has
happened. -/
lemma Trail.step (h : Trail key n map) (hchained : Chained map.slots map.freeHead)
    {label : Op V × Except Panic (Response V)}
    (hstep : map.apply dropPanics label.1 = (label.2, map')) :
    Trail key (n + reuses key [label]) map' ∧
      ∀ other, label.2 = .ok (.key other) → other.idx = key.idx →
        other.version = key.version + UInt32.ofNat (2 * (n + 1)) := by
  rcases h with ⟨slot, hslot, hreused⟩
  have hresult : (map.apply dropPanics label.1).1 = label.2 := by rw [hstep]
  have hmap : (map.apply dropPanics label.1).2 = map' := by rw [hstep]
  rcases (apply_cases dropPanics hchained label.1).2 with
    ⟨value, version, next, -, hhead, heq⟩ | ⟨hkeeps, hfresh⟩
  · rw [heq] at hresult hmap
    dsimp only at hresult hmap
    have heven : version.toNat % 2 = 0 := hchained.parity hhead
    by_cases hidx : map.freeHead = key.idx
    · rw [hidx, hslot] at hhead
      cases hhead
      have hversion := hreused.fill heven
      have hcount : reuses key [label] = 1 := by
        unfold reuses
        rw [List.countP_singleton, ← hresult]
        simp [KeyData.new, hidx]
      rw [hcount, ← hmap]
      refine ⟨⟨⟨version ||| 1, .occupied value⟩, ?_, n.succ_pos, hversion⟩, ?_⟩
      · dsimp only
        rw [hidx, getElem?_set_eq hslot, if_pos rfl]
      · intro other hother _
        rw [← hresult] at hother
        cases hother
        rw [KeyData.new_version_of_odd _ (or_one_odd version)]
        exact hversion
    · have hcount : reuses key [label] = 0 := by
        unfold reuses
        rw [List.countP_singleton, ← hresult]
        simp [KeyData.new, hidx]
      rw [hcount, ← hmap]
      refine ⟨⟨slot, ?_, hreused⟩, ?_⟩
      · dsimp only
        rw [getElem?_set_eq hhead, if_neg fun heq => hidx (UInt32.toNat_inj.mp heq)]
        exact hslot
      · intro other hother hother'
        rw [← hresult] at hother
        cases hother
        exact absurd hother' hidx
  · have hnone : ∀ other, label.2 = .ok (.key other) → other.idx ≠ key.idx := by
      intro other hother hidx
      have := hfresh other (hresult.trans hother)
      rw [hidx, hslot] at this
      cases this
    have hcount : reuses key [label] = 0 := by
      unfold reuses
      rw [List.countP_singleton]
      rcases hlabel : label.2 with _ | (other | _ | _ | _)
      · rfl
      · simpa using hnone other hlabel
      · rfl
      · rfl
      · rfl
    rw [hcount]
    rcases hkeeps hslot with ⟨slot', hslot', hkept⟩
    exact ⟨⟨slot', hmap ▸ hslot', hreused.kept hkept⟩,
      fun other hother hidx => absurd hidx (hnone other hother)⟩

lemma reuses_append (key : KeyData) (first second : List (Op V × Except Panic (Response V))) :
    reuses key (first ++ second) = reuses key first + reuses key second :=
  List.countP_append

/-- A whole run: the slot carries the count, and every key of the slot that the run has issued
carries the count of its own reuse. -/
lemma Trail.run {capacity : ℕ} (hreach : (slotMapSystem dropPanics capacity).Reachable map)
    (h : Trail key 0 map) {labels : List (Op V × Except Panic (Response V))}
    (hrun : (slotMapSystem dropPanics capacity).Run map labels map') :
    Trail key (reuses key labels) map' ∧
      ∀ label ∈ labels, ∀ other, label.2 = .ok (.key other) → other.idx = key.idx →
        ∃ m < reuses key labels, other.version = key.version + UInt32.ofNat (2 * (m + 1)) := by
  induction hrun with
  | nil => exact ⟨h, fun _ hmem => absurd hmem List.not_mem_nil⟩
  | @snoc labels label middle last hbefore hlast ih =>
    rcases ih with ⟨htrail, hissued⟩
    have hchained := chained_of_reachable (hbefore.reachable hreach)
    have hstep := htrail.step hchained hlast
    rw [reuses_append]
    refine ⟨hstep.1, fun issuing hmem other hother hidx => ?_⟩
    rcases List.mem_append.mp hmem with hmem | hmem
    · rcases hissued issuing hmem other hother hidx with ⟨m, hm, hversion⟩
      exact ⟨m, by omega, hversion⟩
    · rw [List.mem_singleton] at hmem
      rcases hmem with rfl
      refine ⟨reuses key labels, ?_, hstep.2 other hother hidx⟩
      have hcount : reuses key [issuing] = 1 := by
        unfold reuses
        rw [List.countP_singleton, hother]
        simp [hidx]
      omega

/-- Before the version has wrapped around, the slot does not answer to the key. -/
lemma Trail.get_eq_none (h : Trail key n map) (hn : n < 2 ^ 31) : map.get key = none := by
  rcases h with ⟨⟨version, value | next⟩, hslot, hreused⟩
  · rcases hreused with ⟨hpos, hversion⟩
    unfold SlotMap.get
    rw [hslot, Option.bind_some]
    refine if_neg fun heq => ?_
    rw [hversion, add_ofNat_eq_self] at heq
    omega
  · exact get_eq_none_of_vacant hslot

end Trail

section Life

variable {key : KeyData} {map map' : SlotMap V} {dropPanics : V → Bool}

/-- A key that an insert returns finds the value. -/
lemma get_of_insert (h : Chained map.slots map.freeHead) {value : V}
    (hinsert : map.insert value = (.ok key, map')) : map'.get key = some value := by
  rcases insert_cases h value with ⟨version, next, hslot, heq⟩ | ⟨hslot, index, hindex, heq⟩ |
    ⟨hslot, hindex, heq⟩ <;> rw [hinsert] at heq
  · cases heq
    refine get_eq_some.mpr ?_
    change (map.slots.set map.freeHead.toNat _)[map.freeHead.toNat]? = _
    rw [getElem?_set_eq hslot, if_pos rfl, KeyData.new_version_of_odd _ (or_one_odd version)]
  · cases heq
    refine get_eq_some.mpr ?_
    change (map.slots ++ [_])[index.toNat]? = _
    rw [(pushIndex_eq_some hindex).2, getElem?_push, if_pos rfl]
    rfl
  · cases heq

lemma remove_eq_of_get (h : Chained map.slots map.freeHead) (hnone : map.get key = none) :
    map.remove key = (.ok none, map) := by
  rcases remove_cases h key with ⟨-, heq⟩ | ⟨value, hslot, -⟩
  · exact heq
  · rw [get_eq_some.mpr hslot] at hnone
    cases hnone

/-- Removing a live key empties its slot. -/
lemma trail_of_remove (h : Chained map.slots map.freeHead) {value : V}
    (hlive : map.get key = some value) :
    Trail key 0 (map.remove key).2 ∧ (map.remove key).2.freeHead = key.idx := by
  have hslot := get_eq_some.mp hlive
  have hget := getElem?_set_eq hslot ⟨key.version + 1, .vacant map.freeHead⟩ key.idx.toNat
  rw [if_pos rfl] at hget
  rcases remove_cases h key with ⟨hnone, -⟩ | ⟨value', -, heq⟩
  · rw [hlive] at hnone
    cases hnone
  · rw [heq]
    split_ifs <;> exact ⟨⟨_, hget, rfl⟩, rfl⟩

/-- A key that was found before a step and is not found after it has had its slot emptied. -/
lemma trail_of_death (h : Chained map.slots map.freeHead)
    {label : Op V × Except Panic (Response V)} (hlive : map.get key ≠ none)
    (hstep : map.apply dropPanics label.1 = (label.2, map')) (hdead : map'.get key = none) :
    Trail key 0 map' := by
  rcases Option.ne_none_iff_exists'.mp hlive with ⟨value, hvalue⟩
  have hslot := get_eq_some.mp hvalue
  have hmap : (map.apply dropPanics label.1).2 = map' := by rw [hstep]
  rcases (apply_cases dropPanics h label.1).2 with ⟨_, version, next, -, hhead, heq⟩ | ⟨hkeeps, -⟩
  · -- the slot that is filled was vacant, so it is another one
    rw [heq] at hmap
    have hne : map.freeHead.toNat ≠ key.idx.toNat := by
      intro hidx
      rw [hidx, hslot] at hhead
      cases hhead
    have hsame : map'.get key = map.get key := by
      rw [← hmap]
      apply get_congr
      dsimp only
      rw [getElem?_set_eq hhead, if_neg hne]
    exact absurd (hsame.symm.trans hdead) hlive
  · rcases hkeeps hslot with ⟨slot', hslot', hkept⟩
    rw [hmap] at hslot'
    cases hkept with
    | same => exact absurd (get_eq_some.mpr hslot') (by rw [hdead]; exact fun h => by cases h)
    | written => exact absurd (get_eq_some.mpr hslot') (by rw [hdead]; exact fun h => by cases h)
    | emptied => exact ⟨_, hslot', rfl⟩

/-- `clear` that goes through leaves no key. -/
lemma get_of_clear (dropPanics : V → Bool) (h : Chained map.slots map.freeHead)
    (hclear : map.clear dropPanics = (.ok (), map')) : map'.get key = none := by
  have hemptied := @clearLoop_emptied V dropPanics (List.range' 1 (map.slots.length - 1)) map h
  have hsentinel := clearLoop_vacant dropPanics h (List.range' 1 (map.slots.length - 1)) h.sentinel
  have hlength := @length_clearLoop V dropPanics (List.range' 1 (map.slots.length - 1)) map
  unfold clear at hclear
  generalize clearLoop dropPanics (List.range' 1 (map.slots.length - 1)) map = result
    at hclear hemptied hsentinel hlength
  rcases result with ⟨_ | _, last⟩
  · cases hclear
  · cases hclear
    dsimp only at hemptied hsentinel hlength
    rcases Nat.eq_zero_or_pos key.idx.toNat with hzero | hpos
    · rw [← hzero] at hsentinel
      exact get_eq_none_of_vacant hsentinel
    · rcases Nat.lt_or_ge key.idx.toNat last.slots.length with hlt | hge
      · rcases hemptied rfl key.idx.toNat (List.mem_range'_1.mpr ⟨hpos, by omega⟩) with
          ⟨version, next, hvacant⟩
        exact get_eq_none_of_vacant hvacant
      · unfold SlotMap.get
        rw [List.getElem?_eq_none hge]
        rfl

/-- Only a removal of the key and a clear can take its value away. -/
lemma get_ne_none_of_apply (h : Chained map.slots map.freeHead)
    {label : Op V × Except Panic (Response V)}
    (hstep : map.apply dropPanics label.1 = (label.2, map')) (hlive : map.get key ≠ none)
    (hremove : label.1 ≠ .remove key) (hclear : label.1 ≠ .clear) : map'.get key ≠ none := by
  intro hdead
  have hmap : (map.apply dropPanics label.1).2 = map' := by rw [hstep]
  rcases Option.ne_none_iff_exists'.mp hlive with ⟨value, hvalue⟩
  have hslot := get_eq_some.mp hvalue
  rcases trail_of_death h hlive hstep hdead with ⟨slot, hslot', hreused⟩
  have hwrite : ∀ write : ℕ → V → V, (map.valuesMut write).2.get key ≠ none := by
    intro write
    rw [get_write, hvalue]
    exact fun hnone => by cases hnone
  have hmut : ∀ other (write : V → V), (map.getMut other write).2.get key ≠ none := by
    intro other write
    rw [getMut_eq]
    cases map.get other with
    | none => exact hlive
    | some _ => exact hwrite _
  rcases hop : label.1 with _ | other | _ | _ | ⟨other, write⟩ | write | _ | ⟨other, write⟩ <;>
    rw [hop] at hmap
  case insert inserted =>
    -- the slot that is filled was vacant, and a pushed slot is a new one
    have hslots : map'.slots[key.idx.toNat]? = map.slots[key.idx.toNat]? := by
      rw [← hmap, apply_insert]
      rcases insert_cases h inserted with ⟨version, next, hhead, heq⟩ | ⟨-, index, -, heq⟩ |
        ⟨-, -, heq⟩ <;> rw [heq]
      · have hne : map.freeHead.toNat ≠ key.idx.toNat := by
          intro hidx
          rw [hidx, hslot] at hhead
          cases hhead
        dsimp only
        rw [getElem?_set_eq hhead, if_neg hne]
      · dsimp only
        rw [getElem?_push, if_neg (lt_length_of_getElem?_eq_some hslot).ne]
    rw [get_congr hslots] at hdead
    exact hlive hdead
  case remove =>
    have hne : other ≠ key := fun heq => hremove (by rw [hop, heq])
    have hslots : map'.slots[key.idx.toNat]? = map.slots[key.idx.toNat]? := by
      rw [← hmap, apply_remove]
      rcases remove_cases h other with ⟨-, heq⟩ | ⟨value', hother, heq⟩ <;> rw [heq]
      have hidx : other.idx.toNat ≠ key.idx.toNat := by
        intro hidx
        rw [hidx, hslot] at hother
        injection hother with hother
        injection hother with hversion
        exact hne (KeyData.ext (UInt32.toNat_inj.mp hidx) hversion.symm)
      split_ifs <;> exact (getElem?_set_eq hother _ _).trans (if_neg hidx)
    rw [get_congr hslots] at hdead
    exact hlive hdead
  case clear => exact hclear hop
  case get =>
    have hsame : map = map' := hmap
    exact hlive (hsame ▸ hdead)
  case getMut => exact hmut other write (hmap ▸ hdead)
  case valuesMut => exact hwrite write (hmap ▸ hdead)
  case index =>
    have hsame : map = map' := hmap
    exact hlive (hsame ▸ hdead)
  case indexMut =>
    refine hmut other write ?_
    rw [← indexMut_snd]
    exact hmap ▸ hdead

lemma apply_of_insert (dropPanics : V → Bool) {value : V}
    (hinsert : map.insert value = (.ok key, map')) :
    map.apply dropPanics (.insert value) = (.ok (.key key), map') := by
  rw [apply_insert, hinsert]
  rfl

lemma insert_of_apply {value : V}
    (hstep : map.apply dropPanics (.insert value) = (.ok (.key key), map')) :
    map.insert value = (.ok key, map') := by
  rw [apply_insert] at hstep
  rcases hresult : map.insert value with ⟨_ | issued, filled⟩ <;> rw [hresult] at hstep <;>
    cases hstep
  rfl

/-- With a vacant slot at the free head an insert returns a key of this slot. -/
lemma insert_of_head (h : Chained map.slots map.freeHead) {version next : UInt32}
    (hslot : map.slots[map.freeHead.toNat]? = some ⟨version, .vacant next⟩) (value : V) :
    ∃ issued map', issued.idx = map.freeHead ∧ map.insert value = (.ok issued, map') := by
  rcases insert_cases h value with ⟨version', next', -, heq⟩ | ⟨hnone, -⟩ | ⟨hnone, -⟩
  · exact ⟨_, _, rfl, heq⟩
  · rw [hslot] at hnone
    cases hnone
  · rw [hslot] at hnone
    cases hnone

/-- Alternating inserts and removals reuse the slot at the free head as often as wanted. -/
lemma exists_reuses {capacity : ℕ} (value : V)
    (hreach : (slotMapSystem dropPanics capacity).Reachable map) (htrail : Trail key 0 map)
    (hhead : map.freeHead = key.idx) (n : ℕ) :
    ∃ labels map', (slotMapSystem dropPanics capacity).Run map labels map' ∧
      reuses key labels = n ∧ map'.freeHead = key.idx ∧
      ∃ version next, map'.slots[key.idx.toNat]? = some ⟨version, .vacant next⟩ := by
  induction n with
  | zero =>
    rcases htrail with ⟨⟨version, _ | next⟩, hslot, hreused⟩
    · exact absurd hreused.1 (Nat.lt_irrefl 0)
    · exact ⟨[], map, .nil, rfl, hhead, version, next, hslot⟩
  | succ n ih =>
    rcases ih with ⟨labels, last, hrun, hcount, hlast, version, next, hslot⟩
    have hchained := chained_of_reachable (hrun.reachable hreach)
    rw [← hlast] at hslot
    rcases insert_of_head hchained hslot value with ⟨issued, filled, hidx, hinsert⟩
    rw [hlast] at hidx
    have hstep : (slotMapSystem dropPanics capacity).step last
        (.insert value, .ok (.key issued)) filled := apply_of_insert dropPanics hinsert
    have hrun' := hrun.snoc hstep
    have hlive := get_of_insert hchained hinsert
    have hremoved := trail_of_remove (chained_of_reachable (hrun'.reachable hreach)) hlive
    have hremove : (slotMapSystem dropPanics capacity).step filled
        (.remove issued, (filled.remove issued).1.map .value) (filled.remove issued).2 := rfl
    refine ⟨_, _, hrun'.snoc hremove, ?_, hremoved.2.trans hidx, ?_⟩
    · rw [reuses_append, reuses_append, hcount]
      have hone : reuses key [((.insert value, .ok (.key issued)) :
          Op V × Except Panic (Response V))] = 1 := by
        unfold reuses
        rw [List.countP_singleton]
        simp [hidx]
      have hzero : reuses key [((.remove issued, (filled.remove issued).1.map .value) :
          Op V × Except Panic (Response V))] = 0 := by
        unfold reuses
        rw [List.countP_singleton]
        rcases (filled.remove issued).1 <;> rfl
      rw [hone, hzero]
    · rw [← hidx]
      rcases hremoved.1 with ⟨⟨version, _ | next⟩, hslot, hreused⟩
      · exact absurd hreused.1 (Nat.lt_irrefl 0)
      · exact ⟨version, next, hslot⟩

/-- After its removal or a clear a key finds nothing. -/
lemma get_of_killed (h : Chained map.slots map.freeHead)
    {label : Op V × Except Panic (Response V)}
    (hstep : map.apply dropPanics label.1 = (label.2, map'))
    (hkill : label.1 = .remove key ∨ label = (.clear, .ok .unit)) : map'.get key = none := by
  rcases hkill with hremove | rfl
  · have hmap : (map.apply dropPanics label.1).2 = map' := congrArg Prod.snd hstep
    rw [hremove, apply_remove] at hmap
    rw [← hmap]
    rcases hfound : map.get key with _ | value
    · rw [remove_eq_of_get h hfound]
      exact hfound
    · exact (trail_of_remove h hfound).1.get_eq_none (by decide)
  · rw [apply_clear] at hstep
    refine get_of_clear dropPanics h ?_
    rcases hresult : map.clear dropPanics with ⟨_ | _, cleared⟩ <;> rw [hresult] at hstep <;>
      cases hstep
    rfl

section Reuse

variable {capacity : ℕ} {later : List (Op V × Except Panic (Response V))} {last last' : SlotMap V}

/-- With few reuses the key finds nothing, and no insert has returned it. -/
lemma Trail.dead (htrail : Trail key 0 map)
    (hreach : (slotMapSystem dropPanics capacity).Reachable map)
    (hrun : (slotMapSystem dropPanics capacity).Run map later last)
    (hfew : reuses key later < 2 ^ 31) :
    last.get key = none ∧ (∀ write, last.getMut key write = (none, last)) ∧
      last.remove key = (.ok none, last) ∧ ∀ other ∈ later, other.2 ≠ .ok (.key key) := by
  rcases htrail.run hreach hrun with ⟨hlast, hissued⟩
  have hnone := hlast.get_eq_none hfew
  refine ⟨hnone, fun write => ?_, remove_eq_of_get (chained_of_reachable (hrun.reachable hreach))
    hnone, fun other hmem heq => ?_⟩
  · rw [getMut_eq, hnone]
  · rcases hissued other hmem key heq rfl with ⟨m, hm, hversion⟩
    have := add_ofNat_eq_self.mp hversion.symm
    omega

/-- The version has wrapped around with the last of these reuses. -/
lemma Trail.reissued (htrail : Trail key 0 map)
    (hreach : (slotMapSystem dropPanics capacity).Reachable map)
    (hrun : (slotMapSystem dropPanics capacity).Run map later last)
    (hcount : reuses key later = 2 ^ 31 - 1) {value : V} {other : KeyData}
    (hstep : (slotMapSystem dropPanics capacity).step last (.insert value, .ok (.key other)) last')
    (hidx : other.idx = key.idx) : other = key := by
  have hlast := (htrail.run hreach hrun).1
  have hversion :=
    (hlast.step (chained_of_reachable (hrun.reachable hreach)) hstep).2 other rfl hidx
  refine KeyData.ext hidx (hversion.trans (add_ofNat_eq_self.mpr ?_))
  omega

/-- From the removal of a live key on, some run returns the key again. -/
lemma exists_reissue (hreach : (slotMapSystem dropPanics capacity).Reachable map)
    (hlive : map.get key ≠ none) (value : V) :
    ∃ later last last', (slotMapSystem dropPanics capacity).Run (map.remove key).2 later last ∧
      reuses key later = 2 ^ 31 - 1 ∧
      (slotMapSystem dropPanics capacity).step last (.insert value, .ok (.key key)) last' := by
  rcases Option.ne_none_iff_exists'.mp hlive with ⟨found, hfound⟩
  have hremoved := trail_of_remove (chained_of_reachable hreach) hfound
  have hremove : (slotMapSystem dropPanics capacity).step map
      (.remove key, (map.remove key).1.map .value) (map.remove key).2 := rfl
  have hreach' := hreach.step hremove
  rcases exists_reuses value hreach' hremoved.1 hremoved.2 (2 ^ 31 - 1) with
    ⟨later, last, hrun, hcount, hhead, version, next, hslot⟩
  rw [← hhead] at hslot
  rcases insert_of_head (chained_of_reachable (hrun.reachable hreach')) hslot value with
    ⟨issued, last', hidx, hinsert⟩
  have hstep : (slotMapSystem dropPanics capacity).step last
      (.insert value, .ok (.key issued)) last' := apply_of_insert dropPanics hinsert
  have hkey : issued = key :=
    hremoved.1.reissued hreach' hrun hcount hstep (hidx.trans hhead)
  rw [hkey] at hstep
  exact ⟨later, last, last', hrun, hcount, hstep⟩

end Reuse

end Life

/-- The life of a key in the runs of a map. -/
structure StaysDead (dropPanics : V → Bool) (capacity : ℕ) (key : KeyData) : Prop where
  /-- A key that an insert returns finds the value. -/
  issued : ∀ map value map', (slotMapSystem dropPanics capacity).Reachable map →
    (slotMapSystem dropPanics capacity).step map (.insert value, .ok (.key key)) map' →
    map'.get key = some value
  /-- It goes on finding a value up to its removal or a clear. -/
  kept : ∀ map label map', (slotMapSystem dropPanics capacity).Reachable map →
    (slotMapSystem dropPanics capacity).step map label map' → map.get key ≠ none →
    label.1 ≠ .remove key → label.1 ≠ .clear → map'.get key ≠ none
  /-- After these it finds nothing. -/
  killed : ∀ map label map', (slotMapSystem dropPanics capacity).Reachable map →
    (slotMapSystem dropPanics capacity).step map label map' →
    label.1 = .remove key ∨ label = (.clear, .ok .unit) → map'.get key = none
  /-- While fewer than `2 ^ 31` inserts have reused its slot since, it finds nothing and no insert
  has returned it. -/
  dead : ∀ map label map' later last, (slotMapSystem dropPanics capacity).Reachable map →
    (slotMapSystem dropPanics capacity).step map label map' → map.get key ≠ none →
    map'.get key = none → (slotMapSystem dropPanics capacity).Run map' later last →
    reuses key later < 2 ^ 31 →
    last.get key = none ∧ (∀ write, last.getMut key write = (none, last)) ∧
      last.remove key = (.ok none, last) ∧ ∀ other ∈ later, other.2 ≠ .ok (.key key)
  /-- The reuse after `2 ^ 31 - 1` others returns it. -/
  reissued : ∀ map label map' later last value other last',
    (slotMapSystem dropPanics capacity).Reachable map →
    (slotMapSystem dropPanics capacity).step map label map' → map.get key ≠ none →
    map'.get key = none → (slotMapSystem dropPanics capacity).Run map' later last →
    reuses key later = 2 ^ 31 - 1 →
    (slotMapSystem dropPanics capacity).step last (.insert value, .ok (.key other)) last' →
    other.idx = key.idx → other = key
  /-- Such a run exists for every live key. -/
  reached : ∀ map value, (slotMapSystem dropPanics capacity).Reachable map → map.get key ≠ none →
    ∃ later last last', (slotMapSystem dropPanics capacity).Run (map.remove key).2 later last ∧
      reuses key later = 2 ^ 31 - 1 ∧
      (slotMapSystem dropPanics capacity).step last (.insert value, .ok (.key key)) last'

/-- A stale key stays dead until its slot has been reused `2 ^ 31` times, and no longer. -/
theorem stale_keys_stay_dead (dropPanics : V → Bool) (capacity : ℕ) (key : KeyData) :
    StaysDead dropPanics capacity key := by
  constructor
  case issued =>
    intro map value map' hreach hstep
    exact get_of_insert (chained_of_reachable hreach) (insert_of_apply hstep)
  case kept =>
    intro map label map' hreach hstep hlive
    exact get_ne_none_of_apply (chained_of_reachable hreach) hstep hlive
  case killed =>
    intro map label map' hreach hstep hkill
    exact get_of_killed (chained_of_reachable hreach) hstep hkill
  case dead =>
    intro map label map' later last hreach hstep hlive hdead hrun hfew
    have htrail := trail_of_death (chained_of_reachable hreach) hlive hstep hdead
    exact htrail.dead (hreach.step hstep) hrun hfew
  case reissued =>
    intro map label map' later last value other last' hreach hstep hlive hdead hrun hcount hissue
    have htrail := trail_of_death (chained_of_reachable hreach) hlive hstep hdead
    exact htrail.reissued (hreach.step hstep) hrun hcount hissue
  case reached =>
    intro map value hreach hlive
    exact exists_reissue hreach hlive value

end DoomFishUtils.SlotMap
