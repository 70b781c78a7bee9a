import DoomFishUtils.Spsc.Steps

/-!
# Every access keeps the invariant

The program points one by one: a claim takes a free or full slot, a holder accesses the
value of its slot, and the store of the stamp lets the slot go. The invariant then holds
in every state that any interleaving reaches.
-/

namespace DoomFishUtils.Spsc
set_option autoImplicit false
open Library

section

variable {ι T : Type*} [DecidableEq ι] {capacity : ℕ} {s : Threads ι T} {r w : ℕ}
  {phase : ℕ → Phase ι}

/-! ### Claims -/

/-- A plain push claims the write position it has loaded. -/
lemma Inv.access_claim_write (hcap : 0 < capacity) (h : Inv capacity s r w phase) {t : ι}
    {item : T} {overwrite : Bool} {position : ℕ}
    (hpc : s.pc t = .pushCasWrite item overwrite position) (hcas : s.ring.write = position) :
    Inv capacity (s.access t false) r (w + 1)
      (Function.update phase (w % capacity) (.writing w t false)) := by
  have hbefore : (s.pc t).holding = false := by rw [hpc]; rfl
  obtain ⟨v, -, rfl, hstamp⟩ : ∃ v ≤ w, position = cursor capacity v ∧
      StampGe s.ring.slots (v % capacity) (cursor capacity v) := by
    have := h.ownPc t
    rwa [hpc] at this
  obtain rfl : w = v := (cursor_inj hcap).mp (h.write.symm.trans hcas)
  obtain ⟨hfree, hlen⟩ := h.phase_free hcap hstamp
  obtain ⟨slot, hslot, hs⟩ := h.slot_at (Nat.mod_lt w hcap)
  rw [hfree] at hs
  obtain ⟨-, -, hlt, rfl⟩ := hs
  have hadv : s.ring.advance false (s.pc t) =
      ({ s.ring with write := s.ring.next (cursor capacity w) },
        .pushWriteValue item (cursor capacity w), [.accepted item]) := by
    simp [hpc, Ring.advance, hcas]
  rw [Threads.access_eq hadv]
  have horder := h.order
  have hnext := Ring.next_cursor hcap h.shaped w
  refine h.change hcap _ (Nat.mod_lt w hcap) (by simp [hfree, Phase.holder]) (fun _ => hbefore)
    (by simp [Phase.holder]) (by simp [Phase.holder]) ⟨h.shaped.length, h.shaped.lap⟩ h.read hnext
    ⟨.inl rfl, .inr ⟨rfl, rfl⟩, .inr ⟨item, rfl, hlen, rfl⟩⟩
    (by simpa [List.filterMap_cons] using h.claims) (by omega)
    (by simp; omega) (.inl (by simp [hlen]))
    (fun _ _ => rfl) ?slot (fun _ hn => hn) ?holder trivial (by simp [List.filterMap_cons]) ?handed
  case slot =>
    intro slot' hs'
    obtain rfl := Option.some.inj (hslot.symm.trans hs')
    exact ⟨rfl, horder, by simp [hlen], rfl⟩
  case holder =>
    exact ⟨item, by simp [← hlen], by simp⟩
  case handed =>
    intro v hv
    rw [List.filterMap_cons_none rfl, List.filterMap_nil, List.append_nil]
    exact h.handed_keep _ _ (by rw [hfree]; rfl) v hv

/-- A pop claims the read position it has loaded. -/
lemma Inv.access_claim_read (hcap : 0 < capacity) (h : Inv capacity s r w phase) {t : ι}
    {position : ℕ} (hpc : s.pc t = .popCasRead position) (hcas : s.ring.read = position) :
    Inv capacity (s.access t false) (r + 1) w
      (Function.update phase (r % capacity) (.reading r t false)) := by
  have hbefore : (s.pc t).holding = false := by rw [hpc]; rfl
  obtain ⟨v, -, rfl, hstamp⟩ : ∃ v ≤ r, position = cursor capacity v ∧
      StampGe s.ring.slots (v % capacity) (cursor capacity v + 1) := by
    have := h.ownPc t
    rwa [hpc] at this
  obtain ⟨rfl, hfull, slot, hslot, -, -, hlt, rfl⟩ := h.claimable hcap hcas hstamp
  have hadv : s.ring.advance false (s.pc t) =
      ({ s.ring with read := s.ring.next (cursor capacity r) },
        .popReadValue (cursor capacity r), [.claimed (cursor capacity r)]) := by
    simp [hpc, Ring.advance, hcas]
  rw [Threads.access_eq hadv]
  have hbound := h.bound
  have hrw : r + 1 ≤ w := by
    rcases h.window with he | ⟨he, -⟩
    · omega
    · obtain ⟨v, u, hp⟩ := h.window_phase he
      by_contra hge
      have hrw : r = w := le_antisymm h.order (by omega)
      rw [← hrw, hfull] at hp
      cases hp
  refine h.change hcap _ (Nat.mod_lt r hcap) (by simp [hfull, Phase.holder]) (fun _ => hbefore)
    (by simp [Phase.holder]) (by simp [Phase.holder]) ⟨h.shaped.length, h.shaped.lap⟩
    (Ring.next_cursor hcap h.shaped r) h.write
    ⟨.inr ⟨rfl, rfl⟩, .inl rfl, .inl (by simp)⟩
    (by simp [h.claims, List.range_succ]) hrw
    (by simp [List.filterMap_cons]; omega) ?window (fun _ _ => rfl) ?slot (fun _ hn => hn) ?holder
    trivial (by simp [List.filterMap_cons]) ?handed
  case window =>
    rw [List.filterMap_cons_none rfl, List.filterMap_nil, List.append_nil]
    refine h.window.imp_right ?_
    rintro ⟨he, i, hi, v, u, hp⟩
    refine ⟨he, i, hi, v, u, ?_⟩
    have hir : i ≠ r % capacity := by
      rintro rfl
      cases hfull.symm.trans hp
    rw [Function.update_of_ne hir, hp]
  case slot =>
    intro slot' hs'
    obtain rfl := Option.some.inj (hslot.symm.trans hs')
    exact ⟨rfl, by omega, by simp [List.filterMap_cons]; omega, by simp [List.filterMap_cons]⟩
  case holder =>
    show Function.update s.pc t _ t = _
    simp
  case handed =>
    intro v hv
    rw [List.filterMap_cons_none rfl, List.filterMap_nil, List.append_nil]
    exact h.handed_claim hfull rfl v hv

/-- An overwrite claims the read position of the oldest item, and with it its own write
position: the ring was full. -/
lemma Inv.access_claim_both (hcap : 0 < capacity) (h : Inv capacity s r w phase) {t : ι}
    (spurious : Bool) {item : T} {position oldest : ℕ}
    (hpc : s.pc t = .pushCasRead item position oldest) (hcas : s.ring.read = oldest) :
    s.accepted.length = r + capacity ∧ Inv capacity (s.access t spurious) (r + 1) w
      (Function.update phase (r % capacity) (.replacing r t .claimed)) := by
  have hbefore : (s.pc t).holding = false := by rw [hpc]; rfl
  obtain ⟨v, hv, rfl, rfl, hstamp⟩ : ∃ v, v + capacity ≤ w ∧
      position = cursor capacity (v + capacity) ∧ oldest = cursor capacity v ∧
        StampGe s.ring.slots (v % capacity) (cursor capacity v + 1) := by
    have := h.ownPc t
    rwa [hpc] at this
  obtain ⟨rfl, hfull, slot, hslot, -, -, hlt, rfl⟩ := h.claimable hcap hcas hstamp
  have hbound := h.bound
  have hle := h.write_le_accepted
  have hlen : s.accepted.length = w := by omega
  have hw : w = r + capacity := by omega
  have hadv : s.ring.advance spurious (s.pc t) =
      ({ s.ring with read := s.ring.next (cursor capacity r) },
        .pushStoreWrite item (cursor capacity (r + capacity)),
        [.claimed (cursor capacity r), .accepted item]) := by
    simp [hpc, Ring.advance, hcas]
  rw [Threads.access_eq hadv]
  refine ⟨by omega, h.change hcap _ (Nat.mod_lt r hcap) (by simp [hfull, Phase.holder])
    (fun _ => hbefore) (by simp [Phase.holder]) (by simp [Phase.holder])
    ⟨h.shaped.length, h.shaped.lap⟩ (Ring.next_cursor hcap h.shaped r) h.write
    ⟨.inr ⟨rfl, rfl⟩, .inl rfl, .inr ⟨item, rfl, hlen, by rw [hw, Nat.add_mod_right]⟩⟩
    (by simp [List.filterMap_cons, h.claims, List.range_succ]) (by omega)
    (by simp [List.filterMap_cons]; omega) ?window (fun _ _ => rfl) ?slot (fun _ hn => hn) ?holder
    trivial (by simp [List.filterMap_cons]) ?handed⟩
  case window =>
    exact .inr ⟨by simp [List.filterMap_cons, hlen], _, Nat.mod_lt r hcap, r, t, by simp⟩
  case slot =>
    intro slot' hs'
    obtain rfl := Option.some.inj (hslot.symm.trans hs')
    have hget : (s.accepted ++ [item])[r]? = s.accepted[r]? := List.getElem?_append_left hlt
    refine ⟨rfl, by omega, by omega, by simp [List.filterMap_cons]; omega, ?_, ?_⟩
    · simp [List.filterMap_cons, hget]
    · exact fun _ => ⟨hw.symm, by simp [List.filterMap_cons, hlen]⟩
  case holder =>
    have hget : (s.accepted ++ [item])[r + capacity]? = some item := by
      rw [← hw, ← hlen]
      simp
    exact ⟨item, hget, by simp⟩
  case handed =>
    intro v hv
    rw [List.filterMap_cons_none rfl, List.filterMap_cons_none rfl, List.filterMap_nil,
      List.append_nil]
    exact h.handed_claim hfull rfl v hv

/-! ### Accesses to a held slot -/

/-- A step of a holder at its own slot that claims nothing and returns nothing. -/
lemma Inv.progress (hcap : 0 < capacity) (h : Inv capacity s r w phase) {t : ι} {i w' : ℕ}
    {spurious : Bool} (pc' : Pc T) (ring' : Ring T) (new : Phase ι) (hi : i < capacity)
    (hheld : (phase i).holder = some t) (hnew : new.holder = some t)
    (hclaim : new.readClaim = (phase i).readClaim)
    (hadv : s.ring.advance spurious (s.pc t) = (ring', pc', []))
    (hshaped : ring'.Shaped capacity) (hread : ring'.read = s.ring.read)
    (hwrite : ring'.write = cursor capacity w') (hw : w' = w ∨ w' = w + 1 ∧ w % capacity = i)
    (hwindow : s.accepted.length = w' ∨ s.accepted.length = w' + 1 ∧
        ∃ j < capacity, ∃ v u, Function.update phase i new j = .replacing v u .claimed)
    (hother : ∀ j, j ≠ i → ring'.slots[j]? = s.ring.slots[j]?)
    (hslot : ∀ slot, ring'.slots[i]? = some slot → SlotOk capacity r w' s.accepted i slot new)
    (hstamp : ∀ n, StampGe s.ring.slots i n → StampGe ring'.slots i n)
    (hholder : HolderOk capacity s.accepted (Function.update s.pc t pc') new)
    (hlocal : LocalOk capacity r w' ring'.slots pc') :
    Inv capacity (s.access t spurious) r w' (Function.update phase i new) := by
  rw [Threads.access_eq hadv]
  have hmine : ∀ (phase : Phase ι) u, phase.holder = some t → phase.holder = some u → u = t :=
    fun phase u ht hu => Option.some.inj (hu.symm.trans ht)
  have horder : r ≤ w' := by
    have := h.order
    omega
  have hempty : s.accepted ++ ([] : List (Event T)).filterMap Event.accepted? = s.accepted := by simp
  refine h.change hcap _ hi (fun u => hmine _ u hheld) (by simp [hheld]) (fun u => hmine _ u hnew)
    (fun _ => hnew) hshaped (hread.trans h.read) hwrite ⟨.inl rfl, hw, .inl hempty⟩
    (by simpa using h.claims) horder (by simpa using h.bound) (by rw [hempty]; exact hwindow)
    hother (by rw [hempty]; exact hslot) hstamp (by rw [hempty]; exact hholder) hlocal
    (by simp) (fun v hv => ?_)
  rw [List.filterMap_nil, List.append_nil]
  exact h.handed_keep _ [] hclaim v hv

omit [DecidableEq ι] in
/-- No other slot is between the claim and the store of an overwrite when this one moves on
to a phase that is not, so the window is as it was. -/
lemma Inv.window_update (h : Inv capacity s r w phase) {i : ℕ} {new : Phase ι}
    (hold : ∀ v t, phase i ≠ .replacing v t .claimed) :
    s.accepted.length = w ∨ s.accepted.length = w + 1 ∧
      ∃ j < capacity, ∃ v u, Function.update phase i new j = .replacing v u .claimed := by
  refine h.window.imp_right (fun ⟨he, j, hj, v, u, hp⟩ => ⟨he, j, hj, v, u, ?_⟩)
  have hji : j ≠ i := by
    rintro rfl
    exact hold v u hp
  rw [Function.update_of_ne hji, hp]

/-- The value of one slot is replaced; its stamp and the other slots stay. -/
lemma setValue_frame (hcap : 0 < capacity) {ring : Ring T} (hr : ring.Shaped capacity) (v : ℕ)
    (value : Option T) :
    (∀ j, j ≠ v % capacity →
      (ring.setValue (cursor capacity v) value).slots[j]? = ring.slots[j]?) ∧
    (∀ n, StampGe ring.slots (v % capacity) n →
      StampGe (ring.setValue (cursor capacity v) value).slots (v % capacity) n) := by
  constructor
  · intro j hj
    rw [Ring.getElem?_setValue hcap hr, if_neg (Ne.symm hj)]
  · intro n hn slot hs
    rw [Ring.getElem?_setValue hcap hr, if_pos rfl, Option.map_eq_some_iff] at hs
    obtain ⟨before, hb, rfl⟩ := hs
    exact hn before hb

lemma Inv.access_pushWriteValue (hcap : 0 < capacity) (h : Inv capacity s r w phase) {t : ι}
    {spurious : Bool} {item : T} {position : ℕ} (hpc : s.pc t = .pushWriteValue item position) :
    ∃ phase', Inv capacity (s.access t spurious) r w phase' := by
  have hholding := h.holding (t := t) (by rw [hpc]; rfl)
  rw [hpc] at hholding
  cases hholding with
  | writing v item hp hitem =>
    have hi : v % capacity < capacity := Nat.mod_lt v hcap
    obtain ⟨slot, hslot, hs⟩ := h.slot_at hi
    rw [hp] at hs
    obtain ⟨-, hge, hlt, rfl⟩ := hs
    have hframe := setValue_frame hcap h.shaped v (some item)
    refine ⟨_, h.progress hcap (.pushStoreStamp (cursor capacity v) none) _ (.writing v t true) hi
      (by rw [hp]; rfl) rfl (by rw [hp]; rfl) (by rw [hpc]; rfl) (h.shaped.setValue _ _) rfl h.write
      (.inl rfl)
      (h.window_update (by simp [hp])) hframe.1 ?slot hframe.2 ?holder trivial⟩
    case slot =>
      intro slot' hs'
      rw [Ring.getElem?_setValue hcap h.shaped, if_pos rfl, hslot] at hs'
      obtain rfl := Option.some.inj hs'
      exact ⟨rfl, hge, hlt, by simp [hitem]⟩
    case holder =>
      show Function.update s.pc t _ t = _
      simp

lemma Inv.access_popReadValue (hcap : 0 < capacity) (h : Inv capacity s r w phase) {t : ι}
    {spurious : Bool} {position : ℕ} (hpc : s.pc t = .popReadValue position) :
    ∃ phase', Inv capacity (s.access t spurious) r w phase' := by
  have hholding := h.holding (t := t) (by rw [hpc]; rfl)
  rw [hpc] at hholding
  cases hholding with
  | reading v hp =>
    have hi : v % capacity < capacity := Nat.mod_lt v hcap
    obtain ⟨slot, hslot, hs⟩ := h.slot_at hi
    rw [hp] at hs
    obtain ⟨-, hlt, hge, rfl⟩ := hs
    have hle := h.write_le_accepted
    have horder := h.order
    obtain ⟨item, hitem⟩ : ∃ item, s.accepted[v]? = some item :=
      ⟨_, List.getElem?_eq_getElem (by omega)⟩
    have hframe := setValue_frame hcap h.shaped v none
    have hload : (s.ring.slot (cursor capacity v)).bind Slot.value = some item := by
      rw [Ring.slot_cursor hcap h.shaped, hslot]
      exact hitem
    refine ⟨_, h.progress hcap (.popStoreStamp (cursor capacity v) item) _ (.reading v t true) hi
      (by rw [hp]; rfl) rfl (by rw [hp]; rfl)
      (by simp [hpc, Ring.advance, hload]) (h.shaped.setValue _ _) rfl h.write (.inl rfl)
      (h.window_update (by simp [hp])) hframe.1 ?slot hframe.2 ?holder trivial⟩
    case slot =>
      intro slot' hs'
      rw [Ring.getElem?_setValue hcap h.shaped, if_pos rfl, hslot] at hs'
      obtain rfl := Option.some.inj hs'
      exact ⟨rfl, hlt, hge, rfl⟩
    case holder => exact ⟨item, hitem, by simp⟩

lemma Inv.access_pushStoreWrite (hcap : 0 < capacity) (h : Inv capacity s r w phase) {t : ι}
    {spurious : Bool} {item : T} {position : ℕ} (hpc : s.pc t = .pushStoreWrite item position) :
    ∃ phase', Inv capacity (s.access t spurious) r (w + 1) phase' := by
  have hholding := h.holding (t := t) (by rw [hpc]; rfl)
  rw [hpc] at hholding
  cases hholding with
  | claimed v item hp hitem =>
    have hi : v % capacity < capacity := Nat.mod_lt v hcap
    obtain ⟨slot, hslot, hs⟩ := h.slot_at hi
    rw [hp] at hs
    obtain ⟨-, hlt, hge, hlt', rfl, hclaimed⟩ := hs
    obtain ⟨hw, hlen⟩ := hclaimed rfl
    refine ⟨_, h.progress hcap (.pushReplace item (cursor capacity (v + capacity)))
      { s.ring with write := s.ring.next (cursor capacity (v + capacity)) }
      (.replacing v t .published) hi (by rw [hp]; rfl) rfl (by rw [hp]; rfl)
      (by rw [hpc]; rfl) ⟨h.shaped.length, h.shaped.lap⟩ rfl
      (by rw [← hw]; exact Ring.next_cursor hcap h.shaped _)
      (.inr ⟨rfl, by rw [← hw, Nat.add_mod_right]⟩) (.inl hlen) (fun _ _ => rfl) ?slot
      (fun _ hn => hn) ?holder trivial⟩
    case slot =>
      intro slot' hs'
      obtain rfl := Option.some.inj (hslot.symm.trans hs')
      exact ⟨rfl, hlt, hge, hlt', by simp, by simp⟩
    case holder => exact ⟨item, hitem, by simp⟩

lemma Inv.access_pushReplace (hcap : 0 < capacity) (h : Inv capacity s r w phase) {t : ι}
    {spurious : Bool} {item : T} {position : ℕ} (hpc : s.pc t = .pushReplace item position) :
    ∃ phase', Inv capacity (s.access t spurious) r w phase' := by
  have hholding := h.holding (t := t) (by rw [hpc]; rfl)
  rw [hpc] at hholding
  cases hholding with
  | published v item hp hitem =>
    have hi : v % capacity < capacity := Nat.mod_lt v hcap
    have hmod : (v + capacity) % capacity = v % capacity := Nat.add_mod_right v capacity
    obtain ⟨slot, hslot, hs⟩ := h.slot_at hi
    rw [hp] at hs
    obtain ⟨-, hlt, hge, hlt', rfl, -⟩ := hs
    obtain ⟨old, hold⟩ : ∃ old, s.accepted[v]? = some old :=
      ⟨_, List.getElem?_eq_getElem (by omega)⟩
    have hframe := setValue_frame hcap h.shaped (v + capacity) (some item)
    rw [hmod] at hframe
    have hload : (s.ring.slot (cursor capacity (v + capacity))).bind Slot.value = some old := by
      rw [Ring.slot_cursor hcap h.shaped, hmod, hslot]
      simpa using hold
    refine ⟨_, h.progress hcap (.pushStoreStamp (cursor capacity (v + capacity)) (some old)) _
      (.replacing v t .replaced) hi (by rw [hp]; rfl) rfl (by rw [hp]; rfl)
      (by simp [hpc, Ring.advance, hload]) (h.shaped.setValue _ _) rfl h.write (.inl rfl)
      (h.window_update (by simp [hp])) hframe.1 ?slot hframe.2 ?holder trivial⟩
    case slot =>
      intro slot' hs'
      rw [Ring.getElem?_setValue hcap h.shaped, if_pos hmod, hslot] at hs'
      obtain rfl := Option.some.inj hs'
      exact ⟨rfl, hlt, hge, hlt', by simp [hitem], by simp⟩
    case holder => exact ⟨old, hold, by simp⟩

/-! ### Stamps: a holder lets go -/

/-- The stamp of one slot is raised; the other slots stay. -/
lemma setStamp_frame (hcap : 0 < capacity) {ring : Ring T} (hr : ring.Shaped capacity) {v : ℕ}
    {stamp : ℕ} {slot : Slot T} (hslot : ring.slots[v % capacity]? = some slot)
    (hle : slot.stamp ≤ stamp) :
    (∀ j, j ≠ v % capacity →
      (ring.setStamp (cursor capacity v) stamp).slots[j]? = ring.slots[j]?) ∧
    (∀ n, StampGe ring.slots (v % capacity) n →
      StampGe (ring.setStamp (cursor capacity v) stamp).slots (v % capacity) n) := by
  constructor
  · intro j hj
    rw [Ring.getElem?_setStamp hcap hr, if_neg (Ne.symm hj)]
  · intro n hn slot' hs
    rw [Ring.getElem?_setStamp hcap hr, if_pos rfl, hslot] at hs
    obtain rfl := Option.some.inj hs
    exact (hn slot hslot).trans hle

/-- A step of a holder that stores the stamp of its slot `i` and returns. -/
lemma Inv.release (hcap : 0 < capacity) (h : Inv capacity s r w phase) {t : ι} {i : ℕ}
    {spurious : Bool} {ring' : Ring T} (new : Phase ι) (answer : Answer T) (hi : i < capacity)
    (hheld : (phase i).holder = some t) (hnew : new.holder = none)
    (hadv : s.ring.advance spurious (s.pc t) = (ring', .idle, [.returned answer]))
    (hshaped : ring'.Shaped capacity) (hread : ring'.read = s.ring.read)
    (hwrite : ring'.write = s.ring.write) (hold : ∀ v t, phase i ≠ .replacing v t .claimed)
    (hother : ∀ j, j ≠ i → ring'.slots[j]? = s.ring.slots[j]?)
    (hslot : ∀ slot, ring'.slots[i]? = some slot → SlotOk capacity r w s.accepted i slot new)
    (hstamp : ∀ n, StampGe s.ring.slots i n → StampGe ring'.slots i n)
    (hout : ∀ position, (Event.returned answer).handedOut? position ≠ none →
      ∃ v, v % capacity = i ∧ position = cursor capacity v)
    (hhanded : ∀ v, v % capacity = i → s.handedOut (cursor capacity v) ++
        ((Event.returned answer).handedOut? (cursor capacity v)).toList =
      if v < r ∧ new.readClaim ≠ some v then s.accepted[v]?.toList else []) :
    ∃ phase', Inv capacity (s.access t spurious) r w phase' := by
  rw [Threads.access_eq hadv]
  have hkeep : s.accepted ++ [Event.returned answer].filterMap Event.accepted? = s.accepted := by
    simp [List.filterMap_cons]
  have hfilter : ∀ position, [Event.returned answer].filterMap (Event.handedOut? position) =
      ((Event.returned answer).handedOut? position).toList := by
    intro position
    cases he : (Event.returned answer).handedOut? position <;> simp [he]
  have hholder : HolderOk capacity s.accepted (Function.update s.pc t .idle) new := by
    cases new with
    | free | full => trivial
    | writing | reading | replacing => simp [Phase.holder] at hnew
  refine ⟨_, h.change hcap new hi
    (fun u hu => Option.some.inj (hu.symm.trans hheld)) (by simp [hheld]) (by simp [hnew])
    (by simp [Pc.holding]) hshaped (hread.trans h.read) (hwrite.trans h.write)
    ⟨.inl rfl, .inl rfl, .inl hkeep⟩ (by simpa [List.filterMap_cons] using h.claims) h.order
    (by rw [hkeep]; exact h.bound) (by rw [hkeep]; exact h.window_update hold) hother
    (by rw [hkeep]; exact hslot) hstamp (by rw [hkeep]; exact hholder) trivial ?_ ?_⟩
  · intro position hp
    rw [hfilter] at hp
    exact hout position (by intro hn; simp [hn] at hp)
  · intro v hv
    rw [hkeep, hfilter]
    exact hhanded v hv

lemma Inv.access_pushStoreStamp (hcap : 0 < capacity) (h : Inv capacity s r w phase) {t : ι}
    {spurious : Bool} {position : ℕ} {displaced : Option T}
    (hpc : s.pc t = .pushStoreStamp position displaced) :
    ∃ phase', Inv capacity (s.access t spurious) r w phase' := by
  have hholding := h.holding (t := t) (by rw [hpc]; rfl)
  rw [hpc] at hholding
  cases hholding with
  | written v hp =>
    have hi : v % capacity < capacity := Nat.mod_lt v hcap
    obtain ⟨slot, hslot, hs⟩ := h.slot_at hi
    rw [hp] at hs
    obtain ⟨-, hge, hlt, rfl⟩ := hs
    have hframe := setStamp_frame hcap h.shaped hslot (Nat.le_succ _)
    refine h.release hcap (.full v) .pushed hi (by rw [hp]; rfl) rfl (by rw [hpc]; rfl)
      (h.shaped.setStamp _ _) rfl rfl (by simp [hp]) hframe.1 ?_ hframe.2 (by simp) ?_
    · intro slot' hs'
      rw [Ring.getElem?_setStamp hcap h.shaped, if_pos rfl, hslot] at hs'
      obtain rfl := Option.some.inj hs'
      exact ⟨rfl, hge, hlt, rfl⟩
    · intro u hu
      have := h.handed_keep (.full v) [] (by rw [hp]; rfl) u hu
      simpa using this
  | replaced v item hp hitem =>
    have hi : v % capacity < capacity := Nat.mod_lt v hcap
    have hmod : (v + capacity) % capacity = v % capacity := Nat.add_mod_right v capacity
    obtain ⟨slot, hslot, hs⟩ := h.slot_at hi
    rw [hp] at hs
    obtain ⟨-, hlt, hge, hlt', rfl, -⟩ := hs
    have hle : cursor capacity v + 1 ≤ cursor capacity (v + capacity) + 1 :=
      Nat.succ_le_succ ((cursor_le_iff hcap).mpr (Nat.le_add_right v capacity))
    have hframe := setStamp_frame (v := v + capacity) hcap h.shaped (by rw [hmod]; exact hslot) hle
    rw [hmod] at hframe
    have hback : cursor capacity (v + capacity) - s.ring.lap = cursor capacity v := by
      rw [h.shaped.lap, cursor_add_capacity hcap, Nat.add_sub_cancel]
    refine h.release hcap (.full (v + capacity))
      (.displaced (cursor capacity v) item) hi (by rw [hp]; rfl) rfl
      (by rw [hpc, Ring.advance, hback]) (h.shaped.setStamp _ _) rfl rfl (by simp [hp]) hframe.1 ?_
      hframe.2 ?_ ?_
    · intro slot' hs'
      rw [Ring.getElem?_setStamp hcap h.shaped, if_pos hmod, hslot] at hs'
      obtain rfl := Option.some.inj hs'
      exact ⟨hmod, hge, hlt', rfl⟩
    · intro p hne
      rw [Event.handedOut?_displaced] at hne
      exact ⟨v, rfl, by by_contra hc; exact hne (if_neg (Ne.symm hc))⟩
    · intro u hu
      rw [Event.handedOut?_displaced]
      exact h.handed_release hcap hlt (by rw [hp]; rfl) hitem rfl u hu

lemma Inv.access_popStoreStamp (hcap : 0 < capacity) (h : Inv capacity s r w phase) {t : ι}
    {spurious : Bool} {position : ℕ} {item : T} (hpc : s.pc t = .popStoreStamp position item) :
    ∃ phase', Inv capacity (s.access t spurious) r w phase' := by
  have hholding := h.holding (t := t) (by rw [hpc]; rfl)
  rw [hpc] at hholding
  cases hholding with
  | taken v item hp hitem =>
    have hi : v % capacity < capacity := Nat.mod_lt v hcap
    have hmod : (v + capacity) % capacity = v % capacity := Nat.add_mod_right v capacity
    obtain ⟨slot, hslot, hs⟩ := h.slot_at hi
    rw [hp] at hs
    obtain ⟨-, hlt, hge, rfl⟩ := hs
    have hstamp : cursor capacity v + s.ring.lap = cursor capacity (v + capacity) := by
      rw [h.shaped.lap, cursor_add_capacity hcap]
    have hle : cursor capacity v + 1 ≤ cursor capacity (v + capacity) :=
      (cursor_add_one_le_iff hcap).mpr (by omega)
    have hframe := setStamp_frame hcap h.shaped hslot hle
    refine h.release hcap (.free (v + capacity)) (.popped (cursor capacity v) item)
      hi (by rw [hp]; rfl) rfl (by rw [hpc, Ring.advance, hstamp]) (h.shaped.setStamp _ _) rfl rfl
      (by simp [hp]) hframe.1 ?_ hframe.2 ?_ ?_
    · intro slot' hs'
      rw [Ring.getElem?_setStamp hcap h.shaped, if_pos rfl, hslot] at hs'
      obtain rfl := Option.some.inj hs'
      exact ⟨hmod, hge, by omega, rfl⟩
    · intro p hne
      rw [Event.handedOut?_popped] at hne
      exact ⟨v, rfl, by by_contra hc; exact hne (if_neg (Ne.symm hc))⟩
    · intro u hu
      rw [Event.handedOut?_popped]
      exact h.handed_release hcap hlt (by rw [hp]; rfl) hitem rfl u hu

/-! ### All accesses, all interleavings -/

lemma Inv.access (hcap : 0 < capacity) (h : Inv capacity s r w phase) (t : ι) (spurious : Bool)
    (hidle : s.pc t ≠ .idle) : ∃ r' w' phase', Inv capacity (s.access t spurious) r' w' phase' := by
  have hok := h.ownPc t
  cases hpc : s.pc t with
  | idle => exact absurd hpc hidle
  | fault =>
    rw [hpc] at hok
    exact hok.elim
  | pushLoadWrite item overwrite =>
    exact ⟨r, w, phase, h.load (.pushLoadStamp item overwrite s.ring.write) (by rw [hpc]; rfl)
      (by rw [hpc]; rfl) rfl ⟨w, le_rfl, h.write⟩⟩
  | pushLoadStamp item overwrite position =>
    exact ⟨r, w, phase, h.access_pushLoadStamp hcap hpc⟩
  | pushCasWrite item overwrite position =>
    by_cases hcas : s.ring.write = position ∧ spurious = false
    · obtain ⟨hcas, rfl⟩ := hcas
      exact ⟨r, w + 1, _, h.access_claim_write hcap hpc hcas⟩
    · exact ⟨r, w, phase, h.load (.pushLoadWrite item overwrite) (by rw [hpc]; rfl)
        (by rw [hpc, Ring.advance, if_neg hcas]) rfl trivial⟩
  | pushWriteValue item position => exact ⟨r, w, h.access_pushWriteValue hcap hpc⟩
  | pushLoadRead item overwrite position oldest =>
    rw [hpc] at hok
    by_cases hread : s.ring.read = oldest
    · cases overwrite with
      | true =>
        exact ⟨r, w, phase, h.load (.pushCasRead item position oldest) (by rw [hpc]; rfl)
          (by simp [hpc, Ring.advance, hread]) rfl hok⟩
      | false =>
        exact ⟨r, w, phase, h.answer (.full item) (by rw [hpc]; rfl)
          (by simp [hpc, Ring.advance, hread]) (fun _ => rfl)⟩
    · exact ⟨r, w, phase, h.load (.pushLoadWrite item overwrite) (by rw [hpc]; rfl)
        (by rw [hpc, Ring.advance, if_neg hread]) rfl trivial⟩
  | pushCasRead item position oldest =>
    by_cases hcas : s.ring.read = oldest
    · exact ⟨r + 1, w, _, (h.access_claim_both hcap spurious hpc hcas).2⟩
    · exact ⟨r, w, phase, h.load (.pushLoadWrite item true) (by rw [hpc]; rfl)
        (by rw [hpc, Ring.advance, if_neg hcas]) rfl trivial⟩
  | pushStoreWrite item position => exact ⟨r, w + 1, h.access_pushStoreWrite hcap hpc⟩
  | pushReplace item position => exact ⟨r, w, h.access_pushReplace hcap hpc⟩
  | pushStoreStamp position displaced => exact ⟨r, w, h.access_pushStoreStamp hcap hpc⟩
  | popLoadRead =>
    exact ⟨r, w, phase, h.load (.popLoadStamp s.ring.read) (by rw [hpc]; rfl)
      (by rw [hpc]; rfl) rfl ⟨r, le_rfl, h.read⟩⟩
  | popLoadStamp position => exact ⟨r, w, phase, h.access_popLoadStamp hcap hpc⟩
  | popCasRead position =>
    by_cases hcas : s.ring.read = position ∧ spurious = false
    · obtain ⟨hcas, rfl⟩ := hcas
      exact ⟨r + 1, w, _, h.access_claim_read hcap hpc hcas⟩
    · exact ⟨r, w, phase, h.load .popLoadRead (by rw [hpc]; rfl)
        (by rw [hpc, Ring.advance, if_neg hcas]) rfl trivial⟩
  | popReadValue position => exact ⟨r, w, h.access_popReadValue hcap hpc⟩
  | popStoreStamp position item => exact ⟨r, w, h.access_popStoreStamp hcap hpc⟩
  | popLoadWrite position =>
    by_cases hempty : s.ring.write = position
    · exact ⟨r, w, phase, h.answer .empty (by rw [hpc]; rfl)
        (by rw [hpc, Ring.advance, if_pos hempty]) (fun _ => rfl)⟩
    · exact ⟨r, w, phase, h.load .popLoadRead (by rw [hpc]; rfl)
        (by rw [hpc, Ring.advance, if_neg hempty]) rfl trivial⟩
  | lenLoadRead =>
    exact ⟨r, w, phase, h.load (.lenLoadWrite s.ring.read) (by rw [hpc]; rfl)
      (by rw [hpc]; rfl) rfl ⟨r, le_rfl, h.read⟩⟩
  | lenLoadWrite read =>
    rw [hpc] at hok
    obtain ⟨v, hv, hread⟩ := hok
    exact ⟨r, w, phase, h.load (.lenReloadRead read s.ring.write) (by rw [hpc]; rfl)
      (by rw [hpc]; rfl) rfl ⟨v, hv, w, le_rfl, hread, h.write⟩⟩
  | lenReloadRead read write =>
    by_cases hread : s.ring.read = read
    · exact ⟨r, w, phase, h.answer (.count (s.ring.count read write)) (by rw [hpc]; rfl)
        (by rw [hpc, Ring.advance, if_pos hread]) (fun _ => rfl)⟩
    · exact ⟨r, w, phase, h.load .lenLoadRead (by rw [hpc]; rfl)
        (by rw [hpc, Ring.advance, if_neg hread]) rfl trivial⟩

/-- Starting a call changes nothing but the program point of an idle thread. -/
lemma Inv.call (h : Inv capacity s r w phase) {t : ι} {entry : Pc T} {s' : Threads ι T}
    (hs : s.call t entry = some s') (hentry : entry.holding = false)
    (hlocal : LocalOk capacity r w s.ring.slots entry) : Inv capacity s' r w phase := by
  cases hpc : s.pc t with
  | idle =>
    obtain rfl : _ = s' := by simpa [Threads.call, hpc] using hs
    simpa using h.stay (t := t) [] rfl rfl (fun _ => rfl) (by rw [hpc]; rfl) hentry hlocal
  | _ => simp [Threads.call, hpc] at hs

lemma Threads.next_advance {t : ι} {spurious : Bool} {s' : Threads ι T}
    (hs : s.next (.advance t spurious) = some s') :
    s.pc t ≠ .idle ∧ s.pc t ≠ .fault ∧ s' = s.access t spurious := by
  cases hpc : s.pc t <;> simp_all [Threads.next]

lemma Inv.step (hcap : 0 < capacity) (h : Inv capacity s r w phase) {a : Action ι T}
    {s' : Threads ι T} (hs : s.next a = some s') :
    ∃ r' w' phase', Inv capacity s' r' w' phase' := by
  cases a with
  | push t item overwrite => exact ⟨r, w, phase, h.call hs rfl trivial⟩
  | pop t => exact ⟨r, w, phase, h.call hs rfl trivial⟩
  | len t => exact ⟨r, w, phase, h.call hs rfl trivial⟩
  | advance t spurious =>
    obtain ⟨hidle, -, rfl⟩ := Threads.next_advance hs
    exact h.access hcap t spurious hidle

omit [DecidableEq ι] in
lemma inv_new :
    Inv capacity (Threads.new capacity : Threads ι T) 0 0 .free where
  shaped := Ring.shaped_new capacity
  read := (cursor_zero capacity).symm
  write := (cursor_zero capacity).symm
  claims := rfl
  order := le_rfl
  bound := Nat.zero_le _
  window := .inl rfl
  slot := by
    intro i slot hi
    have hlt : i < capacity := by
      have := (List.getElem?_eq_some_iff.mp hi).1
      simpa [Threads.new, Ring.new] using this
    have hs : slot = ⟨i * 2, none⟩ := by
      have : some (⟨i * 2, none⟩ : Slot T) = some slot := by
        simpa [Threads.new, Ring.new, List.getElem?_range hlt] using hi
      exact (Option.some.inj this).symm
    have hcursor : cursor capacity i = i * 2 := by
      rw [cursor, lapCursor, Nat.div_eq_of_lt hlt, Nat.mod_eq_of_lt hlt]
      omega
    exact ⟨Nat.mod_eq_of_lt hlt, Nat.zero_le _, by omega, by rw [hs, hcursor]⟩
  holder := fun _ _ => trivial
  held := by simp [Threads.new, Pc.holding]
  ownPc := fun _ => trivial
  handed := by simp [Threads.handedOut, Threads.new]
  stray := by simp [Threads.handedOut, Threads.new]

/-- The invariant holds in every reachable state. -/
theorem inv_of_reachable (hcap : 0 < capacity) (hs : (ringSystem ι T capacity).Reachable s) :
    ∃ r w phase, Inv capacity s r w phase := by
  refine hs.invariant (P := fun s => ∃ r w phase, Inv capacity s r w phase) ?_ ?_
  · rintro s rfl
    exact ⟨0, 0, _, inv_new⟩
  · rintro s a s' ⟨r, w, phase, h⟩ hstep
    exact h.step hcap hstep

end

end DoomFishUtils.Spsc
