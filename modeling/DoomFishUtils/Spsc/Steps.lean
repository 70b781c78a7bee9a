import DoomFishUtils.Spsc.Invariant

/-!
# Steps of the ring protocol

A thread stays outside every slot, or a step of it concerns one slot. The frame rules
`Inv.stay` and `Inv.change` say what each kind of step has to show, and the lemmas before
them say what a thread knows: where a holder stands, and what a compare-exchange finds
when it succeeds.
-/

namespace DoomFishUtils.Spsc
set_option autoImplicit false
open Library

variable {ι T : Type*}

section

variable {capacity : ℕ} {s : Threads ι T} {r w : ℕ} {phase : ℕ → Phase ι}

/-- Where a holding thread stands: at one program point for each phase. -/
lemma Inv.phase_of_pc (h : Inv capacity s r w phase) {t : ι} (ht : (s.pc t).holding = true) :
    ∃ i < capacity, (phase i).holder = some t ∧ HolderOk capacity s.accepted s.pc (phase i) := by
  obtain ⟨i, hi, hholder⟩ := h.held t ht
  exact ⟨i, hi, hholder, h.holder i hi⟩

lemma Inv.slot_at (h : Inv capacity s r w phase) {i : ℕ} (hi : i < capacity) :
    ∃ slot, s.ring.slots[i]? = some slot ∧ SlotOk capacity r w s.accepted i slot (phase i) := by
  have hlt : i < s.ring.slots.length := by rw [h.shaped.length]; exact hi
  exact ⟨_, List.getElem?_eq_getElem hlt, h.slot i _ (List.getElem?_eq_getElem hlt)⟩

/-- The position that a holding thread carries. -/
def Pc.position : Pc T → ℕ
  | .pushWriteValue _ p | .pushStoreWrite _ p | .pushReplace _ p | .pushStoreStamp p _
  | .popReadValue p | .popStoreStamp p _ => p
  | _ => 0

lemma HolderOk.position_eq {accepted : List T} {pc : ι → Pc T} {phase : Phase ι} {t : ι}
    {i : ℕ} {slot : Slot T} (h : HolderOk capacity accepted pc phase)
    (hs : SlotOk capacity r w accepted i slot phase) (ht : phase.holder = some t) :
    ∃ v, v % capacity = i ∧ (pc t).position = cursor capacity v := by
  cases phase with
  | free | full => simp [Phase.holder] at ht
  | writing v u written =>
    obtain rfl : u = t := by simpa [Phase.holder] using ht
    refine ⟨v, hs.1, ?_⟩
    cases written with
    | false => obtain ⟨_, _, hpc⟩ := h; simp [hpc, Pc.position]
    | true => simp [show pc u = _ from h, Pc.position]
  | reading v u taken =>
    obtain rfl : u = t := by simpa [Phase.holder] using ht
    refine ⟨v, hs.1, ?_⟩
    cases taken with
    | false => simp [show pc u = _ from h, Pc.position]
    | true => obtain ⟨_, _, hpc⟩ := h; simp [hpc, Pc.position]
  | replacing v u stage =>
    obtain rfl : u = t := by simpa [Phase.holder] using ht
    refine ⟨v + capacity, (Nat.add_mod_right v capacity).trans hs.1, ?_⟩
    cases stage with
    | claimed | published | replaced => obtain ⟨_, _, hpc⟩ := h; simp [hpc, Pc.position]

/-- A thread holds at most one slot. -/
lemma Inv.holder_unique (hcap : 0 < capacity) (h : Inv capacity s r w phase) {i j : ℕ} {t : ι}
    (hi : i < capacity) (hj : j < capacity) (hti : (phase i).holder = some t)
    (htj : (phase j).holder = some t) : i = j := by
  obtain ⟨si, -, hsi⟩ := h.slot_at hi
  obtain ⟨sj, -, hsj⟩ := h.slot_at hj
  obtain ⟨v, hv, hpv⟩ := (h.holder i hi).position_eq hsi hti
  obtain ⟨u, hu, hpu⟩ := (h.holder j hj).position_eq hsj htj
  have : v = u := (cursor_inj hcap).mp (hpv.symm.trans hpu)
  rw [← hv, ← hu, this]

/-- The seven ways of holding a slot, by program point. -/
inductive Holding (capacity : ℕ) (accepted : List T) (phase : ℕ → Phase ι) (t : ι) :
    Pc T → Prop
  | writing (v : ℕ) (item : T) : phase (v % capacity) = .writing v t false →
      accepted[v]? = some item →
      Holding capacity accepted phase t (.pushWriteValue item (cursor capacity v))
  | written (v : ℕ) : phase (v % capacity) = .writing v t true →
      Holding capacity accepted phase t (.pushStoreStamp (cursor capacity v) none)
  | reading (v : ℕ) : phase (v % capacity) = .reading v t false →
      Holding capacity accepted phase t (.popReadValue (cursor capacity v))
  | taken (v : ℕ) (item : T) : phase (v % capacity) = .reading v t true →
      accepted[v]? = some item →
      Holding capacity accepted phase t (.popStoreStamp (cursor capacity v) item)
  | claimed (v : ℕ) (item : T) : phase (v % capacity) = .replacing v t .claimed →
      accepted[v + capacity]? = some item →
      Holding capacity accepted phase t (.pushStoreWrite item (cursor capacity (v + capacity)))
  | published (v : ℕ) (item : T) : phase (v % capacity) = .replacing v t .published →
      accepted[v + capacity]? = some item →
      Holding capacity accepted phase t (.pushReplace item (cursor capacity (v + capacity)))
  | replaced (v : ℕ) (item : T) : phase (v % capacity) = .replacing v t .replaced →
      accepted[v]? = some item →
      Holding capacity accepted phase t
        (.pushStoreStamp (cursor capacity (v + capacity)) (some item))

lemma Inv.holding (h : Inv capacity s r w phase) {t : ι} (ht : (s.pc t).holding = true) :
    Holding capacity s.accepted phase t (s.pc t) := by
  obtain ⟨i, hi, hholder, hok⟩ := h.phase_of_pc ht
  obtain ⟨slot, -, hs⟩ := h.slot_at hi
  cases hp : phase i with
  | free | full => simp [hp, Phase.holder] at hholder
  | writing v u written =>
    obtain rfl : u = t := by simpa [hp, Phase.holder] using hholder
    rw [hp] at hok hs
    obtain rfl := hs.1
    cases written with
    | false => obtain ⟨item, hitem, hpc⟩ := hok; exact hpc ▸ .writing v item hp hitem
    | true => exact (show s.pc u = _ from hok) ▸ .written v hp
  | reading v u taken =>
    obtain rfl : u = t := by simpa [hp, Phase.holder] using hholder
    rw [hp] at hok hs
    obtain rfl := hs.1
    cases taken with
    | false => exact (show s.pc u = _ from hok) ▸ .reading v hp
    | true => obtain ⟨item, hitem, hpc⟩ := hok; exact hpc ▸ .taken v item hp hitem
  | replacing v u stage =>
    obtain rfl : u = t := by simpa [hp, Phase.holder] using hholder
    rw [hp] at hok hs
    obtain rfl := hs.1
    cases stage with
    | claimed => obtain ⟨item, hitem, hpc⟩ := hok; exact hpc ▸ .claimed v item hp hitem
    | published => obtain ⟨item, hitem, hpc⟩ := hok; exact hpc ▸ .published v item hp hitem
    | replaced => obtain ⟨item, hitem, hpc⟩ := hok; exact hpc ▸ .replaced v item hp hitem

/-! ### What a successful compare-exchange finds -/

/-- While the write cursor lags behind a claim, the slot it points to is being replaced. -/
lemma Inv.window_phase (h : Inv capacity s r w phase) (hlen : s.accepted.length = w + 1) :
    ∃ v t, phase (w % capacity) = .replacing v t .claimed := by
  rcases h.window with he | ⟨-, i, hi, v, t, hp⟩
  · omega
  · obtain ⟨slot, -, hs⟩ := h.slot_at hi
    rw [hp] at hs
    obtain ⟨hv, -, -, -, -, hclaimed⟩ := hs
    have hw := (hclaimed rfl).1
    have hmod : w % capacity = i := by rw [← hw, Nat.add_mod_right, hv]
    exact ⟨v, t, hmod ▸ hp⟩

/-- A slot whose stamp has reached the write cursor is free, and no overwrite is between
its claim and its store of the cursor. -/
lemma Inv.phase_free (hcap : 0 < capacity) (h : Inv capacity s r w phase)
    (hstamp : StampGe s.ring.slots (w % capacity) (cursor capacity w)) :
    phase (w % capacity) = .free w ∧ s.accepted.length = w := by
  obtain ⟨slot, hslot, hs⟩ := h.slot_at (Nat.mod_lt w hcap)
  have hge := hstamp slot hslot
  have horder := h.order
  have hbound := h.bound
  have hle := h.write_le_accepted
  have hnext : ¬ s.accepted.length ≤ w → s.accepted.length = w + 1 := by
    rcases h.window with he | ⟨he, -⟩ <;> omega
  cases hp : phase (w % capacity) with
  | free v =>
    rw [hp] at hs
    obtain ⟨hv, hlow, hhigh, rfl⟩ := hs
    obtain rfl : v = w := eq_of_mod_eq_of_window _ hv (hle.trans hlow) (by omega) le_rfl (by omega)
    exact ⟨rfl, by omega⟩
  | writing v t written =>
    rw [hp] at hs
    obtain ⟨-, -, hlt, rfl⟩ := hs
    have hwv : w ≤ v := (cursor_le_iff hcap).mp hge
    obtain ⟨v', t', hp'⟩ := h.window_phase (hnext (by omega))
    cases hp.symm.trans hp'
  | full v =>
    rw [hp] at hs
    obtain ⟨-, -, hlt, rfl⟩ := hs
    have hwv : w ≤ v := (cursor_le_add_one_iff hcap).mp hge
    obtain ⟨v', t', hp'⟩ := h.window_phase (hnext (by omega))
    cases hp.symm.trans hp'
  | reading v t taken =>
    rw [hp] at hs
    obtain ⟨-, hlt, -, rfl⟩ := hs
    have hwv : w ≤ v := (cursor_le_add_one_iff hcap).mp hge
    omega
  | replacing v t stage =>
    rw [hp] at hs
    obtain ⟨-, hlt, -, -, rfl, -⟩ := hs
    have hwv : w ≤ v := (cursor_le_add_one_iff hcap).mp hge
    omega

/-- A slot whose stamp has passed the read cursor is full. -/
lemma Inv.phase_full (hcap : 0 < capacity) (h : Inv capacity s r w phase)
    (hstamp : StampGe s.ring.slots (r % capacity) (cursor capacity r + 1)) :
    phase (r % capacity) = .full r := by
  obtain ⟨slot, hslot, hs⟩ := h.slot_at (Nat.mod_lt r hcap)
  have hge := hstamp slot hslot
  have hbound := h.bound
  cases hp : phase (r % capacity) with
  | free v =>
    rw [hp] at hs
    obtain ⟨hv, -, hhigh, rfl⟩ := hs
    have hrv : r < v := (cursor_add_one_le_iff hcap).mp hge
    have := add_le_of_mod_eq_of_lt hv.symm hrv
    omega
  | writing v t written =>
    rw [hp] at hs
    obtain ⟨hv, hrv, hlt, rfl⟩ := hs
    obtain rfl : v = r := eq_of_mod_eq_of_window _ hv hrv (by omega) le_rfl (by omega)
    exact absurd hge (Nat.not_succ_le_self _)
  | full v =>
    rw [hp] at hs
    obtain ⟨hv, hrv, hlt, rfl⟩ := hs
    obtain rfl : v = r := eq_of_mod_eq_of_window _ hv hrv (by omega) le_rfl (by omega)
    rfl
  | reading v t taken =>
    rw [hp] at hs
    obtain ⟨-, hlt, -, rfl⟩ := hs
    have hrv : r ≤ v := (cursor_le_iff hcap).mp (Nat.le_of_succ_le_succ hge)
    omega
  | replacing v t stage =>
    rw [hp] at hs
    obtain ⟨-, hlt, -, -, rfl, -⟩ := hs
    have hrv : r ≤ v := (cursor_le_iff hcap).mp (Nat.le_of_succ_le_succ hge)
    omega

/-- Where the read cursor is still the position whose item a thread has seen, it is that of the
oldest item. -/
lemma Inv.claimable (hcap : 0 < capacity) (h : Inv capacity s r w phase) {v : ℕ}
    (hcas : s.ring.read = cursor capacity v)
    (hstamp : StampGe s.ring.slots (v % capacity) (cursor capacity v + 1)) :
    r = v ∧ phase (r % capacity) = .full r ∧ ∃ slot, s.ring.slots[r % capacity]? = some slot ∧
      SlotOk capacity r w s.accepted (r % capacity) slot (.full r : Phase ι) := by
  obtain rfl : r = v := (cursor_inj hcap).mp (h.read.symm.trans hcas)
  have hfull := h.phase_full hcap hstamp
  obtain ⟨slot, hslot, hs⟩ := h.slot_at (Nat.mod_lt r hcap)
  rw [hfull] at hs
  exact ⟨rfl, hfull, slot, hslot, hs⟩

/-! ### Items handed out at the slot of a step -/

lemma Inv.handed_keep (h : Inv capacity s r w phase) {i : ℕ} (new : Phase ι) (ext : List T)
    (hclaim : new.readClaim = (phase i).readClaim) (v : ℕ) (hv : v % capacity = i) :
    s.handedOut (cursor capacity v) =
      if v < r ∧ new.readClaim ≠ some v then (s.accepted ++ ext)[v]?.toList else [] := by
  have hle := h.write_le_accepted
  have horder := h.order
  rw [h.handed v, hv, hclaim]
  split
  · next hc => rw [List.getElem?_append_left (by omega)]
  · rfl

lemma Inv.handed_claim (h : Inv capacity s r w phase) {new : Phase ι} {ext : List T}
    (hfull : phase (r % capacity) = .full r) (hclaim : new.readClaim = some r) (v : ℕ)
    (hv : v % capacity = r % capacity) :
    s.handedOut (cursor capacity v) =
      if v < r + 1 ∧ new.readClaim ≠ some v then (s.accepted ++ ext)[v]?.toList else [] := by
  have hle := h.write_le_accepted
  have horder := h.order
  rw [h.handed v, hv, hfull, hclaim]
  by_cases hlt : v < r
  · have hne : r ≠ v := by omega
    rw [if_pos ⟨hlt, by simp [Phase.readClaim]⟩, if_pos ⟨by omega, by simpa using hne⟩,
      List.getElem?_append_left (by omega)]
  · rw [if_neg (by omega), if_neg]
    rintro ⟨hle', hne⟩
    exact hne (by congr 1; omega)

lemma Inv.handed_release (hcap : 0 < capacity) (h : Inv capacity s r w phase) {u : ℕ} {item : T}
    {new : Phase ι} (hu : u < r) (hold : (phase (u % capacity)).readClaim = some u)
    (hitem : s.accepted[u]? = some item) (hclaim : new.readClaim = none) (v : ℕ)
    (hv : v % capacity = u % capacity) :
    s.handedOut (cursor capacity v) ++
        (if cursor capacity u = cursor capacity v then some item else none).toList =
      if v < r ∧ new.readClaim ≠ some v then s.accepted[v]?.toList else [] := by
  rw [h.handed v, hv, hold, hclaim]
  by_cases he : u = v
  · subst v
    simp [hu, hitem]
  · have hne : cursor capacity u ≠ cursor capacity v := fun hc => he ((cursor_inj hcap).mp hc)
    simp [he, hne]

/-- A thread that a slot belongs to, or that holds none, holds no other slot. -/
lemma Inv.elsewhere (hcap : 0 < capacity) (h : Inv capacity s r w phase) {t : ι} {i : ℕ}
    (hi : i < capacity) (hmine : ∀ u, (phase i).holder = some u → u = t)
    (honly : (phase i).holder = none → (s.pc t).holding = false) {j : ℕ} (hj : j < capacity)
    (hji : j ≠ i) : (phase j).holder ≠ some t := by
  intro hu
  have hholding := (h.holder j hj).holding hu
  cases hp : (phase i).holder with
  | none => simp [honly hp] at hholding
  | some u =>
    obtain rfl := hmine u hp
    exact hji (h.holder_unique hcap hj hi hu hp)

/-- What the positions of other slots have handed out is as before. -/
lemma Inv.handed_elsewhere (h : Inv capacity s r w phase) {i r' w' : ℕ} {ext : List T}
    (hmoves : Moves capacity i r w r' w' s.accepted (s.accepted ++ ext)) {v : ℕ}
    (hvi : v % capacity ≠ i) :
    s.handedOut (cursor capacity v) =
      if v < r' ∧ (phase (v % capacity)).readClaim ≠ some v then (s.accepted ++ ext)[v]?.toList
        else [] := by
  have hlt : v < r' ↔ v < r := by
    rcases hmoves.read with he | ⟨he, hri⟩
    · rw [he]
    · have : v ≠ r := by rintro rfl; exact hvi hri
      omega
  rw [h.handed_keep (phase (v % capacity)) ext rfl v rfl]
  simp only [hlt]

/-- A stamp that has been loaded is a bound from then on. -/
lemma Inv.loaded (hcap : 0 < capacity) (h : Inv capacity s r w phase) (v : ℕ) :
    ∃ slot, s.ring.slot (cursor capacity v) = some slot ∧
      ∀ n, n ≤ slot.stamp → StampGe s.ring.slots (v % capacity) n := by
  obtain ⟨slot, hslot⟩ := Ring.exists_slot hcap h.shaped v
  refine ⟨slot, (Ring.slot_cursor hcap h.shaped v).trans hslot, fun n hn slot' hs => ?_⟩
  obtain rfl : slot = slot' := Option.some.inj (hslot.symm.trans hs)
  exact hn

/-! ### Frame rules for a step -/

variable [DecidableEq ι]

/-- A step that neither claims nor touches a slot, and returns no item. -/
lemma Inv.stay (h : Inv capacity s r w phase) {t : ι} {pc' : Pc T} (events : List (Event T))
    (hacc : events.filterMap Event.accepted? = []) (hclaim : events.filterMap Event.claimed? = [])
    (hout : ∀ position, events.filterMap (Event.handedOut? position) = [])
    (hbefore : (s.pc t).holding = false) (hafter : pc'.holding = false)
    (hlocal : LocalOk capacity r w s.ring.slots pc') :
    Inv capacity ⟨s.ring, Function.update s.pc t pc', s.log ++ events.map (t, ·)⟩ r w phase where
  shaped := h.shaped
  read := h.read
  write := h.write
  claims := by rw [Threads.claims_append, hclaim, List.append_nil]; exact h.claims
  order := h.order
  bound := by rw [Threads.accepted_append, hacc, List.append_nil]; exact h.bound
  window := by rw [Threads.accepted_append, hacc, List.append_nil]; exact h.window
  slot := by rw [Threads.accepted_append, hacc, List.append_nil]; exact h.slot
  holder := by
    intro i hi
    rw [Threads.accepted_append, hacc, List.append_nil]
    refine (h.holder i hi).frame List.prefix_rfl (fun u hu => ?_)
    have hne : u ≠ t := by
      rintro rfl
      simp [(h.holder i hi).holding hu] at hbefore
    exact Function.update_of_ne hne _ _
  held := by
    intro u hu
    by_cases hut : u = t
    · subst u
      simp [hafter] at hu
    · exact h.held u (by simpa [Function.update_of_ne hut] using hu)
  ownPc := by
    intro u
    by_cases hut : u = t
    · subst u
      simpa using hlocal
    · simpa [Function.update_of_ne hut] using h.ownPc u
  handed := by
    intro v
    rw [Threads.handedOut_append, Threads.accepted_append, hacc, hout, List.append_nil,
      List.append_nil]
    exact h.handed v
  stray := by
    intro position hp
    rw [Threads.handedOut_append, hout, List.append_nil] at hp
    exact h.stray position hp

/-- A step that concerns slot `i` alone. -/
lemma Inv.change (hcap : 0 < capacity) (h : Inv capacity s r w phase) {t : ι} {i r' w' : ℕ}
    {pc' : Pc T} {ring' : Ring T} {events : List (Event T)} (new : Phase ι)
    (hi : i < capacity) (hmine : ∀ u, (phase i).holder = some u → u = t)
    (honly : (phase i).holder = none → (s.pc t).holding = false)
    (hnew : ∀ u, new.holder = some u → u = t) (hheld : pc'.holding = true → new.holder = some t)
    (hshaped : ring'.Shaped capacity) (hread : ring'.read = cursor capacity r')
    (hwrite : ring'.write = cursor capacity w')
    (hmoves : Moves capacity i r w r' w' s.accepted
      (s.accepted ++ events.filterMap Event.accepted?))
    (hclaims : s.claims ++ events.filterMap Event.claimed? =
      (List.range r').map (cursor capacity))
    (horder : r' ≤ w')
    (hbound : (s.accepted ++ events.filterMap Event.accepted?).length ≤ r' + capacity)
    (hwindow : (s.accepted ++ events.filterMap Event.accepted?).length = w' ∨
      (s.accepted ++ events.filterMap Event.accepted?).length = w' + 1 ∧
        ∃ j < capacity, ∃ v u, Function.update phase i new j = .replacing v u .claimed)
    (hother : ∀ j, j ≠ i → ring'.slots[j]? = s.ring.slots[j]?)
    (hslot : ∀ slot, ring'.slots[i]? = some slot → SlotOk capacity r' w'
      (s.accepted ++ events.filterMap Event.accepted?) i slot new)
    (hstamp : ∀ n, StampGe s.ring.slots i n → StampGe ring'.slots i n)
    (hholder : HolderOk capacity (s.accepted ++ events.filterMap Event.accepted?)
      (Function.update s.pc t pc') new)
    (hlocal : LocalOk capacity r' w' ring'.slots pc')
    (hout : ∀ position, events.filterMap (Event.handedOut? position) ≠ [] →
      ∃ v, v % capacity = i ∧ position = cursor capacity v)
    (hhanded : ∀ v, v % capacity = i →
      s.handedOut (cursor capacity v) ++ events.filterMap (Event.handedOut? (cursor capacity v)) =
        if v < r' ∧ new.readClaim ≠ some v then
          (s.accepted ++ events.filterMap Event.accepted?)[v]?.toList else []) :
    Inv capacity ⟨ring', Function.update s.pc t pc', s.log ++ events.map (t, ·)⟩ r' w'
      (Function.update phase i new) := by
  have hr : r ≤ r' := by rcases hmoves.read with he | ⟨he, -⟩ <;> omega
  have hw : w ≤ w' := by rcases hmoves.write with he | ⟨he, -⟩ <;> omega
  refine
    { shaped := hshaped, read := hread, write := hwrite, order := horder, claims := ?claims
      bound := ?bound, window := ?window, slot := ?slot, holder := ?holder, held := ?held
      ownPc := ?ownPc, handed := ?handed, stray := ?stray }
  case claims => rw [Threads.claims_append]; exact hclaims
  case bound => rw [Threads.accepted_append]; exact hbound
  case window => rw [Threads.accepted_append]; exact hwindow
  case slot =>
    intro j slot hj
    rw [Threads.accepted_append]
    by_cases hji : j = i
    · subst j
      rw [Function.update_self]
      exact hslot slot hj
    · rw [Function.update_of_ne hji]
      exact (h.slot j slot (hother j hji ▸ hj)).frame hmoves hji
  case holder =>
    intro j hj
    rw [Threads.accepted_append]
    by_cases hji : j = i
    · subst j
      rw [Function.update_self]
      exact hholder
    · rw [Function.update_of_ne hji]
      refine (h.holder j hj).frame hmoves.isPrefix (fun u hu => ?_)
      have hne : u ≠ t := by
        rintro rfl
        exact h.elsewhere hcap hi hmine honly hj hji hu
      exact Function.update_of_ne hne _ _
  case held =>
    intro u hu
    by_cases hut : u = t
    · subst u
      exact ⟨i, hi, by simpa using hheld (by simpa using hu)⟩
    · obtain ⟨j, hj, hju⟩ := h.held u (by simpa [Function.update_of_ne hut] using hu)
      have hji : j ≠ i := by
        rintro rfl
        exact hut (hmine u hju)
      exact ⟨j, hj, by rw [Function.update_of_ne hji]; exact hju⟩
  case ownPc =>
    intro u
    by_cases hut : u = t
    · subst u
      simpa using hlocal
    · have hstamps : ∀ j n, StampGe s.ring.slots j n → StampGe ring'.slots j n := by
        intro j n hn
        by_cases hji : j = i
        · exact hji ▸ hstamp n (hji ▸ hn)
        · intro slot hs
          exact hn slot (hother j hji ▸ hs)
      simpa [Function.update_of_ne hut] using (h.ownPc u).frame hr hw hstamps
  case handed =>
    intro v
    rw [Threads.handedOut_append, Threads.accepted_append]
    by_cases hvi : v % capacity = i
    · rw [hvi, Function.update_self]
      exact hhanded v hvi
    · have hnone : events.filterMap (Event.handedOut? (cursor capacity v)) = [] := by
        by_contra hne
        obtain ⟨u, hu, he⟩ := hout _ hne
        exact hvi ((cursor_inj hcap).mp he ▸ hu)
      rw [hnone, List.append_nil, Function.update_of_ne hvi]
      exact h.handed_elsewhere hmoves hvi
  case stray =>
    intro position hp
    rw [Threads.handedOut_append, ne_eq, List.append_eq_nil_iff, not_and_or] at hp
    rcases hp with hp | hp
    · exact h.stray position hp
    · obtain ⟨v, -, hv⟩ := hout position hp
      exact ⟨v, hv⟩

/-! ### Loads and failed compare-exchanges -/

lemma Threads.access_eq {t : ι} {spurious : Bool} {ring' : Ring T} {pc' : Pc T}
    {events : List (Event T)} (hadv : s.ring.advance spurious (s.pc t) = (ring', pc', events)) :
    s.access t spurious = ⟨ring', Function.update s.pc t pc', s.log ++ events.map (t, ·)⟩ := by
  simp only [Threads.access, hadv]

/-- A step that changes nothing but the program point of a thread outside every slot. -/
lemma Inv.load (h : Inv capacity s r w phase) {t : ι} {spurious : Bool} (pc' : Pc T)
    (hbefore : (s.pc t).holding = false)
    (hadv : s.ring.advance spurious (s.pc t) = (s.ring, pc', []))
    (hafter : pc'.holding = false) (hlocal : LocalOk capacity r w s.ring.slots pc') :
    Inv capacity (s.access t spurious) r w phase := by
  rw [Threads.access_eq hadv]
  exact h.stay [] rfl rfl (fun _ => rfl) hbefore hafter hlocal

/-- A step that returns without an item and changes nothing else. -/
lemma Inv.answer (h : Inv capacity s r w phase) {t : ι} {spurious : Bool} (answer : Answer T)
    (hbefore : (s.pc t).holding = false)
    (hadv : s.ring.advance spurious (s.pc t) = (s.ring, .idle, [.returned answer]))
    (hout : ∀ position, (Event.returned answer).handedOut? position = none) :
    Inv capacity (s.access t spurious) r w phase := by
  rw [Threads.access_eq hadv]
  refine h.stay _ rfl rfl (fun position => ?_) hbefore rfl trivial
  simp [hout position]

lemma Inv.access_pushLoadStamp (hcap : 0 < capacity) (h : Inv capacity s r w phase) {t : ι}
    {spurious : Bool} {item : T} {overwrite : Bool} {position : ℕ}
    (hpc : s.pc t = .pushLoadStamp item overwrite position) :
    Inv capacity (s.access t spurious) r w phase := by
  have hbefore : (s.pc t).holding = false := by rw [hpc]; rfl
  obtain ⟨v, hv, rfl⟩ : ∃ v ≤ w, position = cursor capacity v := by
    have := h.ownPc t
    rwa [hpc] at this
  obtain ⟨slot, hload, hstamp⟩ := h.loaded hcap v
  have hretry : s.ring.advance spurious (s.pc t) = (s.ring, .pushLoadWrite item overwrite, []) →
      Inv capacity (s.access t spurious) r w phase :=
    fun hadv => h.load _ hbefore hadv rfl trivial
  by_cases heq : slot.stamp = cursor capacity v
  · exact h.load (.pushCasWrite item overwrite (cursor capacity v)) hbefore
      (by simp [hpc, Ring.advance, hload, heq]) rfl ⟨v, hv, rfl, hstamp _ heq.ge⟩
  · cases hold : s.ring.oldest (cursor capacity v) with
    | none => exact hretry (by simp [hpc, Ring.advance, hload, heq, hold])
    | some oldest =>
      by_cases hfull : slot.stamp = oldest + 1
      · obtain ⟨u, rfl, rfl⟩ := Ring.oldest_cursor hcap h.shaped hold
        refine h.load (.pushLoadRead item overwrite (cursor capacity (u + capacity))
          (cursor capacity u)) hbefore ?_ rfl ⟨u, hv, rfl, rfl, ?_⟩
        · simp only [hpc, Ring.advance, hload, if_neg heq, hold, if_pos hfull]
        · rw [← Nat.add_mod_right u capacity]
          exact hstamp _ hfull.ge
      · exact hretry (by simp [hpc, Ring.advance, hload, heq, hold, hfull])

lemma Inv.access_popLoadStamp (hcap : 0 < capacity) (h : Inv capacity s r w phase) {t : ι}
    {spurious : Bool} {position : ℕ} (hpc : s.pc t = .popLoadStamp position) :
    Inv capacity (s.access t spurious) r w phase := by
  have hbefore : (s.pc t).holding = false := by rw [hpc]; rfl
  obtain ⟨v, hv, rfl⟩ : ∃ v ≤ r, position = cursor capacity v := by
    have := h.ownPc t
    rwa [hpc] at this
  obtain ⟨slot, hload, hstamp⟩ := h.loaded hcap v
  by_cases hfull : slot.stamp = cursor capacity v + 1
  · exact h.load (.popCasRead (cursor capacity v)) hbefore
      (by simp [hpc, Ring.advance, hload, hfull]) rfl ⟨v, hv, rfl, hstamp _ hfull.ge⟩
  · by_cases hfree : slot.stamp = cursor capacity v
    · exact h.load (.popLoadWrite (cursor capacity v)) hbefore
        (by simp [hpc, Ring.advance, hload, hfree]) rfl ⟨v, hv, rfl, hstamp _ hfree.ge⟩
    · exact h.load .popLoadRead hbefore
        (by simp [hpc, Ring.advance, hload, hfull, hfree]) rfl trivial

end

end DoomFishUtils.Spsc
