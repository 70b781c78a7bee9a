import DoomFishUtils.Spsc.Exclusion

/-!
# The answers of the ring

A push that answers "full", a pop that answers "empty" and an overwrite that displaces an
item are each right at one step inside the call: for the first two it is the load that
decides the answer, for the third the claim of the read position.
-/

namespace DoomFishUtils.Spsc
set_option autoImplicit false
open Library

variable {ι T : Type*}

/-- In `log`, thread `t` claimed `position` in an overwrite while exactly `capacity` accepted
items were unconsumed, and `item` was the oldest of them. -/
def Displaces (capacity : ℕ) (log : List (ι × Event T)) (t : ι) (position : ℕ) (item : T) : Prop :=
  ∃ before after new,
    log = before ++ (t, .claimed position) :: (t, .accepted new) :: after ∧
      (acceptedIn before).length = (claimsIn before).length + capacity ∧
      (acceptedIn before)[(claimsIn before).length]? = some item

/-- The answers in terms of the items that are accepted and not yet consumed. -/
structure Threads.Answered [DecidableEq ι] (capacity : ℕ) (s : Threads ι T) : Prop where
  cursors : s.ring.read ≤ s.ring.write
  /-- The last step of a push that returns its item sees `capacity` unconsumed items. -/
  full : ∀ t spurious s' item, s.next (.advance t spurious) = some s' →
    s'.log = s.log ++ [(t, .returned (.full item))] →
    (∃ position oldest, s.pc t = .pushLoadRead item false position oldest) ∧
      s.accepted.length = s.claims.length + capacity
  /-- The last step of a pop that returns nothing sees every accepted item consumed. -/
  empty : ∀ t spurious s', s.next (.advance t spurious) = some s' →
    s'.log = s.log ++ [(t, .returned .empty)] →
    (∃ position, s.pc t = .popLoadWrite position) ∧ s.accepted.length = s.claims.length
  displaced : ∀ t position item, (t, .returned (.displaced position item)) ∈ s.log →
    Displaces capacity s.log t position item
  count : ∀ t n, (t, .returned (.count n)) ∈ s.log → n ≤ capacity

section

variable {capacity : ℕ} {s : Threads ι T} {r w : ℕ} {phase : ℕ → Phase ι}

lemma Displaces.append {log events : List (ι × Event T)} {t : ι} {position : ℕ} {item : T}
    (h : Displaces capacity log t position item) :
    Displaces capacity (log ++ events) t position item := by
  obtain ⟨before, after, new, rfl, hfull, hitem⟩ := h
  exact ⟨before, after ++ events, new, by simp, hfull, hitem⟩

/-! ### Which program point gives which answer -/

/-- The read position that an overwrite under way has claimed. -/
def Pc.overwriting (lap : ℕ) : Pc T → Option ℕ
  | .pushStoreWrite _ position | .pushReplace _ position | .pushStoreStamp position (some _) =>
    some (position - lap)
  | _ => none

/-- The point from which an access returns `answer`. -/
def Answer.From (ring : Ring T) (pc : Pc T) : Answer T → Prop
  | .pushed => ∃ position, pc = .pushStoreStamp position none
  | .full item => ∃ position oldest, pc = .pushLoadRead item false position oldest ∧
      ring.read = oldest
  | .displaced p item => ∃ position, pc = .pushStoreStamp position (some item) ∧
      p = position - ring.lap
  | .popped position item => pc = .popStoreStamp position item
  | .empty => ∃ position, pc = .popLoadWrite position ∧ ring.write = position
  | .count n => ∃ read write, pc = .lenReloadRead read write ∧ n = ring.count read write

lemma Ring.advance_returned {ring : Ring T} (spurious : Bool) {pc : Pc T} {answer : Answer T}
    (h : .returned answer ∈ (ring.advance spurious pc).2.2) : answer.From ring pc := by
  revert h
  fun_cases Ring.advance ring spurious pc <;> intro h <;> simp_all [Answer.From]

/-- An overwrite is under way because it was before, or because it has just claimed. -/
lemma Ring.advance_overwriting {ring : Ring T} {spurious : Bool} {pc : Pc T} {p : ℕ}
    (h : (ring.advance spurious pc).2.1.overwriting ring.lap = some p) :
    pc.overwriting ring.lap = some p ∨ ∃ item position oldest,
      pc = .pushCasRead item position oldest ∧ ring.read = oldest ∧ p = position - ring.lap := by
  revert h
  fun_cases Ring.advance ring spurious pc <;> intro h <;> simp_all [Pc.overwriting]

/-! ### The state at the deciding step -/

lemma Inv.full_at_load (hcap : 0 < capacity) (h : Inv capacity s r w phase) {t : ι} {item : T}
    {overwrite : Bool} {position oldest : ℕ}
    (hpc : s.pc t = .pushLoadRead item overwrite position oldest) (hread : s.ring.read = oldest) :
    s.accepted.length = s.claims.length + capacity := by
  have hok := h.ownPc t
  rw [hpc] at hok
  obtain ⟨v, hv, -, rfl, -⟩ := hok
  obtain rfl : r = v := (cursor_inj hcap).mp (h.read.symm.trans hread)
  have hbound := h.bound
  have hle := h.write_le_accepted
  rw [h.claims_length]
  omega

lemma Inv.empty_at_load (hcap : 0 < capacity) (h : Inv capacity s r w phase) {t : ι}
    {position : ℕ} (hpc : s.pc t = .popLoadWrite position) (hwrite : s.ring.write = position) :
    s.accepted.length = s.claims.length := by
  have hok := h.ownPc t
  rw [hpc] at hok
  obtain ⟨v, hv, rfl, hstamp⟩ := hok
  obtain rfl : w = v := (cursor_inj hcap).mp (h.write.symm.trans hwrite)
  have hlen := (h.phase_free hcap hstamp).2
  have horder := h.order
  rw [h.claims_length]
  omega

lemma Inv.count_le (hcap : 0 < capacity) (h : Inv capacity s r w phase) {t : ι}
    {read write : ℕ} (hpc : s.pc t = .lenReloadRead read write) :
    s.ring.count read write ≤ capacity := by
  have hok := h.ownPc t
  rw [hpc] at hok
  obtain ⟨v, -, u, -, rfl, rfl⟩ := hok
  have hv : v % capacity < capacity := Nat.mod_lt v hcap
  have hu : u % capacity < capacity := Nat.mod_lt u hcap
  rw [Ring.count, Ring.index_cursor hcap h.shaped, Ring.index_cursor hcap h.shaped,
    h.shaped.length]
  split
  · exact Nat.zero_le _
  · split <;> omega

/-! ### What the log says of overwrites and of lengths -/

/-- An overwrite under way has claimed the oldest item of a full ring, and the answers so far
are right. -/
structure Logged (capacity : ℕ) (s : Threads ι T) : Prop where
  overwriting : ∀ t p, (s.pc t).overwriting s.ring.lap = some p →
    ∃ k item, p = cursor capacity k ∧ s.accepted[k]? = some item ∧
      Displaces capacity s.log t p item
  displaced : ∀ t position item, (t, .returned (.displaced position item)) ∈ s.log →
    Displaces capacity s.log t position item
  count : ∀ t n, (t, .returned (.count n)) ∈ s.log → n ≤ capacity

lemma Logged.of_pc [DecidableEq ι] (h : Logged capacity s) (t : ι) {pc : Pc T}
    (hpc : ∀ lap, pc.overwriting lap = none) :
    Logged capacity { s with pc := Function.update s.pc t pc } := by
  refine ⟨fun u p hu => ?_, h.displaced, h.count⟩
  by_cases hut : u = t
  · subst u
    simp [hpc] at hu
  · exact h.overwriting u p (by simpa [Function.update_of_ne hut] using hu)

lemma Logged.of_call [DecidableEq ι] (h : Logged capacity s) {t : ι} {entry : Pc T}
    {s' : Threads ι T} (hs : s.call t entry = some s') (hentry : ∀ lap, entry.overwriting lap = none) :
    Logged capacity s' := by
  cases hpc : s.pc t with
  | idle =>
    obtain rfl : _ = s' := by simpa [Threads.call, hpc] using hs
    exact h.of_pc t hentry
  | _ => simp [Threads.call, hpc] at hs

/-- The claim of an overwrite goes into the log at the moment when the ring is full. -/
lemma Inv.displaces_claim [DecidableEq ι] (hcap : 0 < capacity) (h : Inv capacity s r w phase)
    {t : ι} (spurious : Bool) {item : T} {position oldest : ℕ}
    (hpc : s.pc t = .pushCasRead item position oldest) (hcas : s.ring.read = oldest) :
    ∃ k displaced, position - s.ring.lap = cursor capacity k ∧
      s.accepted[k]? = some displaced ∧
        Displaces capacity (s.access t spurious).log t (cursor capacity k) displaced := by
  have hok := h.ownPc t
  rw [hpc] at hok
  obtain ⟨v, -, rfl, rfl, -⟩ := hok
  obtain rfl : r = v := (cursor_inj hcap).mp (h.read.symm.trans hcas)
  have hfull := (h.access_claim_both hcap spurious hpc hcas).1
  have hlt : r < s.accepted.length := by omega
  refine ⟨r, s.accepted[r], cursor_add_sub_lap hcap h r, List.getElem?_eq_getElem hlt,
    s.log, [], item, by simp [Threads.access, hpc, Ring.advance, hcas], ?_, ?_⟩
  · show s.accepted.length = s.claims.length + capacity
    rw [h.claims_length, hfull]
  · show s.accepted[s.claims.length]? = _
    rw [h.claims_length, List.getElem?_eq_getElem hlt]

lemma Logged.of_access [DecidableEq ι] (hcap : 0 < capacity) (hl : Logged capacity s)
    (h : Inv capacity s r w phase) (t : ι) (spurious : Bool) :
    Logged capacity (s.access t spurious) := by
  obtain ⟨ring', pc', events, hadv⟩ :
      ∃ ring' pc' events, s.ring.advance spurious (s.pc t) = (ring', pc', events) :=
    ⟨_, _, _, rfl⟩
  have hlap : ring'.lap = s.ring.lap := by
    have : (s.ring.advance spurious (s.pc t)).1.lap = s.ring.lap := by
      fun_cases Ring.advance s.ring spurious (s.pc t) <;> rfl
    rwa [hadv] at this
  have hkeep : ∀ (k : ℕ) (item : T), s.accepted[k]? = some item →
      (s.access t spurious).accepted[k]? = some item := by
    intro k item hk
    rw [Threads.access_eq hadv, Threads.accepted_append,
      List.getElem?_append_left (List.getElem?_eq_some_iff.mp hk).1, hk]
  have hlog : (s.access t spurious).log = s.log ++ events.map (t, ·) := by
    rw [Threads.access_eq hadv]
  have hfrom : ∀ u answer, (u, Event.returned answer) ∈ (s.access t spurious).log →
      (u, .returned answer) ∈ s.log ∨ u = t ∧ answer.From s.ring (s.pc t) := by
    intro u answer hu
    rw [hlog, List.mem_append] at hu
    refine hu.imp_right (fun hev => ?_)
    obtain ⟨e, he, heq⟩ := List.mem_map.mp hev
    obtain ⟨rfl, rfl⟩ := Prod.mk.inj heq
    exact ⟨rfl, Ring.advance_returned spurious (by rw [hadv]; exact he)⟩
  refine ⟨fun u p hu => ?_, fun u position item hu => ?_, fun u n hu => ?_⟩
  · -- the overwrites under way
    by_cases hut : u = t
    · subst u
      have hpc' : (s.ring.advance spurious (s.pc t)).2.1.overwriting s.ring.lap = some p := by
        simpa [Threads.access_eq hadv, hadv, hlap] using hu
      rcases Ring.advance_overwriting hpc' with hbefore | ⟨item, position, oldest, hpc, hcas, rfl⟩
      · obtain ⟨k, item, hk, hitem, hd⟩ := hl.overwriting t p hbefore
        exact ⟨k, item, hk, hkeep k item hitem, hlog ▸ hd.append⟩
      · obtain ⟨k, item, hk, hitem, hd⟩ :=
          h.displaces_claim hcap spurious hpc hcas
        exact ⟨k, item, hk, hkeep k item hitem, hk ▸ hd⟩
    · have hbefore : (s.pc u).overwriting s.ring.lap = some p := by
        simpa [Threads.access_eq hadv, hlap, Function.update_of_ne hut] using hu
      obtain ⟨k, item, hk, hitem, hd⟩ := hl.overwriting u p hbefore
      exact ⟨k, item, hk, hkeep k item hitem, hlog ▸ hd.append⟩
  · -- an overwrite that returns
    rcases hfrom u _ hu with hold | ⟨rfl, q, hpc, rfl⟩
    · exact hlog ▸ (hl.displaced u position item hold).append
    · obtain ⟨k, item', hk, hitem, hd⟩ := hl.overwriting u _ (by rw [hpc]; rfl)
      have hholding := h.holding (t := u) (by rw [hpc]; rfl)
      rw [hpc] at hholding
      cases hholding with
      | replaced v item hp hv =>
        rw [cursor_add_sub_lap hcap h] at hk hd ⊢
        obtain rfl := (cursor_inj hcap).mp hk
        obtain rfl : item = item' := Option.some.inj (hv.symm.trans hitem)
        exact hlog ▸ hd.append
  · -- a length that is returned
    rcases hfrom u _ hu with hold | ⟨rfl, read, write, hpc, rfl⟩
    · exact hl.count u n hold
    · exact h.count_le hcap hpc

lemma logged_new : Logged capacity (Threads.new capacity : Threads ι T) :=
  ⟨by simp [Threads.new, Pc.overwriting], by simp [Threads.new], by simp [Threads.new]⟩

variable [DecidableEq ι]

lemma logged_of_reachable (hcap : 0 < capacity) (hs : (ringSystem ι T capacity).Reachable s) :
    Logged capacity s := by
  refine hs.invariant' (P := Logged capacity) ?_ ?_
  · rintro s rfl
    exact logged_new
  · intro s a s' hr hl hstep
    obtain ⟨r, w, phase, h⟩ := inv_of_reachable hcap hr
    cases a with
    | push t item overwrite => exact hl.of_call hstep (fun _ => rfl)
    | pop t => exact hl.of_call hstep (fun _ => rfl)
    | len t => exact hl.of_call hstep (fun _ => rfl)
    | advance t spurious =>
      obtain ⟨-, -, rfl⟩ := Threads.next_advance hstep
      exact hl.of_access hcap h t spurious

lemma Threads.from_of_next {t : ι} {spurious : Bool} {s' : Threads ι T} {answer : Answer T}
    (hs : s.next (.advance t spurious) = some s') (hlog : s'.log = s.log ++ [(t, .returned answer)]) :
    answer.From s.ring (s.pc t) := by
  obtain ⟨-, -, rfl⟩ := Threads.next_advance hs
  have hevents : (s.ring.advance spurious (s.pc t)).2.2.map (t, ·) = [(t, .returned answer)] :=
    List.append_cancel_left hlog
  apply Ring.advance_returned spurious
  have hmem : (t, Event.returned answer) ∈ (s.ring.advance spurious (s.pc t)).2.2.map (t, ·) := by
    rw [hevents]
    exact List.mem_singleton_self _
  obtain ⟨e, he, heq⟩ := List.mem_map.mp hmem
  exact (Prod.mk.inj heq).2 ▸ he

lemma Logged.answered (hcap : 0 < capacity) (hl : Logged capacity s)
    (h : Inv capacity s r w phase) : s.Answered capacity := by
  refine ⟨?_, ?_, ?_, hl.displaced, hl.count⟩
  · rw [h.read, h.write, cursor_le_iff hcap]
    exact h.order
  · intro t spurious s' item hstep hlog
    obtain ⟨position, oldest, hpc, hread⟩ := Threads.from_of_next hstep hlog
    exact ⟨⟨position, oldest, hpc⟩, h.full_at_load hcap hpc hread⟩
  · intro t spurious s' hstep hlog
    obtain ⟨position, hpc, hwrite⟩ := Threads.from_of_next hstep hlog
    exact ⟨⟨position, hpc⟩, h.empty_at_load hcap hpc hwrite⟩

/-- Full, empty, displaced and length answers of a ring that any number of threads share. -/
theorem ring_answers_linearizable (hcap : 0 < capacity)
    (hs : (ringSystem ι T capacity).Reachable s) : s.Answered capacity := by
  obtain ⟨r, w, phase, h⟩ := inv_of_reachable hcap hs
  have hl := logged_of_reachable hcap hs
  exact hl.answered hcap h

end

/-- A full ring of one slot: an overwrite has displaced the first item, and a push that fails is
about to read the read cursor. -/
theorem ring_answers_linearizable_one_slot :
    ((System.replay Threads.next (Threads.new 1 : Threads (Fin 2) ℕ)
      ([.push 0 7 false] ++ .replicate 5 (.advance 0 false) ++ [.push 0 8 true] ++
        .replicate 7 (.advance 0 false) ++ [.push 1 9 false] ++
        .replicate 2 (.advance 1 false))).get rfl).Answered 1 :=
  ring_answers_linearizable (by decide) (System.reachable_replay rfl)

end DoomFishUtils.Spsc
