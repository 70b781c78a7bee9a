import DoomFishUtils.Library.History
import DoomFishUtils.Spsc.RaceFree

/-!
# The length of the ring

`len` loads both cursors and the read cursor once more, and goes around again if that has moved. Its
answer is the number of items that the ring holds at its last load of the write cursor, in the
interleavings and with the orderings of the source.
-/

namespace DoomFishUtils.Spsc
set_option autoImplicit false
open Library

/-- A load of the write cursor by `len`, in the state that it sees. -/
structure WriteLoad (ι T : Type*) where
  thread : ι
  state : Threads ι T

namespace Threads

variable {ι T : Type*}

/-- The load of the write cursor that a step makes for `len`. -/
def writeLoad (s : Threads ι T) : Action ι T → List (WriteLoad ι T)
  | .advance t _ =>
    match s.pc t with
    | .lenLoadWrite _ => [⟨t, s⟩]
    | _ => []
  | _ => []

/-- An overwrite has claimed both its positions and not moved the write cursor yet. -/
def Storing (s : Threads ι T) : Prop :=
  ∃ t item position, s.pc t = .pushStoreWrite item position

/-- So many items are accepted and not claimed, but for the one of an overwrite that has not moved
the write cursor. -/
def Counts (s : Threads ι T) (n : ℕ) : Prop :=
  (¬s.Storing ∧ s.accepted.length = s.claims.length + n) ∨
    (s.Storing ∧ s.accepted.length = s.claims.length + n + 1)

end Threads

section

variable {ι T : Type*} {capacity : ℕ} {s : Threads ι T} {r w : ℕ} {phase : ℕ → Phase ι}

/-- The cursors tell how many items the ring holds. -/
lemma Inv.counts (hcap : 0 < capacity) (h : Inv capacity s r w phase) : s.Counts (w - r) := by
  have horder := h.order
  unfold Threads.Counts
  rw [h.claims_length]
  by_cases hstoring : s.Storing
  · rcases hstoring with ⟨t, item, position, hpc⟩
    refine .inr ⟨⟨t, item, position, hpc⟩, ?_⟩
    have hholding := h.holding (t := t) (by rw [hpc]; rfl)
    rw [hpc] at hholding
    cases hholding with
    | claimed v item hphase hitem =>
      obtain ⟨slot, -, hok⟩ := h.slot_at (Nat.mod_lt v hcap)
      rw [hphase] at hok
      have := (hok.2.2.2.2.2 rfl).2
      omega
  · refine .inl ⟨hstoring, ?_⟩
    rcases h.window with heq | ⟨-, i, hi, v, t, hphase⟩
    · omega
    · have hok := h.holder i hi
      rw [hphase] at hok
      obtain ⟨item, -, hpc⟩ := hok
      exact absurd ⟨t, item, _, hpc⟩ hstoring

/-- Cursors that are at most one lap apart tell the number of items between them. -/
lemma Inv.count_cursor (hcap : 0 < capacity) (h : Inv capacity s r w phase) {v n : ℕ}
    (hn : n ≤ capacity) :
    s.ring.count (cursor capacity v) (cursor capacity (v + n)) = n := by
  have hlt := Nat.mod_lt v hcap
  have hsum : (v + n) % capacity = if v % capacity + n < capacity then v % capacity + n
      else v % capacity + n - capacity := by
    rw [← Nat.mod_add_mod]
    split_ifs with hfit
    · exact Nat.mod_eq_of_lt hfit
    · rw [Nat.mod_eq_sub_mod (by omega)]
      rcases Nat.lt_or_ge (v % capacity + n - capacity) capacity with hless | hge
      · exact Nat.mod_eq_of_lt hless
      · omega
  unfold Ring.count
  simp only [cursor_inj hcap, Ring.index_cursor hcap h.shaped, h.shaped.length, hsum]
  split_ifs <;> omega

variable [DecidableEq ι]

/-- Only a load of the write cursor comes before the second load of the read cursor. -/
lemma Ring.advance_lenReloadRead {ring : Ring T} {spurious : Bool} {pc : Pc T} {read write : ℕ}
    (h : (ring.advance spurious pc).2.1 = .lenReloadRead read write) :
    pc = .lenLoadWrite read ∧ write = ring.write := by
  revert h
  fun_cases Ring.advance ring spurious pc <;> intro h <;> simp_all

/-- What a thread that is about to load the read cursor again has seen: the ring held as many items
as lie between its two cursors, if its first load is still right. -/
def Remembers (capacity : ℕ) (s : Threads ι T) (loads : List (WriteLoad ι T)) (t : ι) : Prop :=
  ∀ read write, s.pc t = .lenReloadRead read write → ∃ seen v n,
    Latest (fun load => decide (load.thread = t)) loads ⟨t, seen⟩ ∧ seen.Counts n ∧ n ≤ capacity ∧
      read = cursor capacity v ∧ write = cursor capacity (seen.claims.length + n) ∧
      v ≤ seen.claims.length ∧ seen.claims.length ≤ s.claims.length

lemma Threads.claims_le (s : Threads ι T) (t : ι) (spurious : Bool) :
    s.claims.length ≤ (s.access t spurious).claims.length := by
  unfold Threads.access
  rw [Threads.claims_append, List.length_append]
  exact Nat.le_add_right _ _

/-- A step that moves one thread to another place. -/
lemma Remembers.move {loads : List (WriteLoad ι T)} {u : ι} (hu : Remembers capacity s loads u)
    (t : ι) {pc : Pc T} (hpc : ∀ read write, pc ≠ .lenReloadRead read write) :
    Remembers capacity { s with pc := Function.update s.pc t pc } loads u := by
  intro read write hafter
  change Function.update s.pc t pc u = .lenReloadRead read write at hafter
  by_cases hut : u = t
  · rw [hut, Function.update_self] at hafter
    exact absurd hafter (hpc read write)
  · rw [Function.update_of_ne hut] at hafter
    exact hu read write hafter

lemma Remembers.call {loads : List (WriteLoad ι T)} {u : ι} (hu : Remembers capacity s loads u)
    {t : ι} {entry : Pc T} {s' : Threads ι T} (hs : s.call t entry = some s')
    (hentry : ∀ read write, entry ≠ .lenReloadRead read write) : Remembers capacity s' loads u := by
  unfold Threads.call at hs
  split at hs
  case h_2 => cases hs
  cases hs
  exact hu.move t hentry

lemma Remembers.access (hcap : 0 < capacity) (h : Inv capacity s r w phase)
    {loads : List (WriteLoad ι T)} {u : ι} (hu : Remembers capacity s loads u) (t : ι)
    (spurious : Bool) :
    Remembers capacity (s.access t spurious) (s.writeLoad (.advance t spurious) ++ loads) u := by
  intro read write hpc
  have hclaims := s.claims_le t spurious
  by_cases hut : u = t
  · subst hut
    have hafter : (s.ring.advance spurious (s.pc u)).2.1 = .lenReloadRead read write := by
      rw [← hpc]
      exact (Function.update_self (f := s.pc) u _).symm
    rcases Ring.advance_lenReloadRead hafter with ⟨hbefore, rfl⟩
    have hlocal := h.ownPc u
    rw [hbefore] at hlocal
    obtain ⟨v, hv, rfl⟩ := hlocal
    have horder := h.order
    have hbound := h.write_le_accepted.trans h.bound
    have hnote : s.writeLoad (.advance u spurious) = [⟨u, s⟩] := by
      simp only [Threads.writeLoad, hbefore]
    refine ⟨s, v, w - r, ?_, h.counts hcap, by omega, rfl, ?_, ?_, hclaims⟩
    · rw [hnote]
      exact List.find?_cons_of_pos (by simp)
    · rw [h.write, h.claims_length, Nat.add_sub_cancel' horder]
    · rw [h.claims_length]
      exact hv
  · have hbefore : s.pc u = .lenReloadRead read write := by
      rw [← hpc]
      exact (Function.update_of_ne hut ..).symm
    rcases hu read write hbefore with ⟨seen, v, n, hlatest, hseen, hn, hread, hwrite, hv, hle⟩
    refine ⟨seen, v, n, ?_, hseen, hn, hread, hwrite, hv, hle.trans hclaims⟩
    refine (latest_append_of_neg ?_).mpr hlatest
    intro load hload
    have hthread : load.thread = t := by
      unfold Threads.writeLoad at hload
      dsimp only at hload
      split at hload
      · rw [List.mem_singleton.mp hload]
      · cases hload
    exact decide_eq_false fun heq => hut (heq.symm.trans hthread)

lemma Remembers.step (hcap : 0 < capacity) (h : Inv capacity s r w phase)
    {loads : List (WriteLoad ι T)} {u : ι} (hu : Remembers capacity s loads u) {a : Action ι T}
    {s' : Threads ι T} (hstep : s.next a = some s') :
    Remembers capacity s' (s.writeLoad a ++ loads) u := by
  cases a with
  | push t item overwrite => exact hu.call hstep (fun _ _ hpc => by cases hpc)
  | pop t => exact hu.call hstep (fun _ _ hpc => by cases hpc)
  | len t => exact hu.call hstep (fun _ _ hpc => by cases hpc)
  | advance t spurious =>
    obtain ⟨-, -, rfl⟩ := Threads.next_advance hstep
    exact hu.access hcap h t spurious

/-- The answer of a thread that remembers what it has seen. -/
lemma Remembers.answer (hcap : 0 < capacity) (h : Inv capacity s r w phase)
    {loads : List (WriteLoad ι T)} {t : ι} (ht : Remembers capacity s loads t) {spurious : Bool}
    {s' : Threads ι T} {n : ℕ} (hstep : s.next (.advance t spurious) = some s')
    (hlog : s'.log = s.log ++ [(t, .returned (.count n))]) :
    ∃ seen, Latest (fun load => decide (load.thread = t)) loads ⟨t, seen⟩ ∧ seen.Counts n := by
  rcases Threads.from_of_next hstep hlog with ⟨read, write, hpc, rfl⟩
  rcases ht read write hpc with ⟨seen, v, n, hlatest, hseen, hn, rfl, rfl, hv, hle⟩
  -- The second load has found the first one, so nothing has been claimed in between.
  have hread : s.ring.read = cursor capacity v := by
    by_contra hmoved
    obtain ⟨-, -, rfl⟩ := Threads.next_advance hstep
    have hafter : (s.access t spurious).log = s.log ++ [] := by
      simp [Threads.access, hpc, Ring.advance, hmoved]
    rw [hafter] at hlog
    exact absurd (List.append_cancel_left hlog) (by simp)
  obtain rfl : r = v := (cursor_inj hcap).mp (h.read.symm.trans hread)
  rw [h.claims_length] at hle
  obtain hsame : seen.claims.length = r := Nat.le_antisymm hle hv
  rw [hsame, h.count_cursor hcap hn]
  exact ⟨seen, hlatest, hseen⟩

lemma remembers_of_reachable (hcap : 0 < capacity) {loads : List (WriteLoad ι T)}
    (hs : ((ringSystem ι T capacity).recorded Threads.writeLoad).Reachable (s, loads)) (t : ι) :
    Remembers capacity s loads t := by
  refine hs.invariant' (P := fun state => Remembers capacity state.1 state.2 t) ?_ ?_
  · rintro ⟨s, loads⟩ ⟨rfl, -⟩ read write hpc
    cases hpc
  · rintro ⟨s, loads⟩ a ⟨s', loads'⟩ hreach hbefore ⟨hstep, rfl⟩
    rcases inv_of_reachable hcap hreach.of_recorded with ⟨r, w, phase, h⟩
    exact hbefore.step hcap h hstep

/-- The answer of `len` is right at its last load of the write cursor, whatever the other threads
do meanwhile. -/
theorem ring_length_linearizable (hcap : 0 < capacity) {loads : List (WriteLoad ι T)}
    (hs : ((ringSystem ι T capacity).recorded Threads.writeLoad).Reachable (s, loads)) {t : ι}
    {spurious : Bool} {s' : Threads ι T} {n : ℕ} (hstep : s.next (.advance t spurious) = some s')
    (hlog : s'.log = s.log ++ [(t, .returned (.count n))]) :
    ∃ seen, Latest (fun load => decide (load.thread = t)) loads ⟨t, seen⟩ ∧ seen.Counts n := by
  rcases inv_of_reachable hcap hs.of_recorded with ⟨r, w, phase, h⟩
  exact (remembers_of_reachable hcap hs t).answer hcap h hstep hlog

end

/-- A `len` that loads the write cursor between the two claims of an overwrite and the store. -/
theorem ring_length_linearizable_storing :
    let as : List (Action (Fin 2) ℕ) := [.push 0 7 false] ++ .replicate 5 (.advance 0 false) ++
      [.push 0 8 true] ++ .replicate 4 (.advance 0 false) ++ [.len 1] ++
      .replicate 2 (.advance 1 false)
    let state := (System.replay (System.recordedNext Threads.next Threads.writeLoad)
      (Threads.new 1, []) as).get rfl
    ∃ seen, Latest (fun load => decide (load.thread = 1)) state.2 ⟨1, seen⟩ ∧ seen.Counts 0 := by
  intro as state
  have hreach : ((ringSystem (Fin 2) ℕ 1).recorded Threads.writeLoad).Reachable state :=
    System.reachable_recorded_replay rfl
  have hstep : state.1.next (.advance 1 false) = some (state.1.access 1 false) := rfl
  exact ring_length_linearizable Nat.zero_lt_one hreach hstep rfl

/-! ### With the orderings of the source -/

/-- The load of the write cursor that a step makes for `len`; a load of a stamp is none. -/
def WeakThreads.writeLoad {ι T : Type*} (s : WeakThreads ι T) : WeakAction ι T → List (WriteLoad ι T)
  | .step action => s.threads.writeLoad action
  | .loadStamp _ _ => []

section

variable {ι T : Type*} [DecidableEq ι] {capacity : ℕ} {s : WeakThreads ι T}
  {loads : List (WriteLoad ι T)}

/-- An access other than a load of a stamp is a step of the interleavings. -/
lemma WeakThreads.next_step {a : Action ι T} {s' : WeakThreads ι T}
    (hstep : s.next (.step a) = some s') : s.threads.next a = some s'.threads := by
  cases a with
  | push t item overwrite | pop t | len t =>
    obtain ⟨threads, hthreads, rfl⟩ := Option.map_eq_some_iff.mp hstep
    exact hthreads
  | advance t spurious =>
    rw [WeakThreads.next] at hstep
    split at hstep
    · cases hstep
    · obtain ⟨threads, hthreads, rfl⟩ := Option.map_eq_some_iff.mp hstep
      exact hthreads

omit [DecidableEq ι] in
lemma Pc.afterStamp_ne_lenReloadRead {pc : Pc T} (hpc : pc.loading.isSome = true) (ring : Ring T)
    (stamp read write : ℕ) : pc.afterStamp ring stamp ≠ .lenReloadRead read write := by
  intro hafter
  rcases Option.isSome_iff_exists.mp hpc with ⟨position, hpc⟩
  cases pc <;> cases hpc <;> unfold Pc.afterStamp at hafter <;> dsimp only at hafter
  case pushLoadStamp =>
    split_ifs at hafter
    cases hoff : ring.oldest position <;> rw [hoff] at hafter
    · cases hafter
    · dsimp only at hafter
      split_ifs at hafter
  case popLoadStamp => split_ifs at hafter

lemma weak_remembers_of_reachable (hcap : 0 < capacity)
    (hs : ((weakRingSystem ι T capacity).recorded WeakThreads.writeLoad).Reachable (s, loads))
    (t : ι) : Remembers capacity s.threads loads t := by
  refine hs.invariant' (P := fun state => Remembers capacity state.1.threads state.2 t) ?_ ?_
  · rintro ⟨s, loads⟩ ⟨rfl, -⟩ read write hpc
    cases hpc
  · rintro ⟨s, loads⟩ a ⟨s', loads'⟩ hreach hbefore ⟨hstep, rfl⟩
    cases a with
    | step action =>
      rcases (weakInv_of_reachable hcap hreach.of_recorded).inv with ⟨r, w, phase, h⟩
      exact hbefore.step hcap h (WeakThreads.next_step hstep)
    | loadStamp u index =>
      obtain ⟨position, hpc, hstep⟩ := Option.bind_eq_some_iff.mp hstep
      obtain ⟨message, -, hstep⟩ := Option.bind_eq_some_iff.mp hstep
      split_ifs at hstep
      cases hstep
      have hloading : (s.threads.pc u).loading.isSome = true := by rw [hpc]; rfl
      exact hbefore.move u (Pc.afterStamp_ne_lenReloadRead hloading s.threads.ring message.value)

/-- Under release and acquire too the answer of `len` is right at its last load of the write cursor,
which is sequentially consistent. -/
theorem weak_ring_length_linearizable (hcap : 0 < capacity)
    (hs : ((weakRingSystem ι T capacity).recorded WeakThreads.writeLoad).Reachable (s, loads))
    {t : ι} {spurious : Bool} {s' : WeakThreads ι T} {n : ℕ}
    (hstep : s.next (.step (.advance t spurious)) = some s')
    (hlog : s'.threads.log = s.threads.log ++ [(t, .returned (.count n))]) :
    ∃ seen, Latest (fun load => decide (load.thread = t)) loads ⟨t, seen⟩ ∧ seen.Counts n := by
  rcases (weakInv_of_reachable hcap hs.of_recorded).inv with ⟨r, w, phase, h⟩
  exact (weak_remembers_of_reachable hcap hs t).answer hcap h (WeakThreads.next_step hstep) hlog

end

/-- A `len` that counts one item while a pop, which has found the stamp of the item, has not claimed
it yet. -/
theorem weak_ring_length_linearizable_popping :
    let as : List (WeakAction (Fin 2) ℕ) :=
      [.step (.push 0 7 false), .step (.advance 0 false), .loadStamp 0 0] ++
        .replicate 3 (.step (.advance 0 false)) ++
        [.step (.pop 0), .step (.advance 0 false), .loadStamp 0 1, .step (.len 1)] ++
        .replicate 2 (.step (.advance 1 false))
    let state := (System.replay (System.recordedNext WeakThreads.next WeakThreads.writeLoad)
      (WeakThreads.new 1, []) as).get rfl
    ∃ seen, Latest (fun load => decide (load.thread = 1)) state.2 ⟨1, seen⟩ ∧ seen.Counts 1 := by
  intro as state
  have hreach : ((weakRingSystem (Fin 2) ℕ 1).recorded WeakThreads.writeLoad).Reachable state :=
    System.reachable_recorded_replay rfl
  have hstep : state.1.next (.step (.advance 1 false)) = some (state.1.access 1 false) := rfl
  exact weak_ring_length_linearizable Nat.zero_lt_one hreach hstep (by decide +kernel)

end DoomFishUtils.Spsc
