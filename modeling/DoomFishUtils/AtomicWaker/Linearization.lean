import DoomFishUtils.AtomicWaker.Atomic

/-!
# The calls of the atomic waker take effect at once

A registration takes effect at its last access to the word, or when a `wake` or a `take` leaves its
work to it, whichever comes first; these take effect at their `fetch_or`.  Each step of the code is
matched by the steps of the atomic waker that take effect there.
-/

namespace DoomFishUtils.AtomicWaker.Concurrent

set_option autoImplicit false

open Library

variable {ι W : Type}

/-- What a note is to the callers and the tasks. -/
def Note.event : Note W → Option (Atomic.Event W)
  | .called call => some (.called call)
  | .returned => some .returned
  | .woke waker | .wokeByRef waker => some (.woke waker)
  | .handedOut waker => some (.handedOut waker)
  | _ => none

def seen (log : List (ι × Note W)) : List (ι × Atomic.Event W) :=
  log.filterMap fun entry => entry.2.event.map (Prod.mk entry.1)

/-- The cell as the atomic waker holds it. -/
def Memory.cell (memory : Memory W) : AtomicWaker W :=
  ⟨memory.waker⟩

namespace Pc

/-- How far the call of the thread is. -/
def phase (memory : Memory W) : Pc W → Atomic.Phase W
  | .idle | .fault => .idle
  | .compareWaiting waker => .called (.register waker)
  | .update waker | .compareRegistering waker =>
    -- a `wake` or a `take` that came meanwhile counts on the registration
    if memory.state = registering then .called (.register waker) else .done (.register waker)
  | .retake waker | .reset waker _ | .wakeTaken waker _ | .wakeByRef waker =>
    .done (.register waker)
  | .fetchOr taker => .called (.taking taker)
  | .remove taker | .unlock taker _ | .deliver taker _ => .done (.taking taker)

/-- The waker that the thread has still to give away. -/
def due [TaskWaker W] (memory : Memory W) : Pc W → Option W
  | .update waker =>
    if memory.state = registering then none else (memory.cell.register waker).waker
  | .compareRegistering _ => if memory.state = registering then none else memory.waker
  | .retake _ | .remove _ => memory.waker
  | .reset _ taken | .wakeTaken _ taken => some taken
  | .wakeByRef waker => some waker
  | .unlock _ taken | .deliver _ taken => taken
  | _ => none

end Pc

/-- The cell of the atomic waker, from what is in memory and who holds it. -/
structure Fills [TaskWaker W] (memory : Memory W) (pc : ι → Pc W) (cell : AtomicWaker W) : Prop where
  free : memory.state = waiting → cell = memory.cell
  taken : memory.state ≠ waiting → memory.state ≠ registering → cell.waker = none
  updating : ∀ t waker, pc t = .update waker → memory.state = registering → cell = memory.cell
  updated : ∀ t waker, pc t = .compareRegistering waker → memory.state = registering →
    cell.register waker = memory.cell

/-- An atomic waker that does what the code does. -/
structure Matches [TaskWaker W] (world : World ι W) (atomic : Atomic.World ι W) : Prop where
  guards : Guards world.memory world.pc
  log : atomic.log = seen world.log
  phase : ∀ t, atomic.phase t = (world.pc t).phase world.memory
  due : ∀ t, atomic.due t = (world.pc t).due world.memory
  fills : Fills world.memory world.pc atomic.cell

section Cells

variable [TaskWaker W] {memory memory' : Memory W} {pc : ι → Pc W} {cell : AtomicWaker W}

omit [TaskWaker W] in
lemma Pc.phase_of_outside {pc : Pc W} (h : pc.inside = false) :
    pc.phase memory' = pc.phase memory := by
  cases pc <;> first | rfl | cases h

lemma Pc.due_of_outside {pc : Pc W} (h : pc.inside = false) :
    pc.due memory' = pc.due memory := by
  cases pc <;> first | rfl | cases h

lemma fills_of_waiting (hstate : memory.state = waiting) (hcell : cell = memory.cell) :
    Fills memory pc cell where
  free _ := hcell
  taken hne := absurd hstate hne
  updating _ _ _ hregistering := absurd (hstate.symm.trans hregistering) (by decide)
  updated _ _ _ hregistering := absurd (hstate.symm.trans hregistering) (by decide)

lemma fills_of_taken (hwaiting : memory.state ≠ waiting) (hregistering : memory.state ≠ registering)
    (hcell : cell.waker = none) : Fills memory pc cell where
  free h := absurd h hwaiting
  taken _ _ := hcell
  updating _ _ _ h := absurd h hregistering
  updated _ _ _ h := absurd h hregistering

lemma fills_of_registering (hstate : memory.state = registering)
    (hupdating : ∀ t waker, pc t = .update waker → cell = memory.cell)
    (hupdated : ∀ t waker, pc t = .compareRegistering waker → cell.register waker = memory.cell) : Fills memory pc cell where
  free h := absurd (hstate.symm.trans h) (by decide)
  taken _ h := absurd hstate h
  updating t waker hpc _ := hupdating t waker hpc
  updated t waker hpc _ := hupdated t waker hpc

/-- A step that leaves the memory alone, of a thread that stays outside. -/
lemma Fills.passes [DecidableEq ι] (h : Fills memory pc cell) {t : ι} {pc' : Pc W}
    (houtside : pc'.inside = false) : Fills memory (Function.update pc t pc') cell := by
  have hold : ∀ u pc'', pc''.inside = true → Function.update pc t pc' u = pc'' → pc u = pc'' := by
    intro u pc'' hinside hu
    rcases eq_or_ne u t with rfl | hne
    · rw [Function.update_self] at hu
      rw [hu, hinside] at houtside
      cases houtside
    · rwa [Function.update_of_ne hne] at hu
  exact ⟨h.free, h.taken, fun u waker hu => h.updating u waker (hold u _ rfl hu),
    fun u waker hu => h.updated u waker (hold u _ rfl hu)⟩

end Cells

section Steps

variable [DecidableEq ι] [TaskWaker W] {world : World ι W} {atomic atomic' : Atomic.World ι W}
  {t : ι} {result : Stepped W}

omit [DecidableEq ι] [TaskWaker W] in
lemma seen_append (first second : List (ι × Note W)) :
    seen (first ++ second) = seen first ++ seen second :=
  List.filterMap_append

/-- The atomic waker after a step, if the thread of the step and the others are where they should
be. -/
lemma Matches.of_step (h : Matches world atomic) (hnext : (world.pc t).next world.memory = some result)
    (hlog : atomic'.log = seen (result.notes.map (Prod.mk t)) ++ atomic.log)
    (hphase : atomic'.phase t = result.pc.phase result.memory)
    (hdue : atomic'.due t = result.pc.due result.memory)
    (hothers : ∀ u, u ≠ t → atomic'.phase u = (world.pc u).phase result.memory ∧
      atomic'.due u = (world.pc u).due result.memory)
    (hfills : Fills result.memory (Function.update world.pc t result.pc) atomic'.cell) :
    Matches (world.stepped t result) atomic' where
  guards := h.guards.next hnext
  log := by
    rw [hlog, h.log]
    exact (seen_append _ _).symm
  phase u := by
    change atomic'.phase u = (Function.update world.pc t result.pc u).phase result.memory
    rcases eq_or_ne u t with rfl | hne
    · rw [Function.update_self, hphase]
    · rw [Function.update_of_ne hne, (hothers u hne).1]
  due u := by
    change atomic'.due u = (Function.update world.pc t result.pc u).due result.memory
    rcases eq_or_ne u t with rfl | hne
    · rw [Function.update_self, hdue]
    · rw [Function.update_of_ne hne, (hothers u hne).2]
  fills := hfills

omit [DecidableEq ι] in
/-- Threads that are outside are where they were, whatever happens to the memory. -/
lemma Matches.others (h : Matches world atomic) {memory : Memory W} {u : ι}
    (houtside : (world.pc u).inside = false) :
    atomic.phase u = (world.pc u).phase memory ∧ atomic.due u = (world.pc u).due memory :=
  ⟨(h.phase u).trans (Pc.phase_of_outside houtside).symm,
    (h.due u).trans (Pc.due_of_outside houtside).symm⟩

/-- The atomic waker can do in some steps what the code does in one. -/
def Matched (atomic : Atomic.World ι W) (world' : World ι W) : Prop :=
  ∃ actions atomic', (Atomic.atomicSystem ι W).Run atomic actions atomic' ∧ Matches world' atomic'

/-- A step that nobody sees. -/
lemma Matches.silent (h : Matches world atomic) (hnext : (world.pc t).next world.memory = some result)
    (hnotes : seen (result.notes.map (Prod.mk t)) = [])
    (hphase : (world.pc t).phase world.memory = result.pc.phase result.memory)
    (hdue : (world.pc t).due world.memory = result.pc.due result.memory)
    (hothers : ∀ u, u ≠ t → (world.pc u).inside = false)
    (hfills : Fills result.memory (Function.update world.pc t result.pc) atomic.cell) :
    Matched atomic (world.stepped t result) := by
  refine ⟨[], atomic, .nil, h.of_step hnext ?_ ?_ ?_ (fun u hne => h.others (hothers u hne)) hfills⟩
  · rw [hnotes, List.nil_append]
  · rw [h.phase, hphase]
  · rw [h.due, hdue]

/-- The end of a call that has taken effect and owes no waker. -/
lemma run_return {call : Call W} (hphase : atomic.phase t = .done call) (hdue : atomic.due t = none) :
    (Atomic.atomicSystem ι W).Run atomic [.return t] ((atomic.put t .idle none).note t .returned) :=
  System.run_of_replay (by simp [System.replay, Atomic.World.next, hphase, hdue])

/-- What becomes of the waker that is owed, and the end of the call. -/
lemma run_deliver {call : Call W} {waker : W} (hphase : atomic.phase t = .done call)
    (hdue : atomic.due t = some waker) :
    (Atomic.atomicSystem ι W).Run atomic [.deliver t, .return t]
      (((atomic.put t .idle none).note t (.given call waker)).note t .returned) := by
  refine System.run_of_replay ?_
  simp [System.replay, Atomic.World.next, Atomic.World.note, hphase, hdue, Atomic.World.put,
    Function.update_idem]

omit [TaskWaker W] in
/-- The thread that is inside after a step. -/
lemma update_eq_inside {pc : ι → Pc W} {pc' pc'' : Pc W} {u : ι}
    (hothers : ∀ u, u ≠ t → (pc u).inside = false) (hinside : pc''.inside = true)
    (hu : Function.update pc t pc' u = pc'') : pc' = pc'' := by
  rcases eq_or_ne u t with rfl | hne
  · rwa [Function.update_self] at hu
  · rw [Function.update_of_ne hne] at hu
    rw [← hu, hothers u hne] at hinside
    cases hinside

omit [DecidableEq ι] [TaskWaker W] in
lemma Pc.phase_isRegister {memory : Memory W} {pc : Pc W} (h : pc.inRegister = true) :
    (pc.phase memory).isRegister = true := by
  cases pc <;> try cases h
  · unfold Pc.phase
    split_ifs <;> rfl
  · unfold Pc.phase
    split_ifs <;> rfl
  · rfl
  · rfl

/-! ### Registrations -/

/-- A registration that gets hold of the cell. -/
lemma Matches.compareWaiting_free (h : Matches world atomic) {waker : W}
    (hpc : world.pc t = .compareWaiting waker) (hwaiting : world.memory.state = waiting) :
    Matched atomic (world.stepped t (Concurrent.compareWaiting world.memory waker)) := by
  have hresult : Concurrent.compareWaiting world.memory waker =
      ⟨{ world.memory with state := registering }, .update waker, [.registered waker]⟩ :=
    if_pos hwaiting
  have hnext : (world.pc t).next world.memory =
      some (Concurrent.compareWaiting world.memory waker) := by rw [hpc]; rfl
  have hothers : ∀ u, u ≠ t → (world.pc u).inside = false :=
    fun u _ => h.guards.outside_of_waiting hwaiting u
  rw [hresult] at hnext ⊢
  refine h.silent hnext rfl ?_ ?_ hothers ?_
  · simp [hpc, Pc.phase]
  · simp [hpc, Pc.due]
  · refine fills_of_registering rfl (fun _ _ _ => h.fills.free hwaiting) fun u waker' hu => ?_
    cases update_eq_inside hothers rfl hu

/-- A registration that finds another one in its way. -/
lemma Matches.compareWaiting_register (h : Matches world atomic) {waker : W}
    (hpc : world.pc t = .compareWaiting waker) {u : ι} (hne : u ≠ t)
    (hu : (world.pc u).inRegister = true) :
    Matched atomic (world.stepped t (Concurrent.compareWaiting world.memory waker)) := by
  have hresult : Concurrent.compareWaiting world.memory waker =
      ⟨world.memory, .idle, [.returned]⟩ := by
    unfold Concurrent.compareWaiting
    rcases (h.guards.fits u).inRegister hu with heq | heq <;> rw [heq] <;> rfl
  have hnext : (world.pc t).next world.memory =
      some (Concurrent.compareWaiting world.memory waker) := by rw [hpc]; rfl
  have hphase : atomic.phase t = .called (.register waker) := by rw [h.phase, hpc]; rfl
  have hother : (atomic.phase u).isRegister = true := by
    rw [h.phase]
    exact Pc.phase_isRegister hu
  have hrun : (Atomic.atomicSystem ι W).Run atomic [.giveWay t u]
      (atomic.put t (.done (.register waker)) none) :=
    System.run_of_replay (by simp [System.replay, Atomic.World.next, hphase, hne.symm, hother])
  rw [hresult] at hnext ⊢
  refine ⟨_, _, hrun.append (run_return (Atomic.World.put_phase_self _ _)
    (Atomic.World.put_due_self _ _)), h.of_step hnext rfl ?_ ?_ ?_ (h.fills.passes rfl)⟩
  · simp [Atomic.World.note, Pc.phase]
  · simp [Atomic.World.note, Pc.due]
  · intro v hv
    simp [Atomic.World.note, Atomic.World.put, hv, h.phase v, h.due v]

/-- A registration that finds a `wake` or a `take` in its way. -/
lemma Matches.compareWaiting_take (h : Matches world atomic) {waker : W}
    (hpc : world.pc t = .compareWaiting waker) {u : ι} (hu : (world.pc u).inTake = true) :
    Matched atomic (world.stepped t (Concurrent.compareWaiting world.memory waker)) := by
  have hstate := (h.guards.fits u).inTake hu
  have hresult : Concurrent.compareWaiting world.memory waker =
      ⟨world.memory, .wakeByRef waker, [.registered waker]⟩ := by
    unfold Concurrent.compareWaiting
    rw [hstate]
    rfl
  have hnext : (world.pc t).next world.memory =
      some (Concurrent.compareWaiting world.memory waker) := by rw [hpc]; rfl
  have hphase : atomic.phase t = .called (.register waker) := by rw [h.phase, hpc]; rfl
  obtain ⟨taker, hother⟩ : ∃ taker, atomic.phase u = .done (.taking taker) := by
    rw [h.phase]
    rcases hpcu : world.pc u <;> rw [hpcu] at hu <;> first | exact ⟨_, rfl⟩ | cases hu
  have hcell : atomic.cell.waker = none :=
    h.fills.taken (by rw [hstate]; decide) (by rw [hstate]; decide)
  have hrun : (Atomic.atomicSystem ι W).Run atomic [.bounce t u]
      (atomic.put t (.done (.register waker)) (some waker)) :=
    System.run_of_replay (by simp [System.replay, Atomic.World.next, hphase, hother, hcell])
  rw [hresult] at hnext ⊢
  refine ⟨_, _, hrun, h.of_step hnext rfl ?_ ?_ ?_ (h.fills.passes rfl)⟩
  · simp [Pc.phase]
  · simp [Pc.due]
  · intro v hv
    simp [Atomic.World.put, hv, h.phase v, h.due v]

omit [DecidableEq ι] in
/-- The cell after `update`, and that nobody sees the step. -/
lemma update_eq (memory : Memory W) (waker : W) :
    ∃ notes : List (Note W), (∀ t : ι, seen (notes.map (Prod.mk t)) = []) ∧
      Concurrent.update memory waker =
        ⟨⟨memory.state, (memory.cell.register waker).waker⟩, .compareRegistering waker, notes⟩ := by
  unfold Concurrent.update AtomicWaker.register Memory.cell
  rcases hwaker : memory.waker with _ | old
  · exact ⟨_, fun _ => rfl, rfl⟩
  · dsimp only
    split_ifs
    · exact ⟨[], fun _ => rfl, by rw [← hwaker]⟩
    · exact ⟨_, fun _ => rfl, rfl⟩

lemma Matches.update (h : Matches world atomic) {waker : W} (hpc : world.pc t = .update waker) :
    Matched atomic (world.stepped t (Concurrent.update world.memory waker)) := by
  have hinside : (world.pc t).inside = true := by rw [hpc]; rfl
  have hstate := (h.guards.fits t).inRegister (by rw [hpc]; rfl)
  have hothers : ∀ u, u ≠ t → (world.pc u).inside = false :=
    fun u hne => h.guards.outside_of_inside hinside hne
  rcases update_eq (ι := ι) world.memory waker with ⟨notes, hnotes, hresult⟩
  have hnext : (world.pc t).next world.memory =
      some (Concurrent.update world.memory waker) := by rw [hpc]; rfl
  rw [hresult] at hnext ⊢
  refine h.silent hnext (hnotes t) ?_ ?_ hothers ?_
  · rw [hpc]
    rfl
  · rw [hpc]
    rfl
  · rcases hstate with heq | heq
    · refine fills_of_registering heq (fun u waker' hu => ?_) fun u waker' hu => ?_
      · cases update_eq_inside hothers rfl hu
      · cases update_eq_inside hothers rfl hu
        rw [h.fills.updating t waker hpc heq]
        rfl
    · have hword : world.memory.state ≠ waiting ∧ world.memory.state ≠ registering := by
        rw [heq]
        decide
      exact fills_of_taken hword.1 hword.2 (h.fills.taken hword.1 hword.2)

/-- A thread inside goes on and leaves the word of the two bits. -/
lemma Matches.silent_inside (h : Matches world atomic) (hinside : (world.pc t).inside = true)
    (hnext : (world.pc t).next world.memory = some result)
    (hnotes : seen (result.notes.map (Prod.mk t)) = [])
    (hphase : (world.pc t).phase world.memory = result.pc.phase result.memory)
    (hdue : (world.pc t).due world.memory = result.pc.due result.memory)
    (hbefore : world.memory.state ≠ registering)
    (hafter : result.memory.state = world.memory.state ∨
      result.memory.state = waiting ∧ result.memory.waker = none) :
    Matched atomic (world.stepped t result) := by
  have hwaiting := (h.guards.fits t).not_waiting hinside
  have hcell := h.fills.taken hwaiting hbefore
  refine h.silent hnext hnotes hphase hdue (fun u hne => h.guards.outside_of_inside hinside hne) ?_
  rcases hafter with hsame | ⟨hstate, hwaker⟩
  · exact fills_of_taken (by rwa [hsame]) (by rwa [hsame]) hcell
  · refine fills_of_waiting hstate ?_
    unfold Memory.cell
    rw [hwaker, ← hcell]

lemma Matches.compareRegistering (h : Matches world atomic) {waker : W}
    (hpc : world.pc t = .compareRegistering waker) :
    Matched atomic (world.stepped t (Concurrent.compareRegistering world.memory waker)) := by
  have hinside : (world.pc t).inside = true := by rw [hpc]; rfl
  have hnext : (world.pc t).next world.memory =
      some (Concurrent.compareRegistering world.memory waker) := by rw [hpc]; rfl
  rcases (h.guards.fits t).inRegister (by rw [hpc]; rfl) with hstate | hstate
  · -- the registration takes effect here
    have hresult : Concurrent.compareRegistering world.memory waker =
        ⟨{ world.memory with state := waiting }, .idle, [.returned]⟩ := if_pos hstate
    have hphase : atomic.phase t = .called (.register waker) := by
      rw [h.phase, hpc]
      exact if_pos hstate
    have hrun : (Atomic.atomicSystem ι W).Run atomic [.effect t, .return t]
        { (atomic.put t .idle none).note t .returned with cell := atomic.cell.register waker } :=
      System.run_of_replay (by simp [System.replay, Atomic.World.next, hphase, Atomic.World.note,
        Atomic.World.put])
    rw [hresult] at hnext ⊢
    refine ⟨_, _, hrun, h.of_step hnext rfl ?_ ?_ ?_ ?_⟩
    · simp [Atomic.World.note, Pc.phase]
    · simp [Atomic.World.note, Pc.due]
    · intro v hv
      simp only [Atomic.World.note, Atomic.World.put, Function.update_of_ne hv]
      exact h.others (h.guards.outside_of_inside hinside hv)
    · exact fills_of_waiting rfl (h.fills.updated t waker hpc hstate)
  · have hresult : Concurrent.compareRegistering world.memory waker =
        ⟨world.memory, .retake waker, []⟩ := by
      unfold Concurrent.compareRegistering
      rw [hstate]
      rfl
    have hne : world.memory.state ≠ registering := by
      rw [hstate]
      decide
    rw [hresult] at hnext ⊢
    refine h.silent_inside hinside hnext rfl ?_ ?_ hne (.inl rfl)
    · rw [hpc]
      exact if_neg hne
    · rw [hpc]
      exact if_neg hne

lemma Matches.retake (h : Matches world atomic) {waker : W} (hpc : world.pc t = .retake waker) :
    Matched atomic (world.stepped t (Concurrent.retake world.memory waker)) := by
  have hfits := h.guards.fits t
  rw [hpc] at hfits
  rcases hfits with ⟨hstate, stored, hstored, -⟩
  have hresult : Concurrent.retake world.memory waker =
      ⟨{ world.memory with waker := none }, .reset waker stored, [.taken stored]⟩ := by
    unfold Concurrent.retake
    rw [hstored]
  have hnext : (world.pc t).next world.memory =
      some (Concurrent.retake world.memory waker) := by rw [hpc]; rfl
  rw [hresult] at hnext ⊢
  refine h.silent_inside (by rw [hpc]; rfl) hnext rfl ?_ ?_ (by rw [hstate]; decide) (.inl rfl)
  · rw [hpc]
    rfl
  · rw [hpc]
    exact hstored

lemma Matches.reset (h : Matches world atomic) {waker taken : W}
    (hpc : world.pc t = .reset waker taken) :
    Matched atomic (world.stepped t
      ⟨{ world.memory with state := waiting }, .wakeTaken waker taken, []⟩) := by
  have hfits := h.guards.fits t
  rw [hpc] at hfits
  rcases hfits with ⟨hstate, hwaker, -⟩
  refine h.silent_inside (by rw [hpc]; rfl) (by rw [hpc]; rfl) rfl ?_ ?_ (by rw [hstate]; decide)
    (.inr ⟨rfl, hwaker⟩) <;> rw [hpc] <;> rfl

/-- The last step of a call that has taken effect: the waker that it owes is given away. -/
lemma Matches.finish (h : Matches world atomic) {call : Call W} {due : Option W}
    {notes : List (Note W)}
    (hnext : (world.pc t).next world.memory = some ⟨world.memory, .idle, notes⟩)
    (hphase : (world.pc t).phase world.memory = .done call)
    (hdue : (world.pc t).due world.memory = due)
    (hnotes : seen (notes.map (Prod.mk t)) =
      (t, .returned) :: due.toList.map fun waker => (t, .given call waker)) :
    Matched atomic (world.stepped t ⟨world.memory, .idle, notes⟩) := by
  rw [← h.phase] at hphase
  rw [← h.due] at hdue
  rcases due with _ | waker
  · refine ⟨_, _, run_return hphase hdue, h.of_step hnext ?_ ?_ ?_ ?_ (h.fills.passes rfl)⟩
    · rw [hnotes]
      rfl
    · simp [Atomic.World.note, Pc.phase]
    · simp [Atomic.World.note, Pc.due]
    · intro v hv
      simp [Atomic.World.note, Atomic.World.put, hv, h.phase v, h.due v]
  · refine ⟨_, _, run_deliver hphase hdue, h.of_step hnext ?_ ?_ ?_ ?_ (h.fills.passes rfl)⟩
    · rw [hnotes]
      rfl
    · simp [Atomic.World.note, Pc.phase]
    · simp [Atomic.World.note, Pc.due]
    · intro v hv
      simp [Atomic.World.note, Atomic.World.put, hv, h.phase v, h.due v]

/-! ### Calls that empty the cell -/

lemma Matches.remove (h : Matches world atomic) {taker : Taker} (hpc : world.pc t = .remove taker) :
    Matched atomic (world.stepped t ⟨{ world.memory with waker := none },
      .unlock taker world.memory.waker, world.memory.waker.toList.map .taken⟩) := by
  have hstate := (h.guards.fits t).inTake (by rw [hpc]; rfl)
  refine h.silent_inside (by rw [hpc]; rfl) (by rw [hpc]; rfl) ?_ ?_ ?_ (by rw [hstate]; decide)
    (.inl rfl)
  · rcases world.memory.waker with _ | taken <;> rfl
  · rw [hpc]
    rfl
  · rw [hpc]
    rfl

lemma Matches.unlock (h : Matches world atomic) {taker : Taker} {taken : Option W}
    (hpc : world.pc t = .unlock taker taken) :
    Matched atomic (world.stepped t (Concurrent.unlock world.memory taker taken)) := by
  have hfits := h.guards.fits t
  rw [hpc] at hfits
  rcases hfits with ⟨hstate, hwaker⟩
  have hresult : Concurrent.unlock world.memory taker taken =
      ⟨{ world.memory with state := waiting }, .deliver taker taken, []⟩ := if_pos hstate
  have hnext : (world.pc t).next world.memory =
      some (Concurrent.unlock world.memory taker taken) := by rw [hpc]; rfl
  rw [hresult] at hnext ⊢
  refine h.silent_inside (by rw [hpc]; rfl) hnext rfl ?_ ?_ (by rw [hstate]; decide)
    (.inr ⟨rfl, hwaker⟩) <;> rw [hpc] <;> rfl

/-- A call that gets hold of the cell. -/
lemma Matches.fetchOr_free (h : Matches world atomic) {taker : Taker}
    (hpc : world.pc t = .fetchOr taker)
    (hwaiting : world.memory.state = waiting) :
    Matched atomic (world.stepped t (Concurrent.fetchOr world.memory taker)) := by
  have hresult : Concurrent.fetchOr world.memory taker =
      ⟨world.memory.wakingToo, .remove taker, []⟩ := if_pos hwaiting
  have hnext : (world.pc t).next world.memory =
      some (Concurrent.fetchOr world.memory taker) := by rw [hpc]; rfl
  have hphase : atomic.phase t = .called (.taking taker) := by rw [h.phase, hpc]; rfl
  have hcell := h.fills.free hwaiting
  have hstate : world.memory.wakingToo.state = waking := by
    unfold Memory.wakingToo
    rw [hwaiting]
    rfl
  have hrun : (Atomic.atomicSystem ι W).Run atomic [.effect t]
      { atomic.put t (.done (.taking taker)) atomic.cell.take.1 with cell := atomic.cell.take.2 } :=
    System.run_of_replay (by simp [System.replay, Atomic.World.next, hphase])
  rw [hresult] at hnext ⊢
  refine ⟨_, _, hrun, h.of_step hnext rfl ?_ ?_ ?_ ?_⟩
  · exact Function.update_self ..
  · change Function.update atomic.due t atomic.cell.take.1 t = world.memory.waker
    rw [Function.update_self, hcell]
    rfl
  · intro v hv
    simp only [Atomic.World.put, Function.update_of_ne hv]
    exact h.others (h.guards.outside_of_waiting hwaiting v)
  · exact fills_of_taken (by rw [hstate]; decide) (by rw [hstate]; decide) rfl

/-- A call that leaves its work to a registration, which so takes effect too. -/
lemma Matches.fetchOr_registering (h : Matches world atomic) {taker : Taker}
    (hpc : world.pc t = .fetchOr taker)
    (hstate : world.memory.state = registering) :
    Matched atomic (world.stepped t (Concurrent.fetchOr world.memory taker)) := by
  obtain ⟨u, hu⟩ := h.guards.exclusive.registering_iff.mp (.inl hstate)
  have hne : u ≠ t := by
    rintro rfl
    rw [hpc] at hu
    cases hu
  have hinside : (world.pc u).inside = true := by
    unfold Pc.inside
    rw [hu]
    rfl
  have hresult := fetchOr_of_ne h.guards.isWord ((h.guards.fits u).not_waiting hinside) taker
  have hnext : (world.pc t).next world.memory =
      some (Concurrent.fetchOr world.memory taker) := by rw [hpc]; rfl
  have hstate' : world.memory.wakingToo.state = registering ||| waking := by
    unfold Memory.wakingToo
    rw [hstate]
  have hphase : atomic.phase t = .called (.taking taker) := by rw [h.phase, hpc]; rfl
  have hfits := h.guards.fits u
  -- the registration is at one of its first two accesses, which hold what it is to take back
  obtain ⟨waker, hphaseu, hphaseu', hdueu'⟩ : ∃ waker,
      atomic.phase u = .called (.register waker) ∧
      (world.pc u).phase world.memory.wakingToo = .done (.register waker) ∧
      (world.pc u).due world.memory.wakingToo = (atomic.cell.register waker).waker := by
    have hne' : world.memory.wakingToo.state ≠ registering := by
      rw [hstate']
      decide
    rw [h.phase]
    rcases hpcu : world.pc u <;> rw [hpcu] at hu hfits <;> try cases hu
    · next waker =>
      refine ⟨waker, if_pos hstate, if_neg hne', ?_⟩
      rw [h.fills.updating u waker hpcu hstate]
      exact if_neg hne'
    · next waker =>
      refine ⟨waker, if_pos hstate, if_neg hne', ?_⟩
      rw [h.fills.updated u waker hpcu hstate]
      exact if_neg hne'
    · exact absurd (hstate.symm.trans hfits.1) (by decide)
    · exact absurd (hstate.symm.trans hfits.1) (by decide)
  have hrun : (Atomic.atomicSystem ι W).Run atomic [.effect u, .handOver t u, .return t]
      { ((atomic.put u (.done (.register waker)) (atomic.cell.register waker).waker).put t
          .idle none).note t .returned with cell := .new } := by
    refine System.run_of_replay ?_
    simp [System.replay, Atomic.World.next, Atomic.World.put, Atomic.World.note, hphase, hphaseu,
      hne.symm, AtomicWaker.take, AtomicWaker.new]
  rw [hresult] at hnext ⊢
  refine ⟨_, _, hrun, h.of_step hnext rfl ?_ ?_ ?_ ?_⟩
  · exact Function.update_self ..
  · exact Function.update_self ..
  · intro v hv
    simp only [Atomic.World.note, Atomic.World.put, Function.update_of_ne hv]
    rcases eq_or_ne v u with rfl | hvu
    · rw [Function.update_self, Function.update_self]
      exact ⟨hphaseu'.symm, hdueu'.symm⟩
    · rw [Function.update_of_ne hvu, Function.update_of_ne hvu]
      exact h.others (h.guards.outside_of_inside hinside hvu)
  · exact fills_of_taken (by rw [hstate']; decide) (by rw [hstate']; decide) rfl

/-- A call that finds another one before it, which empties the cell for both. -/
lemma Matches.fetchOr_waking (h : Matches world atomic) {taker : Taker}
    (hpc : world.pc t = .fetchOr taker)
    (hstate : world.memory.state = registering ||| waking ∨ world.memory.state = waking) :
    Matched atomic (world.stepped t (Concurrent.fetchOr world.memory taker)) := by
  have hmemory : world.memory.wakingToo = world.memory := by
    have hor : world.memory.state ||| waking = world.memory.state := by
      rcases hstate with heq | heq <;> rw [heq] <;> rfl
    unfold Memory.wakingToo
    rw [hor]
  have hne : world.memory.state ≠ waiting ∧ world.memory.state ≠ registering := by
    rcases hstate with heq | heq <;> rw [heq] <;> decide
  have hresult : Concurrent.fetchOr world.memory taker = ⟨world.memory, .idle, [.returned]⟩ := by
    rw [fetchOr_of_ne h.guards.isWord hne.1, hmemory]
  have hnext : (world.pc t).next world.memory =
      some (Concurrent.fetchOr world.memory taker) := by rw [hpc]; rfl
  have hphase : atomic.phase t = .called (.taking taker) := by rw [h.phase, hpc]; rfl
  have hcell : atomic.cell = .new := by
    have hwaker := h.fills.taken hne.1 hne.2
    rcases hcell : atomic.cell with ⟨waker⟩
    rw [hcell] at hwaker
    cases hwaker
    rfl
  have hrun : (Atomic.atomicSystem ι W).Run atomic [.effect t, .return t]
      ((atomic.put t .idle none).note t .returned) := by
    refine System.run_of_replay ?_
    rcases hatomic : atomic with ⟨cell, phase, due, log⟩
    rw [hatomic] at hphase hcell
    cases hcell
    replace hphase : phase t = .called (.taking taker) := hphase
    simp [System.replay, Atomic.World.next, Atomic.World.put, Atomic.World.note, hphase,
      AtomicWaker.take]
  rw [hresult] at hnext ⊢
  refine ⟨_, _, hrun, h.of_step hnext rfl ?_ ?_ ?_ (h.fills.passes rfl)⟩
  · simp [Atomic.World.note, Pc.phase]
  · simp [Atomic.World.note, Pc.due]
  · intro v hv
    simp [Atomic.World.note, Atomic.World.put, hv, h.phase v, h.due v]

/-! ### The simulation -/

lemma Matches.next (h : Matches world atomic) (hnext : (world.pc t).next world.memory = some result) :
    Matched atomic (world.stepped t result) := by
  rcases hpc : world.pc t <;> rw [hpc] at hnext <;>
    simp only [Pc.next, Option.some.injEq, reduceCtorEq] at hnext <;> subst hnext
  case compareWaiting waker =>
    have houtside : (world.pc t).inside = false := by rw [hpc]; rfl
    rcases h.guards.free_of_outside houtside with hwaiting | ⟨u, hne, hu⟩
    · exact h.compareWaiting_free hpc hwaiting
    · rcases Bool.or_eq_true_iff.mp hu with hregister | htake
      · exact h.compareWaiting_register hpc hne hregister
      · exact h.compareWaiting_take hpc htake
  case update waker => exact h.update hpc
  case compareRegistering waker => exact h.compareRegistering hpc
  case retake waker => exact h.retake hpc
  case reset waker taken => exact h.reset hpc
  case wakeTaken waker taken =>
    exact h.finish (by rw [hpc]; rfl) (by rw [hpc]; rfl) (by rw [hpc]) rfl
  case wakeByRef waker =>
    exact h.finish (by rw [hpc]; rfl) (by rw [hpc]; rfl) (by rw [hpc]) rfl
  case fetchOr taker =>
    rcases h.guards.isWord with hstate | hstate | hstate | hstate
    · exact h.fetchOr_free hpc hstate
    · exact h.fetchOr_registering hpc hstate
    · exact h.fetchOr_waking hpc (.inl hstate)
    · exact h.fetchOr_waking hpc (.inr hstate)
  case remove taker => exact h.remove hpc
  case unlock taker taken => exact h.unlock hpc
  case deliver taker taken =>
    refine h.finish (by rw [hpc]; rfl) (by rw [hpc]; rfl) (by rw [hpc]) ?_
    rcases taken with _ | taken <;> cases taker <;> rfl

lemma Matches.call (h : Matches world atomic) (hidle : world.pc t = .idle) (call : Call W) :
    Matched atomic (world.stepped t ⟨world.memory, call.pc, [.called call]⟩) := by
  have hphase : atomic.phase t = .idle := by rw [h.phase, hidle]; rfl
  have hrun : (Atomic.atomicSystem ι W).Run atomic [.call t call]
      ((atomic.put t (.called call) none).note t (.called call)) :=
    System.run_of_replay (by simp [System.replay, Atomic.World.next, hphase])
  have houtside : call.pc.inside = false := by cases call <;> rfl
  have hcalled : call.pc.phase world.memory = .called call ∧ call.pc.due world.memory = none := by
    cases call <;> exact ⟨rfl, rfl⟩
  refine ⟨_, _, hrun, h.guards.call hidle call, ?_, fun u => ?_, fun u => ?_, h.fills.passes houtside⟩
  · exact congrArg (_ :: ·) h.log
  · change Function.update atomic.phase t _ u = (Function.update world.pc t call.pc u).phase world.memory
    rcases eq_or_ne u t with rfl | hne
    · rw [Function.update_self, Function.update_self, hcalled.1]
    · rw [Function.update_of_ne hne, Function.update_of_ne hne, h.phase]
  · change Function.update atomic.due t _ u = (Function.update world.pc t call.pc u).due world.memory
    rcases eq_or_ne u t with rfl | hne
    · rw [Function.update_self, Function.update_self, hcalled.2]
    · rw [Function.update_of_ne hne, Function.update_of_ne hne, h.due]

end Steps

/-- The code refines the atomic waker. -/
def linearization (ι W : Type) [DecidableEq ι] [TaskWaker W] :
    System.Refinement (wakerSystem ι W) (Atomic.atomicSystem ι W) where
  rel := Matches
  init := by
    rintro world rfl
    exact ⟨.start, rfl, guards_start, rfl, fun _ => rfl, fun _ => rfl, fills_of_waiting rfl rfl⟩
  step := by
    intro world action world' atomic hmatches hstep
    rcases World.next_cases hstep with ⟨t, call, -, hidle, rfl⟩ | ⟨t, result, -, hnext, rfl⟩
    · exact hmatches.call hidle call
    · exact hmatches.next hnext

/-- What the callers and the tasks see of any number of racing calls is what they see of calls that
take effect at once between their beginning and their return. -/
theorem atomicWaker_linearizable [DecidableEq ι] [TaskWaker W] {world : World ι W}
    (h : (wakerSystem ι W).Reachable world) :
    ∃ atomic : Atomic.World ι W, (Atomic.atomicSystem ι W).Reachable atomic ∧
      atomic.log = seen world.log ∧ (∀ t, world.pc t = .idle → atomic.phase t = .idle) ∧
      ((∀ t, world.pc t = .idle) → atomic.cell = world.memory.cell) := by
  rcases (linearization ι W).reachable h with ⟨atomic, hatomic, hmatches⟩
  refine ⟨atomic, hatomic, hmatches.log, fun t hidle => ?_, fun hidle => ?_⟩
  · rw [hmatches.phase, hidle]
    rfl
  · refine hmatches.fills.free (hmatches.guards.exclusive.waiting_iff.mpr fun t => ?_)
    rw [hidle t]
    rfl

/-- A wake that leaves its work to a registration, which calls its waker before it returns, and a take
that hands out the next one. -/
theorem atomicWaker_linearizable_contended :
    ∃ atomic : Atomic.World ℕ RawWaker, (Atomic.atomicSystem ℕ RawWaker).Reachable atomic ∧
      atomic.log = [(1, .returned), (1, .handedOut ⟨2, 2⟩), (1, .called (.taking .take)),
        (0, .returned), (0, .called (.register ⟨2, 2⟩)), (0, .returned), (0, .woke ⟨1, 1⟩),
        (1, .returned), (1, .called (.taking .wake)), (0, .called (.register ⟨1, 1⟩))] ∧
      atomic.phase 0 = .idle := by
  have hreplay : (System.replay World.next (World.start : World ℕ RawWaker)
      [.call 0 (.register ⟨1, 1⟩), .step 0, .call 1 (.taking .wake), .step 1, .step 0, .step 0,
        .step 0, .step 0, .step 0, .call 0 (.register ⟨2, 2⟩), .step 0, .step 0, .step 0,
        .call 1 (.taking .take), .step 1, .step 1, .step 1, .step 1]).isSome := rfl
  rcases atomicWaker_linearizable (System.reachable_replay hreplay) with
    ⟨atomic, hatomic, hlog, hidle, -⟩
  exact ⟨atomic, hatomic, hlog, hidle 0 rfl⟩

end DoomFishUtils.AtomicWaker.Concurrent
