import DoomFishUtils.AtomicWaker.Waiting

/-!
# No wakeup of a waiting task is lost

From the moment its registration returns, the waker of the task is in the cell, or in the hand of a
thread that calls it next, or has been called.  A thread that has changed the state and not looked
at the word yet cannot miss it.
-/

namespace DoomFishUtils.AtomicWaker.Waiting

set_option autoImplicit false

open Library Concurrent

variable {σ A C P ι W : Type}

/-- All calls of the atomic waker: those of the threads and the task's. -/
def World.calls (world : World σ P ι W) : Option ι → Pc W
  | none => world.task.pc
  | some t => world.threads t

/-- A step of a wake. -/
def IsWake : Pc W → Bool
  | .idle | .fetchOr .wake | .remove .wake | .unlock .wake _ | .deliver .wake _ => true
  | _ => false

/-- A step of a registration of this waker. -/
inductive Registers (waker : W) : Pc W → Prop
  | compareWaiting : Registers waker (.compareWaiting waker)
  | update : Registers waker (.update waker)
  | compareRegistering : Registers waker (.compareRegistering waker)
  | retake : Registers waker (.retake waker)
  | reset (taken : W) : Registers waker (.reset waker taken)
  | wakeTaken (taken : W) : Registers waker (.wakeTaken waker taken)
  | wakeByRef : Registers waker (.wakeByRef waker)

/-- The cell holds a waker of the same task. -/
def InCell [TaskWaker W] (memory : Memory W) (waker : W) : Prop :=
  ∃ stored, memory.waker = some stored ∧ willWake stored waker = true

/-- The thread has taken a waker of the same task and calls it next. -/
def Holding [TaskWaker W] (waker : W) : Pc W → Prop
  | .unlock .wake taken | .deliver .wake taken =>
    ∃ stored, taken = some stored ∧ willWake stored waker = true
  | _ => False

/-- The thread has still to look at the word, or it calls the waker before its wake ends. -/
def Bound [TaskWaker W] (memory : Memory W) (waker : W) : Pc W → Prop
  | .fetchOr .wake => True
  | .remove .wake => InCell memory waker
  | .unlock .wake taken => Holding waker (.unlock .wake taken)
  | .deliver .wake taken => Holding waker (.deliver .wake taken)
  | _ => False

/-- The latest operation of the task is a poll with this waker that returned pending. -/
def Pending (world : World σ P ι W) (waker : W) : Prop :=
  world.task = .idle ∧ Latest Note.isFinish world.notes (.finished (some waker))

/-- The task has registered this waker in its latest poll, which may still go on. -/
def Expecting (world : World σ P ι W) (waker : W) : Prop :=
  (∃ phase, world.task = .checking waker true phase) ∨ Pending world waker

/-- What the task has seen since its registration. -/
def Owed (established : P → σ → Prop) (settled : σ → Prop) (world : World σ P ι W) : Prop :=
  match world.task with
  | .idle => settled world.state
  | .checking _ _ phase => established phase world.state
  | .registering _ _ => True

/-- The waker is where some thread finds or has it, or has been called. -/
def Covered [TaskWaker W] (world : World σ P ι W) (waker : W) : Prop :=
  Called Note.waker world.notes waker ∨ InCell world.memory waker ∨
    ∃ t, Holding waker (world.threads t)

/-- The calls are where they may be, and a task that expects a call is owed one. -/
structure Inv [TaskWaker W] (established : P → σ → Prop) (settled : σ → Prop)
    (world : World σ P ι W) : Prop where
  guards : Guards world.memory world.calls
  threads : ∀ t, IsWake (world.threads t) = true
  registering : ∀ waker pc, world.task = .registering waker pc → Registers waker pc
  covered : ∀ waker, Expecting world waker → Covered world waker
  owed : ∀ waker, Expecting world waker → ¬Called Note.waker world.notes waker →
    Owed established settled world ∨ ∃ t, Bound world.memory waker (world.threads t)

/-! ### The wakes -/

/-- The steps of a wake that meets no fault. -/
inductive WakeStep (memory : Memory W) : Pc W → Stepped W → Prop
  | locks (hstate : memory.state = waiting) :
      WakeStep memory (.fetchOr .wake) ⟨memory.wakingToo, .remove .wake, []⟩
  | leaves (hstate : memory.state ≠ waiting) :
      WakeStep memory (.fetchOr .wake) ⟨memory.wakingToo, .idle, [.returned]⟩
  | remove : WakeStep memory (.remove .wake) ⟨{ memory with waker := none },
      .unlock .wake memory.waker, memory.waker.toList.map .taken⟩
  | unlock (taken : Option W) : WakeStep memory (.unlock .wake taken)
      ⟨{ memory with state := waiting }, .deliver .wake taken, []⟩
  | deliver (taken : Option W) : WakeStep memory (.deliver .wake taken)
      ⟨memory, .idle, .returned :: taken.toList.map .woke⟩

section Wakes

variable [TaskWaker W] {memory : Memory W} {pc : Pc W} {result : Stepped W} {waker : W}

lemma wakeStep_of_next (hwake : IsWake pc = true) (hfits : pc.Fits memory) (hword : memory.IsWord)
    (hnext : pc.next memory = some result) : WakeStep memory pc result := by
  rcases pc with _ | _ | _ | _ | _ | _ | _ | _ | ⟨_ | _⟩ | ⟨_ | _⟩ | ⟨_ | _, taken⟩ |
    ⟨_ | _, taken⟩ | _ <;> try cases hwake
  all_goals simp only [Pc.next, Option.some.injEq, reduceCtorEq] at hnext
  all_goals subst hnext
  · by_cases hstate : memory.state = waiting
    · unfold Concurrent.fetchOr
      rw [if_pos hstate]
      exact .locks hstate
    · rw [fetchOr_of_ne hword hstate]
      exact .leaves hstate
  · exact .remove
  · unfold Concurrent.unlock
    rw [if_pos hfits.1]
    exact .unlock taken
  · exact .deliver taken

omit [TaskWaker W] in
lemma WakeStep.isWake (h : WakeStep memory pc result) : IsWake result.pc = true := by
  cases h <;> rfl

omit [TaskWaker W] in
/-- What a wake does is seen in the calls of wakers only. -/
lemma WakeStep.notes (h : WakeStep memory pc result) {note : Note W}
    (hmem : note ∈ result.notes.filterMap Note.ofAccess) : ∃ woken, note = .woke woken := by
  cases h with
  | locks | unlock => cases hmem
  | leaves => simp [Note.ofAccess] at hmem
  | remove => rcases hwaker : memory.waker <;> simp [hwaker, Note.ofAccess] at hmem
  | deliver taken =>
    rcases taken with _ | taken
    · simp [Note.ofAccess] at hmem
    · exact ⟨taken, by simpa [Note.ofAccess, eq_comm] using hmem⟩

lemma Holding.bound {pc : Pc W} (h : Holding waker pc) : Bound memory waker pc := by
  rcases pc with _ | _ | _ | _ | _ | _ | _ | _ | ⟨_ | _⟩ | ⟨_ | _⟩ | ⟨_ | _, taken⟩ |
    ⟨_ | _, taken⟩ | _ <;>
    first | exact h.elim | exact h

/-- What a thread is bound to do does not depend on the memory, except that a waker in the cell may
be taken out by another one. -/
lemma Bound.of_memory {memory' : Memory W} {pc : Pc W} (h : Bound memory waker pc)
    (hcell : InCell memory waker → InCell memory' waker) : Bound memory' waker pc := by
  rcases pc with _ | _ | _ | _ | _ | _ | _ | _ | ⟨_ | _⟩ | ⟨_ | _⟩ | ⟨_ | _, taken⟩ |
    ⟨_ | _, taken⟩ | _ <;>
    first | exact h | exact hcell h

end Wakes

section Steps

variable [DecidableEq ι] [TaskWaker W] {established : P → σ → Prop} {settled : σ → Prop}
  {world : World σ P ι W} {t : ι} {result : Stepped W} {waker : W}

omit [TaskWaker W] in
lemma calls_woken (world : World σ P ι W) (t : ι) (result : Stepped W) :
    (world.woken t result).calls = Function.update world.calls (some t) result.pc := by
  funext u
  rcases u with _ | u
  · rw [Function.update_of_ne (by simp)]
    rfl
  · rcases eq_or_ne u t with rfl | hne
    · rw [Function.update_self]
      exact Function.update_self ..
    · rw [Function.update_of_ne (by simpa using hne)]
      exact Function.update_of_ne hne ..

omit [TaskWaker W] in
/-- What holds of another thread holds of some thread afterwards. -/
lemma exists_update_of_ne {threads : ι → Pc W} {Q : Pc W → Prop} {pc : Pc W} {u : ι} (hne : u ≠ t)
    (h : Q (threads u)) : ∃ v, Q (Function.update threads t pc v) :=
  ⟨u, by rwa [Function.update_of_ne hne]⟩

omit [TaskWaker W] in
lemma exists_update_self {threads : ι → Pc W} {Q : Pc W → Prop} {pc : Pc W} (h : Q pc) :
    ∃ v, Q (Function.update threads t pc v) :=
  ⟨t, by rwa [Function.update_self]⟩

omit [DecidableEq ι] in
lemma called_append {notes events : List (Note W)} (h : Called Note.waker notes waker)
    (hevents : ∀ note ∈ events, ∃ woken, note = .woke woken) :
    Called Note.waker (events ++ notes) waker := by
  induction events with
  | nil => exact h
  | cons head events ih =>
    rcases hevents head List.mem_cons_self with ⟨woken, rfl⟩
    exact (ih fun note hmem => hevents note (List.mem_cons_of_mem _ hmem)).cons rfl

/-- The end of a wake calls what the thread has taken. -/
lemma called_deliver {taken : Option W} (h : Holding waker (.deliver .wake taken)) :
    Called Note.waker (world.woken t ⟨world.memory, .idle, .returned :: taken.toList.map .woke⟩).notes
      waker := by
  rcases h with ⟨stored, rfl, hwill⟩
  exact ⟨.woke stored, stored, rfl, hwill, since_cons_self rfl⟩

lemma covered_woken (hstep : WakeStep world.memory (world.threads t) result)
    (h : Covered world waker) : Covered (world.woken t result) waker := by
  rcases h with hcalled | hcell | ⟨u, hu⟩
  · exact .inl (called_append hcalled fun note => hstep.notes)
  · -- the waker stays in the cell unless this thread takes it
    generalize hpc : world.threads t = pc at hstep
    cases hstep with
    | remove =>
      rcases hcell with ⟨stored, hstored, hwill⟩
      exact .inr (.inr (exists_update_self ⟨stored, hstored, hwill⟩))
    | _ => exact .inr (.inl hcell)
  · rcases eq_or_ne u t with rfl | hne
    · generalize hpc : world.threads u = pc at hstep hu
      cases hstep with
      | unlock taken => exact .inr (.inr (exists_update_self hu))
      | deliver taken => exact .inl (called_deliver hu)
      | _ => exact hu.elim
    · exact .inr (.inr (exists_update_of_ne hne hu))

omit [DecidableEq ι] in
/-- While a wake holds the cell, it is bound to call what is in there. -/
lemma Inv.exists_bound (h : Inv established settled world) (hbusy : world.memory.state ≠ waiting)
    (htask : world.task.pc = .idle) (hcell : InCell world.memory waker) :
    ∃ u, (world.threads u).inside = true ∧ Bound world.memory waker (world.threads u) := by
  rcases h.guards.free.resolve_left hbusy with ⟨_ | u, hinside⟩
  · change world.task.pc.inside = true at hinside
    rw [htask] at hinside
    cases hinside
  · refine ⟨u, hinside, ?_⟩
    have hfits := h.guards.fits (some u)
    change (world.threads u).Fits world.memory at hfits
    change (world.threads u).inside = true at hinside
    have hwake := h.threads u
    rcases hpc : world.threads u <;> rw [hpc] at hfits hinside hwake <;>
      try first | exact absurd hwake Bool.false_ne_true | exact absurd hinside Bool.false_ne_true
    · next taker =>
      cases taker with
      | wake => exact hcell
      | take => cases hwake
    · rcases hcell with ⟨stored, hstored, -⟩
      cases hfits.2.symm.trans hstored

omit [DecidableEq ι] [TaskWaker W] in
lemma Expecting.task_pc (h : Expecting world waker) : world.task.pc = .idle := by
  rcases h with ⟨phase, htask⟩ | ⟨htask, -⟩ <;> rw [htask] <;> rfl

/-- What the task is owed, across a step of a wake. -/
lemma Inv.owed_woken (h : Inv established settled world)
    (hstep : WakeStep world.memory (world.threads t) result) (hexpecting : Expecting world waker)
    (hnot : ¬Called Note.waker (world.woken t result).notes waker) :
    Owed established settled (world.woken t result) ∨
      ∃ u, Bound result.memory waker (Function.update world.threads t result.pc u) := by
  have hbefore : ¬Called Note.waker world.notes waker :=
    fun hcalled => hnot (called_append hcalled fun note => hstep.notes)
  have howed := h.owed waker hexpecting hbefore
  have hcovered := (h.covered waker hexpecting).resolve_left hbefore
  generalize hpc : world.threads t = pc at hstep
  cases hstep with
  | locks hstate =>
    refine .inr (hcovered.elim (fun hcell => exists_update_self hcell) ?_)
    rintro ⟨u, hu⟩
    refine exists_update_of_ne ?_ hu.bound
    rintro rfl
    rw [hpc] at hu
    exact hu
  | leaves hstate =>
    refine .inr (hcovered.elim (fun hcell => ?_) ?_)
    · rcases h.exists_bound hstate hexpecting.task_pc hcell with ⟨u, hinside, hu⟩
      refine exists_update_of_ne ?_ (hu.of_memory id)
      rintro rfl
      rw [hpc] at hinside
      cases hinside
    · rintro ⟨u, hu⟩
      refine exists_update_of_ne ?_ hu.bound
      rintro rfl
      rw [hpc] at hu
      exact hu
  | remove =>
    refine howed.imp id ?_
    rintro ⟨u, hu⟩
    by_cases hcell : InCell world.memory waker
    · exact exists_update_self hcell
    · refine exists_update_of_ne ?_ (hu.of_memory fun h => absurd h hcell)
      rintro rfl
      rw [hpc] at hu
      exact hcell hu
  | unlock taken =>
    refine howed.imp id ?_
    rintro ⟨u, hu⟩
    rcases eq_or_ne u t with rfl | hne
    · rw [hpc] at hu
      exact exists_update_self hu
    · exact exists_update_of_ne hne (hu.of_memory id)
  | deliver taken =>
    refine howed.imp id ?_
    rintro ⟨u, hu⟩
    rcases eq_or_ne u t with rfl | hne
    · rw [hpc] at hu
      exact absurd (called_deliver hu) hnot
    · exact exists_update_of_ne hne hu

/-- The thread goes on with its wake. -/
lemma Inv.woken (h : Inv established settled world)
    (hnext : (world.threads t).next world.memory = some result) :
    Inv established settled (world.woken t result) := by
  have hstep : WakeStep world.memory (world.threads t) result :=
    wakeStep_of_next (h.threads t) (h.guards.fits (some t)) h.guards.isWord hnext
  have hwoke : ∀ note ∈ result.notes.filterMap Note.ofAccess, Note.isFinish note = false := by
    intro note hmem
    rcases hstep.notes hmem with ⟨woken, rfl⟩
    rfl
  have hexpecting : ∀ waker, Expecting (world.woken t result) waker → Expecting world waker := by
    intro waker hnow
    refine hnow.imp_right fun hpending => ⟨hpending.1, ?_⟩
    exact (latest_append_of_neg hwoke).mp hpending.2
  refine ⟨?_, fun u => ?_, h.registering, fun waker hnow => ?_, fun waker hnow hnot => ?_⟩
  · rw [calls_woken]
    exact Guards.next h.guards hnext
  · change IsWake (Function.update world.threads t result.pc u) = true
    rcases eq_or_ne u t with rfl | hne
    · rw [Function.update_self]
      exact hstep.isWake
    · rw [Function.update_of_ne hne]
      exact h.threads u
  · exact covered_woken hstep (h.covered waker (hexpecting waker hnow))
  · exact h.owed_woken hstep (hexpecting waker hnow) hnot

/-- A thread changes the state, and begins a wake unless what the task has seen still holds. -/
lemma Inv.signal {protocol : Protocol σ A C P} (hkeeps : protocol.Keeps established settled)
    (h : Inv established settled world) (hidle : world.threads t = .idle) {act : A} {state : σ}
    {wakes : Bool} (hsignal : protocol.signal act world.state = some (state, wakes)) :
    Inv established settled { world with
      state := state
      threads :=
        if wakes then Function.update world.threads t (Call.taking .wake).pc else world.threads } := by
  cases wakes with
  | false =>
    refine ⟨h.guards, h.threads, h.registering, h.covered, fun waker hnow hnot => ?_⟩
    refine (h.owed waker hnow hnot).imp_left ?_
    unfold Owed
    dsimp only
    split
    · exact (hkeeps.signal hsignal).2
    · exact (hkeeps.signal hsignal).1 _
    · exact id
  | true =>
    have hcalls : World.calls ({ world with
        state := state, threads := Function.update world.threads t (Call.taking .wake).pc } :
        World σ P ι W) = Function.update world.calls (some t) (Call.taking .wake).pc :=
      calls_woken world t ⟨world.memory, .fetchOr .wake, []⟩
    rw [if_pos rfl]
    refine ⟨?_, fun u => ?_, h.registering, fun waker hnow => ?_, fun waker hnow hnot => .inr ?_⟩
    · rw [hcalls]
      exact h.guards.call (show world.calls (some t) = .idle from hidle) (.taking .wake)
    · change IsWake (Function.update world.threads t (Call.taking .wake).pc u) = true
      rcases eq_or_ne u t with rfl | hne
      · rw [Function.update_self]
        rfl
      · rw [Function.update_of_ne hne]
        exact h.threads u
    · refine (h.covered waker hnow).imp_right (Or.imp_right ?_)
      rintro ⟨u, hu⟩
      refine exists_update_of_ne ?_ hu
      rintro rfl
      rw [hidle] at hu
      exact hu
    · exact exists_update_self trivial

/-! ### The task -/

omit [DecidableEq ι] in
/-- A step of the task that is no access of the atomic waker. -/
lemma Inv.of_task {world' : World σ P ι W} (h : Inv established settled world)
    (hmemory : world'.memory = world.memory) (hthreads : world'.threads = world.threads)
    (hbefore : world.task.pc = .idle) (hafter : ∀ waker pc, world'.task ≠ .registering waker pc)
    (hnotes : world'.notes = world.notes ∨ ∃ pending, world'.notes = .finished pending :: world.notes)
    (hexpecting : ∀ waker, Expecting world' waker →
      Expecting world waker ∧ (Owed established settled world → Owed established settled world')) :
    Inv established settled world' := by
  have hcalls : world'.calls = world.calls := by
    funext u
    rcases u with _ | u
    · change world'.task.pc = world.task.pc
      rw [hbefore]
      rcases htask : world'.task with _ | _ | ⟨waker, pc⟩
      · rfl
      · rfl
      · exact absurd htask (hafter waker pc)
    · exact congrFun hthreads u
  have hcalled : ∀ waker, Called Note.waker world.notes waker →
      Called Note.waker world'.notes waker := by
    intro waker hcalled
    rcases hnotes with hsame | ⟨pending, hcons⟩
    · rwa [hsame]
    · rw [hcons]
      exact hcalled.cons rfl
  refine ⟨?_, ?_, fun waker pc htask => absurd htask (hafter waker pc), fun waker hnow => ?_,
    fun waker hnow hnot => ?_⟩
  · rw [hmemory, hcalls]
    exact h.guards
  · rw [hthreads]
    exact h.threads
  · unfold Covered
    rw [hmemory, hthreads]
    exact (h.covered waker (hexpecting waker hnow).1).imp_left (hcalled waker)
  · rw [hmemory, hthreads]
    refine (h.owed waker (hexpecting waker hnow).1 fun hold => hnot (hcalled waker hold)).imp_left ?_
    exact (hexpecting waker hnow).2

omit [DecidableEq ι] in
/-- An operation that returns something else than pending. -/
lemma Inv.finish (h : Inv established settled world) (hbefore : world.task.pc = .idle) (state : σ) :
    Inv established settled ({ world with state := state }.finish none) := by
  refine h.of_task rfl rfl hbefore (fun _ _ heq => by cases heq) (.inr ⟨none, rfl⟩) fun waker hnow => ?_
  rcases hnow with ⟨phase, htask⟩ | ⟨-, hlatest⟩
  · cases htask
  · cases (latest_cons_of_pos rfl).mp hlatest

omit [DecidableEq ι] in
lemma Inv.poll (h : Inv established settled world) (hbefore : world.task.pc = .idle) (waker : W)
    (phase : P) : Inv established settled { world with task := .checking waker false phase } := by
  refine h.of_task rfl rfl hbefore (fun _ _ heq => by cases heq) (.inl rfl) fun waker' hnow => ?_
  rcases hnow with ⟨phase, htask⟩ | ⟨htask, -⟩ <;> cases htask

/-- A step of a check. -/
lemma Inv.checked {protocol : Protocol σ A C P} (hkeeps : protocol.Keeps established settled)
    (h : Inv established settled world) {waker : W} {registered : Bool} {phase : P}
    (htask : world.task = .checking waker registered phase) {world' : World σ P ι W}
    (hchecked : world.checked protocol waker registered phase = some world') :
    Inv established settled world' := by
  have hbefore : world.task.pc = .idle := by rw [htask]; rfl
  rcases Option.map_eq_some_iff.mp hchecked with ⟨⟨verdict, state⟩, hcheck, rfl⟩
  cases verdict with
  | ready => exact h.finish hbefore state
  | more phase' =>
    refine h.of_task rfl rfl hbefore (fun _ _ heq => by cases heq) (.inl rfl) fun waker' hnow => ?_
    rcases hnow with ⟨phase'', heq⟩ | ⟨heq, -⟩
    · cases heq
      refine ⟨.inl ⟨phase, htask⟩, ?_⟩
      unfold Owed
      rw [htask]
      exact hkeeps.more hcheck
    · cases heq
  | pending =>
    dsimp only
    split_ifs with hregistered
    · -- the second check: the task waits
      cases hregistered
      refine h.of_task rfl rfl hbefore (fun _ _ heq => by cases heq) (.inr ⟨_, rfl⟩)
        fun waker' hnow => ?_
      rcases hnow with ⟨phase', heq⟩ | ⟨-, hlatest⟩
      · cases heq
      · cases (latest_cons_of_pos rfl).mp hlatest
        refine ⟨.inl ⟨phase, htask⟩, ?_⟩
        unfold Owed
        rw [htask]
        exact hkeeps.pending hcheck
    · -- the first one: it registers
      have hcalls : World.calls ({ world with
          state := state, task := .registering waker (Call.register waker).pc } :
          World σ P ι W) = Function.update world.calls none (Call.register waker).pc := by
        funext u
        rcases u with _ | u
        · rw [Function.update_self]
          rfl
        · rw [Function.update_of_ne (by simp)]
          rfl
      refine ⟨?_, h.threads, fun waker' pc heq => ?_, fun waker' hnow => ?_, fun waker' hnow => ?_⟩
      · rw [hcalls]
        exact h.guards.call (show world.calls none = .idle from hbefore) (.register waker)
      · cases heq
        exact .compareWaiting
      · rcases hnow with ⟨phase', heq⟩ | ⟨heq, -⟩ <;> cases heq
      · rcases hnow with ⟨phase', heq⟩ | ⟨heq, -⟩ <;> cases heq

/-- A registration goes on, or returns with its waker in the cell or called. -/
lemma registers_next {memory : Memory W} {pc : Pc W} (hregisters : Registers waker pc)
    (hfits : pc.Fits memory)
    (hnobody : pc.inRegister = false →
      memory.state ≠ registering ∧ memory.state ≠ registering ||| waking)
    (hword : memory.IsWord) (hnext : pc.next memory = some result) (notes : List (Note W)) :
    Registers waker result.pc ∨ result.pc = .idle ∧ (InCell result.memory waker ∨
      Called Note.waker (result.notes.filterMap Note.ofAccess ++ notes) waker) := by
  cases hregisters <;> simp only [Pc.next, Option.some.injEq] at hnext <;> subst hnext
  case compareWaiting =>
    have hstate := hnobody rfl
    unfold Concurrent.compareWaiting
    split_ifs with hwaiting hwaking hother
    · exact .inl .update
    · exact .inl .wakeByRef
    · exact absurd hother (by simp [hstate])
    · rcases hword with heq | heq | heq | heq
      · exact absurd heq hwaiting
      · exact absurd heq hstate.1
      · exact absurd heq hstate.2
      · exact absurd heq hwaking
  case update =>
    left
    unfold Concurrent.update
    rcases memory.waker with _ | old
    · exact .compareRegistering
    · dsimp only
      split_ifs <;> exact .compareRegistering
  case compareRegistering =>
    unfold Concurrent.compareRegistering
    rcases hfits.1 with heq | heq <;> rw [heq]
    · exact .inr ⟨rfl, .inl hfits.2⟩
    · exact .inl .retake
  case retake =>
    rcases hfits with ⟨-, stored, hstored, -⟩
    unfold Concurrent.retake
    rw [hstored]
    exact .inl (.reset stored)
  case reset taken => exact .inl (.wakeTaken taken)
  case wakeTaken taken =>
    exact .inr ⟨rfl, .inr ⟨.woke taken, taken, rfl, hfits, since_cons_self rfl⟩⟩
  case wakeByRef =>
    exact .inr ⟨rfl, .inr ⟨.woke waker, waker, rfl, willWake_self waker, since_cons_self rfl⟩⟩

omit [DecidableEq ι] in
/-- No thread but the task registers. -/
lemma Inv.nobody (h : Inv established settled world) (hpc : world.task.pc.inRegister = false) :
    world.memory.state ≠ Concurrent.registering ∧
      world.memory.state ≠ Concurrent.registering ||| waking := by
  have houtside : ∀ u, (world.calls u).inRegister = false := by
    rintro (_ | u)
    · exact hpc
    · have hwake := h.threads u
      change (world.threads u).inRegister = false
      rcases hthread : world.threads u <;> rw [hthread] at hwake <;>
        first | rfl | exact absurd hwake Bool.false_ne_true
  refine ⟨fun heq => ?_, fun heq => ?_⟩ <;>
  · rcases h.guards.free with hwaiting | ⟨u, hu⟩
    · rw [heq] at hwaiting
      exact absurd hwaiting (by decide)
    · have htake := (Bool.or_eq_true_iff.mp hu).resolve_left (by simp [houtside u])
      have hstate := (h.guards.fits u).inTake htake
      rw [heq] at hstate
      exact absurd hstate (by decide)

/-- An access of the task's registration. -/
lemma Inv.registered {protocol : Protocol σ A C P} (hkeeps : protocol.Keeps established settled)
    (h : Inv established settled world) {pc : Pc W} (htask : world.task = .registering waker pc)
    (hnext : pc.next world.memory = some result) :
    Inv established settled (world.registered protocol waker result) := by
  have hpc : world.calls none = pc := by
    change world.task.pc = pc
    rw [htask]
    rfl
  have hregisters := h.registering waker pc htask
  have hafter := registers_next hregisters (hpc ▸ h.guards.fits none)
    (fun hout => h.nobody (by rw [htask]; exact hout)) h.guards.isWord hnext world.notes
  have hguards := h.guards.next (show (world.calls none).next world.memory = some result by rwa [hpc])
  have hcalls : (world.registered protocol waker result).calls =
      Function.update world.calls none result.pc := by
    funext u
    rcases u with _ | u
    · rw [Function.update_self]
      change (World.registered world protocol waker result).task.pc = result.pc
      unfold World.registered
      dsimp only
      split
      · next hidle => exact hidle.symm
      · rfl
    · rw [Function.update_of_ne (by simp)]
      rfl
  rcases hafter with hgoes | ⟨hidle, hcovered⟩
  · -- the registration goes on
    have hplace : (world.registered protocol waker result).task = .registering waker result.pc := by
      unfold World.registered
      dsimp only
      split
      · next hidle =>
        rw [hidle] at hgoes
        cases hgoes
      · rfl
    have hnone : ∀ waker', ¬Expecting (world.registered protocol waker result) waker' := by
      rintro waker' (⟨phase, heq⟩ | ⟨heq, -⟩) <;> cases hplace.symm.trans heq
    refine ⟨hcalls ▸ hguards, h.threads, fun waker' pc' heq => ?_,
      fun waker' hnow => absurd hnow (hnone waker'), fun waker' hnow => absurd hnow (hnone waker')⟩
    cases hplace.symm.trans heq
    exact hgoes
  · -- it has returned
    have hplace : (world.registered protocol waker result).task =
        .checking waker true protocol.first := by
      unfold World.registered
      rw [hidle]
    refine ⟨hcalls ▸ hguards, h.threads, fun waker' pc' heq => ?_, fun waker' hnow => ?_,
      fun waker' hnow _ => .inl ?_⟩
    · cases hplace.symm.trans heq
    · rcases hnow with ⟨phase, heq⟩ | ⟨heq, -⟩
      · cases hplace.symm.trans heq
        exact hcovered.elim (fun hcell => .inr (.inl hcell)) .inl
      · cases hplace.symm.trans heq
    · unfold Owed
      rw [hplace]
      exact hkeeps.first _

lemma Inv.next {protocol : Protocol σ A C P} (hkeeps : protocol.Keeps established settled)
    (h : Inv established settled world) {action : Action A C ι W} {world' : World σ P ι W}
    (hnext : world.next protocol action = some world') : Inv established settled world' := by
  rcases action with ⟨t, act⟩ | t | act | waker | _ <;> unfold World.next at hnext <;>
    dsimp only at hnext
  case signal =>
    split at hnext
    · next hidle =>
      rcases Option.map_eq_some_iff.mp hnext with ⟨⟨state, wakes⟩, hsignal, rfl⟩
      exact h.signal hkeeps hidle hsignal
    · cases hnext
  case wake =>
    rcases Option.map_eq_some_iff.mp hnext with ⟨result, hresult, rfl⟩
    exact h.woken hresult
  case consume =>
    split at hnext
    · next hidle =>
      rcases Option.map_eq_some_iff.mp hnext with ⟨state, -, rfl⟩
      exact h.finish (by rw [hidle]; rfl) state
    · cases hnext
  case poll =>
    split at hnext
    · next hidle =>
      cases hnext
      exact h.poll (by rw [hidle]; rfl) waker protocol.first
    · cases hnext
  case advance =>
    split at hnext
    · cases hnext
    · next waker registered phase htask => exact h.checked hkeeps htask hnext
    · next waker pc htask =>
      rcases Option.map_eq_some_iff.mp hnext with ⟨result, hresult, rfl⟩
      exact h.registered hkeeps htask hresult

end Steps

/-- A task whose latest operation is a pending poll and whose waker has not been called since its
registration: what its check has seen still holds, or a thread that has changed the state since has
not looked at the word yet, or a thread calls the waker before its wake ends. -/
def NoLostWakeup [TaskWaker W] (settled : σ → Prop) (world : World σ P ι W) : Prop :=
  ∀ waker, Pending world waker → ¬Called Note.waker world.notes waker →
    settled world.state ∨ ∃ t, Bound world.memory waker (world.threads t)

/-- Whatever the threads do to the state and however the accesses interleave, a task that registers
between two checks of it misses no wakeup. -/
theorem waiting_loses_no_wakeup [DecidableEq ι] [TaskWaker W] {protocol : Protocol σ A C P}
    {established : P → σ → Prop} {settled : σ → Prop}
    (hkeeps : protocol.Keeps established settled) {state : σ} {world : World σ P ι W}
    (h : (waitingSystem ι W protocol state).Reachable world) : NoLostWakeup settled world := by
  have hinv : Inv established settled world := by
    refine h.invariant ?_ fun _ _ _ hworld hstep => hworld.next hkeeps hstep
    rintro world rfl
    have hnone : ∀ waker, ¬Expecting (start state : World σ P ι W) waker := by
      rintro waker (⟨phase, heq⟩ | ⟨-, hlatest⟩)
      · cases heq
      · cases hlatest
    refine ⟨?_, fun _ => rfl, (fun _ _ heq => nomatch heq),
      fun waker hnow => absurd hnow (hnone waker), fun waker hnow => absurd hnow (hnone waker)⟩
    have hcalls : (start state : World σ P ι W).calls = fun _ => .idle := by
      funext u
      rcases u with _ | u <;> rfl
    rw [hcalls]
    exact guards_start
  intro waker hpending hnot
  have howed := hinv.owed waker (.inr hpending) hnot
  unfold Owed at howed
  rw [hpending.1] at howed
  exact howed

end DoomFishUtils.AtomicWaker.Waiting
