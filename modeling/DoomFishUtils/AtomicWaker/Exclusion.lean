import DoomFishUtils.AtomicWaker.Protocol
import DoomFishUtils.Library.History
import DoomFishUtils.Library.Ledger

/-!
# Who holds the cell

A thread holds the cell from the access that sets a bit of the waiting word to the one that clears
the word.  Only one thread does at a time, what it finds there is what it expects, and each waker
that goes into the cell comes out once.
-/

namespace DoomFishUtils.AtomicWaker.Concurrent

set_option autoImplicit false

open Library

variable {ι W : Type}

namespace Pc

/-- The thread holds the cell to register a waker. -/
def inRegister : Pc W → Bool
  | .update _ | .compareRegistering _ | .retake _ | .reset _ _ => true
  | _ => false

/-- The thread holds the cell to take the waker. -/
def inTake : Pc W → Bool
  | .remove _ | .unlock _ _ => true
  | _ => false

def inside (pc : Pc W) : Bool :=
  pc.inRegister || pc.inTake

/-- What the thread relies on. -/
def Fits [TaskWaker W] (memory : Memory W) : Pc W → Prop
  | .update _ => memory.state = registering ∨ memory.state = registering ||| waking
  | .compareRegistering waker =>
    (memory.state = registering ∨ memory.state = registering ||| waking) ∧
      ∃ stored, memory.waker = some stored ∧ willWake stored waker = true
  | .retake waker =>
    memory.state = registering ||| waking ∧
      ∃ stored, memory.waker = some stored ∧ willWake stored waker = true
  | .reset waker taken =>
    memory.state = registering ||| waking ∧ memory.waker = none ∧ willWake taken waker = true
  | .wakeTaken waker taken => willWake taken waker = true
  | .remove _ => memory.state = waking
  | .unlock _ _ => memory.state = waking ∧ memory.waker = none
  | .fault => False
  | _ => True

/-- The waker that the thread has taken out of the cell and neither called nor handed out yet. -/
def hand : Pc W → Option W
  | .reset _ taken | .wakeTaken _ taken => some taken
  | .unlock _ taken | .deliver _ taken => taken
  | _ => none

end Pc

/-- A word of the two bits. -/
def Memory.IsWord (memory : Memory W) : Prop :=
  memory.state = waiting ∨ memory.state = registering ∨
    memory.state = registering ||| waking ∨ memory.state = waking

/-- The word that `fetch_or(WAKING)` leaves. -/
def Memory.wakingToo (memory : Memory W) : Memory W :=
  { memory with state := memory.state ||| waking }

lemma fetchOr_of_ne {memory : Memory W} (hword : memory.IsWord) (hne : memory.state ≠ waiting)
    (taker : Taker) : fetchOr memory taker = ⟨memory.wakingToo, .idle, [.returned]⟩ := by
  unfold fetchOr
  rw [if_neg hne, if_pos (hword.resolve_left hne)]
  rfl

/-- One thread at a time holds the cell, and the word is waiting only while none does. -/
structure Guards [TaskWaker W] (memory : Memory W) (pc : ι → Pc W) : Prop where
  fits : ∀ t, (pc t).Fits memory
  alone : ∀ t u, (pc t).inside = true → (pc u).inside = true → t = u
  free : memory.state = waiting ∨ ∃ t, (pc t).inside = true

section Steps

variable [TaskWaker W] {memory memory' : Memory W} {pc : Pc W} {result : Stepped W}

lemma Pc.Fits.of_outside (h : pc.Fits memory) (houtside : pc.inside = false) :
    pc.Fits memory' := by
  cases pc <;> first | exact h | cases houtside

lemma Pc.Fits.inRegister (h : pc.Fits memory) (hinside : pc.inRegister = true) :
    memory.state = registering ∨ memory.state = registering ||| waking := by
  cases pc <;> try cases hinside
  · exact h
  · exact h.1
  · exact .inr h.1
  · exact .inr h.1

lemma Pc.Fits.inTake (h : pc.Fits memory) (hinside : pc.inTake = true) :
    memory.state = waking := by
  cases pc <;> try cases hinside
  · exact h
  · exact h.1

lemma Pc.Fits.isWord (h : pc.Fits memory) (hinside : pc.inside = true) : memory.IsWord := by
  rcases Bool.or_eq_true_iff.mp hinside with hregister | htake
  · exact .inr ((h.inRegister hregister).imp_right .inl)
  · exact .inr (.inr (.inr (h.inTake htake)))

lemma Pc.Fits.not_waiting (h : pc.Fits memory) (hinside : pc.inside = true) :
    memory.state ≠ waiting := by
  rcases Bool.or_eq_true_iff.mp hinside with hregister | htake
  · rcases h.inRegister hregister with heq | heq <;> rw [heq] <;> decide
  · rw [h.inTake htake]
    decide

/-- Nobody who holds the cell is disturbed by a `wake` or a `take` that comes meanwhile. -/
lemma Pc.Fits.wakingToo (h : pc.Fits memory) : pc.Fits memory.wakingToo := by
  have hor : ∀ {state : ℕ}, state = registering ∨ state = registering ||| waking →
      state ||| waking = registering ||| waking := by
    rintro _ (rfl | rfl) <;> rfl
  cases pc with
  | update => exact .inr (hor h)
  | compareRegistering => exact ⟨.inr (hor h.1), h.2⟩
  | retake => exact ⟨hor (.inr h.1), h.2⟩
  | reset => exact ⟨hor (.inr h.1), h.2⟩
  | remove => exact (congrArg (· ||| waking) h : _)
  | unlock => exact ⟨(congrArg (· ||| waking) h.1 : _), h.2⟩
  | _ => exact h

/-- What a step does to the cell and to those that hold it. -/
inductive Effect (memory : Memory W) (pc : Pc W) (result : Stepped W) : Prop
  /-- The thread goes on inside. -/
  | stays (hbefore : pc.inside = true) (hafter : result.pc.inside = true)
  | leaves (hbefore : pc.inside = true) (hafter : result.pc.inside = false)
      (hstate : result.memory.state = waiting)
  | enters (hbefore : pc.inside = false) (hafter : result.pc.inside = true)
      (hstate : memory.state = waiting)
  | passes (hbefore : pc.inside = false) (hafter : result.pc.inside = false)
      (hmemory : result.memory = memory)
  /-- A `wake` or a `take` that leaves its work to the thread inside. -/
  | signals {taker : Taker} (hbefore : pc = .fetchOr taker) (hafter : result.pc = .idle)
      (hstate : memory.state ≠ waiting) (hmemory : result.memory = memory.wakingToo)

lemma Pc.Fits.next (h : pc.Fits memory) (hword : memory.IsWord)
    (hnext : pc.next memory = some result) :
    result.pc.Fits result.memory ∧ Effect memory pc result := by
  cases pc <;> simp only [Pc.next, Option.some.injEq, reduceCtorEq] at hnext <;> subst hnext
  case compareWaiting waker =>
    unfold Concurrent.compareWaiting
    rcases hword with heq | heq | heq | heq <;> rw [heq]
    · exact ⟨.inl rfl, .enters rfl rfl heq⟩
    · exact ⟨trivial, .passes rfl rfl rfl⟩
    · exact ⟨trivial, .passes rfl rfl rfl⟩
    · exact ⟨trivial, .passes rfl rfl rfl⟩
  case update waker =>
    unfold Concurrent.update
    rcases hwaker : memory.waker with _ | old
    · exact ⟨⟨h, waker, rfl, willWake_self waker⟩, .stays rfl rfl⟩
    · dsimp only
      split_ifs with hold
      · exact ⟨⟨h, old, hwaker, hold⟩, .stays rfl rfl⟩
      · exact ⟨⟨h, waker, rfl, willWake_self waker⟩, .stays rfl rfl⟩
  case compareRegistering waker =>
    unfold Concurrent.compareRegistering
    rcases h.1 with heq | heq <;> rw [heq]
    · exact ⟨trivial, .leaves rfl rfl rfl⟩
    · exact ⟨⟨heq, h.2⟩, .stays rfl rfl⟩
  case retake waker =>
    rcases h with ⟨hstate, stored, hstored, hwill⟩
    unfold Concurrent.retake
    rw [hstored]
    exact ⟨⟨hstate, rfl, hwill⟩, .stays rfl rfl⟩
  case reset waker taken => exact ⟨h.2.2, .leaves rfl rfl rfl⟩
  case wakeTaken => exact ⟨trivial, .passes rfl rfl rfl⟩
  case wakeByRef => exact ⟨trivial, .passes rfl rfl rfl⟩
  case fetchOr taker =>
    rcases id hword with heq | heq | heq | heq
    · rw [Concurrent.fetchOr, if_pos heq]
      exact ⟨(congrArg (· ||| waking) heq : _), .enters rfl rfl heq⟩
    all_goals
      have hne : memory.state ≠ waiting := by
        rw [heq]
        decide
      rw [fetchOr_of_ne hword hne]
      exact ⟨trivial, .signals rfl rfl hne rfl⟩
  case remove taker => exact ⟨⟨h, rfl⟩, .stays rfl rfl⟩
  case unlock taker taken =>
    unfold Concurrent.unlock
    rw [if_pos h.1]
    exact ⟨trivial, .leaves rfl rfl rfl⟩
  case deliver => exact ⟨trivial, .passes rfl rfl rfl⟩

end Steps

namespace Guards

variable [TaskWaker W] {memory : Memory W} {pc : ι → Pc W} {t : ι} {result : Stepped W}

lemma isWord (h : Guards memory pc) : memory.IsWord := by
  rcases h.free with hwaiting | ⟨t, hinside⟩
  · exact .inl hwaiting
  · exact (h.fits t).isWord hinside

lemma outside_of_waiting (h : Guards memory pc) (hstate : memory.state = waiting) (t : ι) :
    (pc t).inside = false := by
  by_contra hinside
  exact (h.fits t).not_waiting (by simpa using hinside) hstate

lemma outside_of_inside (h : Guards memory pc) {u : ι} (ht : (pc t).inside = true)
    (hne : u ≠ t) : (pc u).inside = false := by
  by_contra hu
  exact hne (h.alone u t (by simpa using hu) ht)

lemma effect (h : Guards memory pc) (hnext : (pc t).next memory = some result) :
    Effect memory (pc t) result :=
  ((h.fits t).next h.isWord hnext).2

variable [DecidableEq ι]

/-- A thread that is inside, and nobody else. -/
lemma of_entered {pc' : Pc W} (hfits : pc'.Fits memory)
    (hother : ∀ u, u ≠ t → (pc u).Fits memory ∧ (pc u).inside = false)
    (hinside : pc'.inside = true) : Guards memory (Function.update pc t pc') where
  fits u := by
    rcases eq_or_ne u t with rfl | hne
    · rwa [Function.update_self]
    · rw [Function.update_of_ne hne]
      exact (hother u hne).1
  alone := by
    have hself : ∀ u, (Function.update pc t pc' u).inside = true → u = t := by
      intro u hu
      by_contra hne
      rw [Function.update_of_ne hne, (hother u hne).2] at hu
      cases hu
    intro u v hu hv
    rw [hself u hu, hself v hv]
  free := .inr ⟨t, by rwa [Function.update_self]⟩

/-- A thread that is outside: the others as they were, the free word if nobody is inside. -/
lemma of_outside {pc' : Pc W} (hfits : pc'.Fits memory) (hinside : pc'.inside = false)
    (hother : ∀ u, u ≠ t → (pc u).Fits memory)
    (halone : ∀ u v, (pc u).inside = true → (pc v).inside = true → u = v)
    (hfree : memory.state = waiting ∨ ∃ u, u ≠ t ∧ (pc u).inside = true) :
    Guards memory (Function.update pc t pc') where
  fits u := by
    rcases eq_or_ne u t with rfl | hne
    · rwa [Function.update_self]
    · rw [Function.update_of_ne hne]
      exact hother u hne
  alone u v hu hv := by
    have hold : ∀ w, (Function.update pc t pc' w).inside = true → (pc w).inside = true := by
      intro w hw
      rcases eq_or_ne w t with rfl | hne
      · rw [Function.update_self, hinside] at hw
        cases hw
      · rwa [Function.update_of_ne hne] at hw
    exact halone u v (hold u hu) (hold v hv)
  free := by
    refine hfree.imp_right ?_
    rintro ⟨u, hne, hu⟩
    exact ⟨u, by rwa [Function.update_of_ne hne]⟩

omit [DecidableEq ι] in
/-- While nobody or somebody else is inside, the word is free or that one is. -/
lemma free_of_outside (h : Guards memory pc) (ht : (pc t).inside = false) :
    memory.state = waiting ∨ ∃ u, u ≠ t ∧ (pc u).inside = true := by
  refine h.free.imp_right ?_
  rintro ⟨u, hu⟩
  refine ⟨u, ?_, hu⟩
  rintro rfl
  rw [ht] at hu
  cases hu

/-- A thread begins a call. -/
lemma call (h : Guards memory pc) (hidle : pc t = .idle) (call : Call W) :
    Guards memory (Function.update pc t call.pc) := by
  have houtside : (pc t).inside = false := by rw [hidle]; rfl
  refine of_outside ?_ ?_ (fun u _ => h.fits u) h.alone (h.free_of_outside houtside) <;>
    cases call <;> trivial

/-- A thread goes on with its call. -/
lemma next (h : Guards memory pc) (hnext : (pc t).next memory = some result) :
    Guards result.memory (Function.update pc t result.pc) := by
  have hfits := ((h.fits t).next h.isWord hnext).1
  rcases h.effect hnext with ⟨hbefore, hafter⟩ | ⟨hbefore, hafter, hstate⟩ |
    ⟨hbefore, hafter, hstate⟩ | ⟨hbefore, hafter, hmemory⟩ | ⟨hbefore, hafter, hstate, hmemory⟩
  · refine of_entered hfits (fun u hne => ?_) hafter
    have hu := h.outside_of_inside hbefore hne
    exact ⟨(h.fits u).of_outside hu, hu⟩
  · refine of_outside hfits hafter (fun u hne => ?_) h.alone (.inl hstate)
    exact (h.fits u).of_outside (h.outside_of_inside hbefore hne)
  · refine of_entered hfits (fun u _ => ?_) hafter
    have hu := h.outside_of_waiting hstate u
    exact ⟨(h.fits u).of_outside hu, hu⟩
  · rw [hmemory]
    exact of_outside (hmemory ▸ hfits) hafter (fun u _ => h.fits u) h.alone
      (h.free_of_outside hbefore)
  · have houtside : (pc t).inside = false := by rw [hbefore]; rfl
    rw [hmemory]
    refine of_outside (hmemory ▸ hfits) (by rw [hafter]; rfl) (fun u _ => (h.fits u).wakingToo)
      h.alone (.inr ?_)
    exact (h.free_of_outside houtside).resolve_left hstate

end Guards

lemma guards_start [TaskWaker W] : Guards (.new : Memory W) fun _ : ι => .idle where
  fits _ := trivial
  alone _ _ h := by cases h
  free := .inl rfl

lemma World.next_cases [DecidableEq ι] [TaskWaker W] {world world' : World ι W}
    {action : Action ι W} (h : world.next action = some world') :
    (∃ t call, action = .call t call ∧ world.pc t = .idle ∧
      world' = world.stepped t ⟨world.memory, call.pc, [.called call]⟩) ∨
    ∃ t result, action = .step t ∧ (world.pc t).next world.memory = some result ∧
      world' = world.stepped t result := by
  rcases action with ⟨t, call⟩ | t
  · unfold World.next at h
    dsimp only at h
    split at h
    · next hidle => exact .inl ⟨t, call, rfl, hidle, (Option.some.inj h).symm⟩
    · cases h
  · rcases Option.map_eq_some_iff.mp h with ⟨result, hresult, rfl⟩
    exact .inr ⟨t, result, rfl, hresult, rfl⟩

lemma guards_of_reachable [DecidableEq ι] [TaskWaker W] {world : World ι W}
    (h : (wakerSystem ι W).Reachable world) : Guards world.memory world.pc := by
  refine h.invariant (P := fun world => Guards world.memory world.pc) ?_ ?_
  · rintro world rfl
    exact guards_start
  · intro world action world' hworld hstep
    rcases World.next_cases hstep with ⟨t, call, -, hidle, rfl⟩ | ⟨t, result, -, hnext, rfl⟩
    · exact hworld.call hidle call
    · exact hworld.next hnext

/-- The word says who holds the cell, one thread at most does, and no assertion ever fails. -/
structure Exclusive (world : World ι W) : Prop where
  one_inside : ∀ t u, (world.pc t).inside = true → (world.pc u).inside = true → t = u
  no_fault : ∀ t, world.pc t ≠ .fault
  waiting_iff : world.memory.state = waiting ↔ ∀ t, (world.pc t).inside = false
  registering_iff : world.memory.state = registering ∨
    world.memory.state = registering ||| waking ↔ ∃ t, (world.pc t).inRegister = true
  waking_iff : world.memory.state = waking ↔ ∃ t, (world.pc t).inTake = true

lemma Guards.exclusive [TaskWaker W] {world : World ι W} (h : Guards world.memory world.pc) :
    Exclusive world where
  one_inside := h.alone
  no_fault t heq := by
    have hfits := h.fits t
    rw [heq] at hfits
    exact hfits
  waiting_iff := by
    refine ⟨h.outside_of_waiting, fun houtside => h.free.resolve_right ?_⟩
    rintro ⟨t, hinside⟩
    rw [houtside t] at hinside
    cases hinside
  registering_iff := by
    refine ⟨fun hstate => ?_, fun ⟨t, ht⟩ => (h.fits t).inRegister ht⟩
    rcases h.free with hwaiting | ⟨t, hinside⟩
    · rw [hwaiting] at hstate
      exact absurd hstate (by decide)
    · refine ⟨t, (Bool.or_eq_true_iff.mp hinside).resolve_right fun htake => ?_⟩
      rw [(h.fits t).inTake htake] at hstate
      exact absurd hstate (by decide)
  waking_iff := by
    refine ⟨fun hstate => ?_, fun ⟨t, ht⟩ => (h.fits t).inTake ht⟩
    rcases h.free with hwaiting | ⟨t, hinside⟩
    · rw [hwaiting] at hstate
      exact absurd hstate (by decide)
    · refine ⟨t, (Bool.or_eq_true_iff.mp hinside).resolve_left fun hregister => ?_⟩
      rcases (h.fits t).inRegister hregister with heq | heq <;> rw [heq] at hstate <;>
        exact absurd hstate (by decide)

/-- However many threads register, wake and take at once, the cell is in the hands of one of them,
the word says whether it is, and neither an assertion nor the `unwrap` fails. -/
theorem atomicWaker_exclusive [DecidableEq ι] [TaskWaker W] {world : World ι W}
    (h : (wakerSystem ι W).Reachable world) : Exclusive world :=
  (guards_of_reachable h).exclusive

/-- A wake and a take that come while another thread registers, and a second registration. -/
theorem atomicWaker_exclusive_contended :
    Exclusive ((System.replay World.next (World.start : World ℕ RawWaker)
      [.call 0 (.register ⟨1, 1⟩), .call 1 (.taking .wake), .step 0, .step 1, .step 0,
        .call 1 (.taking .take), .step 1, .call 2 (.register ⟨2, 2⟩), .step 2, .step 0]).get rfl) :=
  atomicWaker_exclusive (System.reachable_replay rfl)

/-! ### What becomes of the clones -/

/-- The call that the thread is in. -/
@[simp] def Pc.call : Pc W → Option (Call W)
  | .compareWaiting waker | .update waker | .compareRegistering waker | .retake waker |
    .reset waker _ | .wakeTaken waker _ | .wakeByRef waker => some (.register waker)
  | .fetchOr taker | .remove taker | .unlock taker _ | .deliver taker _ => some (.taking taker)
  | .idle | .fault => none

namespace Note

@[simp] def isCalled : Note W → Bool
  | .called _ => true
  | _ => false

/-- A `take` hands out what it has taken and calls nothing; the other calls hand nothing out. -/
@[simp] def Of (call : Call W) : Note W → Prop
  | .handedOut _ => call = .taking .take
  | .woke _ | .wokeByRef _ => call ≠ .taking .take
  | _ => True

/-- A clone that goes into the cell. -/
@[simp] def storedClones : ι × Note W → List W
  | (_, .stored waker) => [waker]
  | _ => []

/-- A clone that leaves the cell, replaced or taken. -/
@[simp] def leftClones : ι × Note W → List W
  | (_, .dropped waker) | (_, .taken waker) => [waker]
  | _ => []

variable [DecidableEq ι]

/-- The thread begins a call. -/
def begins (t : ι) (entry : ι × Note W) : Bool :=
  entry.2.isCalled && decide (entry.1 = t)

/-- What a thread does belongs to the call that it has begun last. -/
def Fitting (entry : ι × Note W) (earlier : List (ι × Note W)) : Prop :=
  entry.2.isCalled = true ∨
    ∃ call, Latest (begins entry.1) earlier (entry.1, .called call) ∧ entry.2.Of call

@[simp] def takenBy (t : ι) : ι × Note W → List W
  | (u, .taken waker) => if u = t then [waker] else []
  | _ => []

/-- A clone that the thread calls or hands out. -/
@[simp] def givenBy (t : ι) : ι × Note W → List W
  | (u, .woke waker) | (u, .handedOut waker) => if u = t then [waker] else []
  | _ => []

end Note

/-- Each clone leaves the cell once, in the order in which the clones came, and a thread that has
taken one gives it away before it does anything else: in a `take` to the caller, in another call by
waking its task. -/
structure ClonesConserved [DecidableEq ι] (world : World ι W) : Prop where
  cell : Balanced Note.storedClones Note.leftClones world.log world.memory.waker.toList
  hands : ∀ t, Balanced (Note.takenBy t) (Note.givenBy t) world.log (world.pc t).hand.toList
  calls : Throughout Note.Fitting world.log

section Clones

variable [DecidableEq ι] [TaskWaker W] {world : World ι W} {t : ι}

/-- The notes of a thread balance what it does to the cell and what it has in its hand. -/
lemma Guards.balances (h : Guards world.memory world.pc) {result : Stepped W}
    (hnext : (world.pc t).next world.memory = some result) :
    world.memory.waker.toList ++ total Note.storedClones (result.notes.map (Prod.mk t)) =
        total Note.leftClones (result.notes.map (Prod.mk t)) ++ result.memory.waker.toList ∧
      (world.pc t).hand.toList ++ total (Note.takenBy t) (result.notes.map (Prod.mk t)) =
        total (Note.givenBy t) (result.notes.map (Prod.mk t)) ++ result.pc.hand.toList := by
  have hfits := ((h.fits t).next h.isWord hnext).1
  rcases hpc : world.pc t <;> rw [hpc] at hnext <;>
    simp only [Pc.next, Option.some.injEq, reduceCtorEq] at hnext <;> subst hnext
  case compareWaiting waker =>
    unfold Concurrent.compareWaiting
    split_ifs <;> simp [total, Pc.hand]
  case update waker =>
    unfold Concurrent.update
    rcases hwaker : world.memory.waker with _ | old
    · simp [total, Pc.hand]
    · dsimp only
      split_ifs <;> simp [total, Pc.hand, hwaker]
  case compareRegistering waker =>
    unfold Concurrent.compareRegistering
    split_ifs <;> simp [total, Pc.hand]
  case retake waker =>
    unfold Concurrent.retake
    rcases hwaker : world.memory.waker with _ | taken <;>
      simp [total, Pc.hand, hwaker]
  case fetchOr =>
    unfold Concurrent.fetchOr
    dsimp only
    split_ifs <;> simp [total, Pc.hand]
  case remove =>
    rcases world.memory.waker with _ | taken <;>
      simp [total, Pc.hand]
  case unlock taker taken =>
    unfold Concurrent.unlock at hfits ⊢
    split_ifs at hfits ⊢
    · simp [total, Pc.hand]
    · exact hfits.elim
  case deliver taker taken =>
    rcases taken with _ | taken <;> cases taker <;>
      simp [total, Pc.hand, Taker.give]
  all_goals simp [total, Pc.hand]

omit [TaskWaker W] in
/-- The books of the other threads do not change. -/
lemma hands_of_ne {u : ι} (hne : u ≠ t) (notes : List (Note W)) :
    total (Note.takenBy u) (notes.map (Prod.mk t)) = [] ∧
      total (Note.givenBy u) (notes.map (Prod.mk t)) = [] := by
  induction notes with
  | nil => exact ⟨rfl, rfl⟩
  | cons note notes ih =>
    rw [List.map_cons, total, total, ih.1, ih.2]
    cases note <;> simp [hne.symm]

omit [DecidableEq ι] in
/-- A thread stays in its call and begins no other one. -/
lemma Pc.next_call {memory : Memory W} {pc : Pc W} {result : Stepped W}
    (hnext : pc.next memory = some result) :
    ∃ call, pc.call = some call ∧ (∀ note ∈ result.notes, note.isCalled = false ∧ note.Of call) ∧
      (result.pc.call = some call ∨ result.pc.call = none) := by
  cases pc <;> simp only [Pc.next, Option.some.injEq, reduceCtorEq] at hnext <;> subst hnext <;>
    refine ⟨_, rfl, ?_⟩
  case compareWaiting waker =>
    unfold Concurrent.compareWaiting
    split_ifs <;> simp
  case update waker =>
    unfold Concurrent.update
    rcases memory.waker with _ | old
    · simp
    · dsimp only
      split_ifs <;> simp
  case compareRegistering waker =>
    unfold Concurrent.compareRegistering
    split_ifs <;> simp
  case retake waker =>
    unfold Concurrent.retake
    rcases memory.waker with _ | taken <;> simp
  case fetchOr taker =>
    unfold Concurrent.fetchOr
    dsimp only
    split_ifs <;> simp
  case remove taker =>
    rcases memory.waker with _ | taken <;> simp
  case unlock taker taken =>
    unfold Concurrent.unlock
    split_ifs <;> simp
  case deliver taker taken =>
    rcases taken with _ | taken <;> cases taker <;>
      simp [Taker.give]
  all_goals simp

omit [TaskWaker W] in
lemma begins_map {u : ι} {notes : List (Note W)}
    (hnotes : ∀ note ∈ notes, note.isCalled = false) :
    ∀ entry ∈ notes.map (Prod.mk t), Note.begins u entry = false := by
  rintro entry hentry
  rcases List.mem_map.mp hentry with ⟨note, hnote, rfl⟩
  rw [Note.begins, hnotes note hnote, Bool.false_and]

/-- A thread that is in a call has begun it last. -/
def World.Begun (world : World ι W) : Prop :=
  ∀ t call, (world.pc t).call = some call →
    Latest (Note.begins t) world.log (t, .called call)

lemma World.Begun.next (h : world.Begun) {action : Action ι W} {world' : World ι W}
    (hnext : world.next action = some world') : world'.Begun := by
  rcases World.next_cases hnext with ⟨t, call, -, hidle, rfl⟩ | ⟨t, result, -, hresult, rfl⟩ <;>
    intro u begun hu <;> change (Function.update world.pc t _ u).call = some begun at hu
  · by_cases hut : u = t
    · subst hut
      rw [Function.update_self] at hu
      have hcall : call = begun := by
        cases call <;> exact Option.some.inj hu
      rw [← hcall]
      exact (latest_cons_of_pos (by simp [Note.begins])).mpr rfl
    · rw [Function.update_of_ne hut] at hu
      exact (latest_cons_of_neg (by simp [Note.begins, Ne.symm hut])).mpr (h u begun hu)
  · rcases Pc.next_call hresult with ⟨call, hcall, hnotes, hafter⟩
    refine (latest_append_of_neg (begins_map fun note hnote => (hnotes note hnote).1)).mpr ?_
    by_cases hut : u = t
    · subst hut
      rw [Function.update_self] at hu
      rcases hafter with hsame | hnone
      · exact h u begun (hcall.trans (hsame.symm.trans hu))
      · rw [hnone] at hu
        cases hu
    · rw [Function.update_of_ne hut] at hu
      exact h u begun hu

lemma begun_of_reachable (h : (wakerSystem ι W).Reachable world) : world.Begun := by
  refine h.invariant ?_ fun _ _ _ hworld hstep => hworld.next hstep
  rintro world rfl t call hcall
  cases hcall

/-- The notes of an access belong to the call. -/
lemma World.Begun.fitting (h : world.Begun) {result : Stepped W}
    (hnext : (world.pc t).next world.memory = some result)
    (hlog : Throughout Note.Fitting world.log) :
    Throughout Note.Fitting (world.stepped t result).log := by
  rcases Pc.next_call hnext with ⟨call, hcall, hnotes, -⟩
  refine hlog.append fun later entry earlier heq => .inr ⟨call, ?_⟩
  have hentry : entry ∈ result.notes.map (Prod.mk t) := by
    rw [heq]
    exact List.mem_append_right later List.mem_cons_self
  rcases List.mem_map.mp hentry with ⟨note, hnote, rfl⟩
  refine ⟨(latest_append_of_neg fun other hother => ?_).mpr (h t call hcall), (hnotes note hnote).2⟩
  refine begins_map (t := t) (fun note hnote => (hnotes note hnote).1) other ?_
  rw [heq]
  exact List.mem_append_right later (List.mem_cons_of_mem _ hother)

lemma ClonesConserved.next (h : ClonesConserved world) (hguards : Guards world.memory world.pc)
    (hbegun : world.Begun) {action : Action ι W} {world' : World ι W}
    (hnext : world.next action = some world') : ClonesConserved world' := by
  rcases World.next_cases hnext with ⟨t, call, -, hidle, rfl⟩ | ⟨t, result, -, hresult, rfl⟩
  · refine ⟨h.cell.cons_of_nil rfl rfl, fun u => ?_, .inl rfl, h.calls⟩
    have hhand : (Function.update world.pc t call.pc u).hand = (world.pc u).hand := by
      rcases eq_or_ne u t with rfl | hne
      · rw [Function.update_self, hidle]
        cases call <;> rfl
      · rw [Function.update_of_ne hne]
    exact (h.hands u).cons (by simp [World.stepped, hhand])
  · have hbalances := hguards.balances hresult
    refine ⟨h.cell.append _ hbalances.1, fun u => ?_, hbegun.fitting hresult h.calls⟩
    refine (h.hands u).append _ ?_
    rcases eq_or_ne u t with rfl | hne
    · simpa [World.stepped] using hbalances.2
    · rw [(hands_of_ne hne _).1, (hands_of_ne hne _).2]
      simp [World.stepped, hne]

end Clones

/-- However the calls interleave, no clone of a waker is lost, called twice or handed out twice. -/
theorem atomicWaker_conserves_clones [DecidableEq ι] [TaskWaker W] {world : World ι W}
    (h : (wakerSystem ι W).Reachable world) : ClonesConserved world := by
  refine h.invariant' ?_ ?_
  · rintro world rfl
    exact ⟨balanced_nil, fun _ => balanced_nil, trivial⟩
  · intro world action world' hreach hworld hstep
    exact hworld.next (guards_of_reachable hreach) (begun_of_reachable hreach) hstep

/-- One clone is replaced, one is taken back by its own registration, and one is handed out. -/
theorem atomicWaker_conserves_clones_contended :
    ClonesConserved ((System.replay World.next (World.start : World ℕ RawWaker)
      [.call 0 (.register ⟨1, 1⟩), .step 0, .step 0, .step 0, .call 0 (.register ⟨2, 2⟩), .step 0,
        .call 1 (.taking .wake), .step 1, .step 0, .step 0, .step 0, .step 0, .step 0,
        .call 0 (.register ⟨3, 3⟩), .step 0, .step 0, .step 0, .call 1 (.taking .take), .step 1,
        .step 1, .step 1, .step 1]).get rfl) :=
  atomicWaker_conserves_clones (System.reachable_replay rfl)

end DoomFishUtils.AtomicWaker.Concurrent
