import DoomFishUtils.Completion.Balance

/-!
# Waiting for a callback

A thread that is blocked without a notification and a task whose latest poll is pending are not
forgotten: no result is stored, or the winning call has yet to notify or to wake, or has done so.
-/

namespace DoomFishUtils.Completion

set_option autoImplicit false

open DoomFishUtils.Library

section Shared

variable {R A : Type} {shared : Shared R A} {holder : Holder} {event : Event R}

lemma mem_swap {result : R} (hmem : event ∈ (shared.swap result).log)
    (hevent : ∀ won, event ≠ .called result won) : event ∈ shared.log := by
  unfold Shared.swap at hmem
  split_ifs at hmem
  · exact (List.mem_cons.mp hmem).resolve_left (hevent false)
  · exact (List.mem_cons.mp hmem).resolve_left (hevent true)

lemma swap_result (shared : Shared R A) (result : R) :
    (shared.swap result).result = shared.result := by
  unfold Shared.swap
  split_ifs <;> rfl

/-- No call that comes after the winner takes its place. -/
lemma Handover.swap_signalling {holds : Bool} {hand : List R} (h : Handover shared holds hand)
    {signal : A} (hwinner : shared.winner = .signalling signal) (result : R) :
    (shared.swap result).winner = .signalling signal := by
  unfold Shared.swap
  split_ifs with hconsumed
  · exact hwinner
  · cases hwinner.symm.trans (h.fresh (Bool.not_eq_true _ ▸ hconsumed)).1

/-- A release records itself and perhaps the end of the allocation. -/
lemma mem_release (hmem : event ∈ (shared.release holder).log)
    (hevent : ∀ result, event ≠ .freed result) (hreleased : event ≠ .released holder) :
    event ∈ shared.log := by
  unfold Shared.release at hmem
  split_ifs at hmem
  · rcases List.mem_cons.mp hmem with heq | hmem
    · exact absurd heq (hevent _)
    · exact (List.mem_cons.mp hmem).resolve_left hreleased
  · exact (List.mem_cons.mp hmem).resolve_left hreleased

lemma release_result (hnone : shared.result = none) (holder : Holder) :
    (shared.release holder).result = none := by
  unfold Shared.release
  split_ifs
  · rfl
  · exact hnone

end Shared

/-! ### The synchronous completion -/

namespace Sync

variable {T : Type}

/-- The latest check found no result after more time than the timeout. -/
def Expired (checks : List (Check T)) : Prop :=
  ∃ check earlier timer, checks = check :: earlier ∧ check.timer = some timer ∧
    check.found = none ∧ timer.timeout < check.now - timer.start

/-- No wait is stranded: a blocked thread has nothing to return or a notification is due, and
`wait_timeout` gives up only after its timeout. -/
structure World.NotStranded (world : World T) : Prop where
  blocked : ∀ timer, world.owner = .blocked timer →
    world.shared.result = none ∨ world.shared.winner = .signalling ()
  expired : world.owner = .returning none ∨ .returned none ∈ world.shared.log →
    Expired world.checks
  ended : .returned none ∈ world.shared.log → world.owner = .gone

variable {world world' : World T}

/-- A step after which the owner is where it was. -/
lemma World.NotStranded.stay (h : world.NotStranded) (howner : world'.owner = world.owner)
    (hchecks : world'.checks = world.checks)
    (hlog : .returned none ∈ world'.shared.log → .returned none ∈ world.shared.log)
    (hblocked : ∀ timer, world.owner = .blocked timer →
      world'.shared.result = none ∨ world'.shared.winner = .signalling ()) :
    world'.NotStranded where
  blocked timer hnow := hblocked timer (howner ▸ hnow)
  expired hanswer := by
    rw [hchecks]
    rw [howner] at hanswer
    exact h.expired (hanswer.imp_right hlog)
  ended hreturned := howner.trans (h.ended (hlog hreturned))

/-- A step of the owner that neither blocks nor gives up. -/
lemma World.NotStranded.move (h : world.NotStranded) (hlive : world.owner ≠ .gone)
    (hlog : .returned none ∈ world'.shared.log → .returned none ∈ world.shared.log)
    (hblocked : ∀ timer, world'.owner ≠ .blocked timer) (hanswer : world'.owner ≠ .returning none) :
    world'.NotStranded where
  blocked timer hnow := absurd hnow (hblocked timer)
  expired hnow := by
    rcases hnow with hnow | hreturned
    · exact absurd hnow hanswer
    · exact absurd (h.ended (hlog hreturned)) hlive
  ended hreturned := absurd (h.ended (hlog hreturned)) hlive

lemma World.NotStranded.check (h : world.NotStranded) {timer : Option Timer}
    (howner : world.owner = .checking timer) : (world.check timer).NotStranded := by
  have hlive : world.owner ≠ .gone := by
    rw [howner]
    nofun
  have hnever : .returned none ∉ world.shared.log := fun hreturned =>
    hlive (h.ended hreturned)
  unfold World.check Shared.take
  rcases world.shared.result with _ | result
  · rcases timer with _ | timer
    · exact ⟨fun _ _ => .inl rfl, fun hnow => hnow.elim nofun fun hmem => absurd hmem hnever,
        fun hmem => absurd hmem hnever⟩
    · dsimp only
      rcases hremaining : timer.remaining world.now with _ | remaining
      · refine ⟨nofun, fun _ => ⟨_, _, timer, rfl, rfl, rfl, ?_⟩, fun hmem => absurd hmem hnever⟩
        unfold Timer.remaining at hremaining
        split_ifs at hremaining with hle
        exact Nat.lt_of_not_le hle
      · exact ⟨fun _ _ => .inl rfl, fun hnow => hnow.elim nofun fun hmem => absurd hmem hnever,
          fun hmem => absurd hmem hnever⟩
  · exact ⟨nofun, fun hnow => hnow.elim nofun fun hmem => absurd hmem hnever,
      fun hmem => absurd hmem hnever⟩

/-- The winner's steps: what it stores is under the debt of a notification. -/
lemma World.NotStranded.stepWinner (h : world.NotStranded)
    (hnext : world.stepWinner = some world') : world'.NotStranded := by
  unfold World.stepWinner at hnext
  rcases hwinner : world.shared.winner with _ | result | ⟨⟩ | _ | _ <;> rw [hwinner] at hnext <;>
    cases hnext
  · refine h.stay rfl rfl (fun hmem => ?_) fun _ _ => .inr rfl
    rcases List.mem_cons.mp hmem with heq | hmem
    · cases heq
    · exact hmem
  · unfold World.notifyOne
    rcases howner : world.owner with _ | timer | timer | answer | _
    case blocked =>
      refine h.move ?_ id nofun nofun
      rw [howner]
      nofun
    all_goals
      refine h.stay rfl rfl id fun timer hblocked => ?_
      cases howner.symm.trans hblocked
  · refine h.stay rfl rfl (fun hmem => ?_) fun timer hblocked => .inl ?_
    · exact mem_release hmem nofun nofun
    · rcases h.blocked timer hblocked with hnone | hsignalling
      · exact release_result hnone _
      · cases hwinner.symm.trans hsignalling

lemma World.NotStranded.next (h : world.NotStranded) (hbalances : world.Balances)
    {action : Action T} (hnext : world.next action = some world') : world'.NotStranded := by
  rcases action with ⟨_ | _, result⟩ | _ | _ | timeout | _ | _ | _ | _ | _ <;>
    unfold World.next at hnext <;> dsimp only at hnext
  case complete.null => exact Option.some.inj hnext ▸ h
  case complete.raw =>
    split_ifs at hnext
    refine Option.some.inj hnext ▸ h.stay rfl rfl (fun hmem => mem_swap hmem nofun)
      fun timer hblocked => ?_
    rcases h.blocked timer hblocked with hnone | hsignalling
    · exact .inl ((swap_result _ _).trans hnone)
    · exact .inr (Handover.swap_signalling hbalances hsignalling result)
  case winner => exact h.stepWinner hnext
  case wait =>
    split at hnext
    · next howner =>
      refine Option.some.inj hnext ▸ h.move ?_ id nofun nofun
      rw [howner]
      nofun
    · cases hnext
  case waitTimeout =>
    split at hnext
    · next howner =>
      refine Option.some.inj hnext ▸ h.move ?_ id nofun nofun
      rw [howner]
      nofun
    · cases hnext
  case check =>
    split at hnext
    · next howner => exact Option.some.inj hnext ▸ h.check howner
    · cases hnext
  case wakeUp =>
    split at hnext
    · next howner =>
      refine Option.some.inj hnext ▸ h.move ?_ id nofun nofun
      rw [howner]
      nofun
    · cases hnext
  case finish =>
    split at hnext
    · next answer howner =>
      cases hnext
      exact {
        blocked := nofun
        expired := fun hnow => h.expired (by
          rcases hnow with hnow | hmem
          · cases hnow
          · rcases List.mem_cons.mp hmem with heq | hmem
            · cases heq
              exact .inl howner
            · exact .inr (mem_release hmem nofun nofun))
        ended := fun _ => rfl }
    · cases hnext
  case drop =>
    split at hnext
    · next howner =>
      refine Option.some.inj hnext ▸ h.move ?_ (fun hmem => ?_) nofun nofun
      · rw [howner]
        nofun
      · exact mem_release hmem nofun nofun
    · cases hnext
  case tick =>
    exact Option.some.inj hnext ▸ h.stay rfl rfl id fun timer hblocked => h.blocked timer hblocked

lemma notStranded_of_reachable {created : ℕ} (h : (syncSystem T created).Reachable world) :
    world.NotStranded := by
  refine h.invariant' ?_ fun world action world' hreachable hworld hnext =>
    hworld.next (balances_of_reachable hreachable) hnext
  rintro world rfl
  exact ⟨nofun, fun hnow => hnow.elim nofun nofun, nofun⟩

end Sync

/-! ### The asynchronous completion -/

namespace Async

variable {T W : Type}

def Event.isPoll : Event T W → Bool
  | .polled _ _ => true
  | _ => false

/-- No task is stranded: the state never holds both a result and a waker, and after a pending
poll the stored waker wakes its task while no result is stored, or the winner has taken that
waker and has woken it or is about to. -/
structure World.NotStranded [TaskWaker W] (world : World T W) : Prop where
  exclusive : world.shared.result = none ∨ world.waker = none
  pending : ∀ waker, Latest Event.isPoll world.log (.polled waker .pending) →
    (world.shared.result = none ∧
      ∃ stored, world.waker = some stored ∧ willWake stored waker = true) ∨
    ∃ taken, willWake taken waker = true ∧
      (world.shared.winner = .signalling (some taken) ∨
        Since Event.isPoll world.log (.woke taken))

variable [TaskWaker W] {world world' : World T W}

/-- A step that leaves the wakers and their history alone. -/
lemma World.NotStranded.stay (h : world.NotStranded) (hwaker : world'.waker = world.waker)
    (hlog : world'.log = world.log)
    (hresult : world.shared.result = none → world'.shared.result = none)
    (hwinner : ∀ taken, world.shared.winner = .signalling (some taken) →
      world'.shared.winner = .signalling (some taken))
    (hexclusive : world.waker = none → world'.shared.result = none ∨ world'.waker = none) :
    world'.NotStranded where
  exclusive := h.exclusive.elim (fun hnone => .inl (hresult hnone)) hexclusive
  pending waker hlatest := by
    rw [hlog] at hlatest ⊢
    rw [hwaker]
    rcases h.pending waker hlatest with ⟨hnone, hstored⟩ | ⟨taken, hwill, hcalled⟩
    · exact .inl ⟨hresult hnone, hstored⟩
    · exact .inr ⟨taken, hwill, hcalled.imp_left (hwinner taken)⟩

lemma storeWaker_cases (world : World T W) (waker : W) :
    ∃ stored, world.storeWaker waker = some stored ∧ willWake stored waker = true := by
  unfold World.storeWaker
  rcases world.waker with _ | existing
  · exact ⟨waker, rfl, willWake_self waker⟩
  · dsimp only
    split_ifs with hwill
    · exact ⟨existing, rfl, hwill⟩
    · exact ⟨waker, rfl, willWake_self waker⟩

/-- A poll returns the result or leaves a waker of its task where no result is. -/
lemma World.notStranded_poll (world : World T W) (waker : W) : (world.poll waker).NotStranded := by
  unfold World.poll Shared.take
  rcases world.shared.result with _ | result
  · refine ⟨.inl rfl, fun other hlatest => .inl ⟨rfl, ?_⟩⟩
    have hpoll := (latest_cons_of_pos rfl).mp hlatest
    cases hpoll
    exact storeWaker_cases world waker
  · refine ⟨.inl rfl, fun other hlatest => ?_⟩
    cases (latest_cons_of_pos rfl).mp hlatest

/-- The winner's steps: it takes the waker as it stores the result, and then calls it. -/
lemma World.NotStranded.stepWinner (h : world.NotStranded)
    (hnext : world.stepWinner = some world') : world'.NotStranded := by
  unfold World.stepWinner at hnext
  rcases hwinner : world.shared.winner with _ | result | waker | _ | _ <;> rw [hwinner] at hnext <;>
    cases hnext
  · refine ⟨.inr rfl, fun waker hlatest => .inr ?_⟩
    rcases h.pending waker hlatest with ⟨-, stored, hstored, hwill⟩ | ⟨taken, hwill, hcalled⟩
    · exact ⟨stored, hwill, .inl (congrArg Winner.signalling hstored)⟩
    · refine ⟨taken, hwill, .inr (hcalled.resolve_left fun hsignalling => ?_)⟩
      cases hwinner.symm.trans hsignalling
  · refine ⟨h.exclusive, fun other hlatest => ?_⟩
    rcases waker with _ | waker
    · refine (h.pending other hlatest).imp_right ?_
      rintro ⟨taken, hwill, hcalled⟩
      refine ⟨taken, hwill, .inr (hcalled.resolve_left fun hsignalling => ?_)⟩
      cases hwinner.symm.trans hsignalling
    · refine (h.pending other ((latest_cons_of_neg rfl).mp hlatest)).imp_right ?_
      rintro ⟨taken, hwill, hsignalling | hcalled⟩
      · cases hwinner.symm.trans hsignalling
        exact ⟨waker, hwill, .inr (since_cons_self rfl)⟩
      · exact ⟨taken, hwill, .inr (hcalled.cons rfl)⟩
  · refine h.stay rfl rfl (fun hnone => release_result hnone _) (fun taken hsignalling => ?_) .inr
    cases hwinner.symm.trans hsignalling

lemma World.NotStranded.next (h : world.NotStranded) (hbalances : world.Balances)
    {action : Action T W} (hnext : world.next action = some world') : world'.NotStranded := by
  rcases action with ⟨_ | _, result⟩ | _ | waker | _ <;> unfold World.next at hnext <;>
    dsimp only at hnext
  case complete.null => exact Option.some.inj hnext ▸ h
  case complete.raw =>
    split_ifs at hnext
    exact Option.some.inj hnext ▸ h.stay rfl rfl (fun hnone => (swap_result _ _).trans hnone)
      (fun taken hsignalling => Handover.swap_signalling hbalances hsignalling result) .inr
  case winner => exact h.stepWinner hnext
  case poll =>
    split_ifs at hnext
    exact Option.some.inj hnext ▸ world.notStranded_poll waker
  case drop =>
    split_ifs at hnext
    refine Option.some.inj hnext ▸ h.stay rfl rfl (fun hnone => release_result hnone _)
      (fun taken hsignalling => ?_) .inr
    exact (release_winner _ _).trans hsignalling

lemma notStranded_of_reachable (h : (asyncSystem T W).Reachable world) : world.NotStranded := by
  refine h.invariant' ?_ fun world action world' hreachable hworld hnext =>
    hworld.next (balances_of_reachable hreachable) hnext
  rintro world rfl
  exact ⟨.inl rfl, nofun⟩

end Async

/-- No wait for a completion and no poll of one is stranded. -/
theorem completions_strand_no_waiter {T W : Type} [TaskWaker W] {created : ℕ} {sync : Sync.World T}
    {async : Async.World T W} (hsync : (Sync.syncSystem T created).Reachable sync)
    (hasync : (Async.asyncSystem T W).Reachable async) : sync.NotStranded ∧ async.NotStranded :=
  ⟨Sync.notStranded_of_reachable hsync, Async.notStranded_of_reachable hasync⟩

/-- A wait that gives up after a spurious wakeup, and a task that polls with a second waker before
it is woken. -/
theorem completions_strand_no_waiter_timeout :
    let sync := (System.replay Sync.World.next (Sync.World.start 7 : Sync.World ℕ)
      [.waitTimeout 1, .check, .wakeUp, .tick, .check, .tick, .wakeUp, .complete .raw (.ok 5),
        .check, .finish]).get rfl
    let async := (System.replay Async.World.next (Async.World.start : Async.World ℕ RawWaker)
      [.poll ⟨1, 1⟩, .complete .raw (.ok 5), .poll ⟨2, 2⟩, .winner, .winner]).get rfl
    sync.NotStranded ∧ async.NotStranded :=
  completions_strand_no_waiter (System.reachable_replay rfl) (System.reachable_replay rfl)

end DoomFishUtils.Completion
