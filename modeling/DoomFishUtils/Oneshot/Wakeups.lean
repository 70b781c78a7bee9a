import DoomFishUtils.Oneshot.Delivery
import DoomFishUtils.Registration

/-!
# Wakeups of both sides

A side that waits has its waker in its cell or has been called, and until it is called the other
side has not finished: it has not changed the state, or it still has to wake.
-/

namespace DoomFishUtils.Oneshot

set_option autoImplicit false

open DoomFishUtils.Library

variable {T W : Type}

/-- How far a side is with a poll. -/
inductive Place (W : Type) where
  | outside
  | registering (waker : W)
  | rechecking (waker : W)

def Sender.place : Sender T W → Place W
  | .registering waker => .registering waker
  | .rechecking waker => .rechecking waker
  | _ => .outside

def Receiver.place : Receiver T W → Place W
  | .registering waker => .registering waker
  | .rechecking waker => .rechecking waker
  | _ => .outside

/-- The sender is between what it did to the state and the wake after it. -/
def Sender.owesWake : Sender T W → Bool
  | .leaving _ => true
  | .waking _ => true
  | _ => false

lemma Sender.unused_or_owesWake {sender : Sender T W} (h : sender.isDropped = false) :
    sender.isUnused = true ∨ sender.owesWake = true := by
  rcases sender with _ | _ | _ | _ | _ | _
  all_goals first | exact .inl rfl | exact .inr rfl | cases h

/-- The receiver is between its drop and the wake after it. -/
def Receiver.owesWake : Receiver T W → Bool
  | .waking _ => true
  | _ => false

namespace Event

/-- What an event says about the waker of a side. -/
def note (side : Side) : Event T W → Option (WakerNote W)
  | .registered other waker => if other = side then some (.registered waker) else none
  | .woke other waker => if other = side then some (.woke waker) else none
  | _ => none

def isPollOf : Side → Event T W → Bool
  | .sender, .cancellationPolled _ _ => true
  | .receiver, .polled _ _ => true
  | _, _ => false

/-- The event of a poll that returns pending. -/
def pendingPoll (side : Side) (waker : W) : Event T W :=
  match side with
  | .sender => .cancellationPolled waker .pending
  | .receiver => .polled waker .pending

/-- An event that neither registers a waker of the side nor ends a poll of it. -/
def IsForeign (side : Side) (event : Event T W) : Prop :=
  IsRegistration (note side) event = false ∧ isPollOf side event = false

end Event

namespace World

def cell (world : World T W) : Side → AtomicWaker W
  | .sender => world.senderWaker
  | .receiver => world.receiverWaker

def place (world : World T W) : Side → Place W
  | .sender => world.sender.place
  | .receiver => world.receiver.place

/-- The other side has not changed the state yet, or still has to wake. -/
def PeerUnfinished (world : World T W) : Side → Prop
  | .sender => world.receiver.isDropped = false ∨ world.receiver.owesWake = true
  | .receiver => world.sender.isUnused = true ∨ world.sender.owesWake = true

/-- The latest poll of the side has returned pending. -/
def Pending (world : World T W) (side : Side) (waker : W) : Prop :=
  world.place side = .outside ∧ Latest (Event.isPollOf side) world.log (Event.pendingPoll side waker)

/-- The side has registered the waker in its latest poll, which may still go on. -/
def Expecting (world : World T W) (side : Side) (waker : W) : Prop :=
  world.place side = .rechecking waker ∨ world.Pending side waker

/-- What a waiting side is owed until its waker is called. -/
def Owed (world : World T W) (side : Side) : Prop :=
  (∃ waker, world.place side = .rechecking waker) ∨ world.PeerUnfinished side

def Watched [TaskWaker W] (world : World T W) (side : Side) : Prop :=
  Guarded (Event.note side) (world.cell side) world.log (world.Expecting side)
    fun _ => world.Owed side

end World

section Steps

variable [TaskWaker W] {world world' : World T W} {side : Side}

/-- A step that is no step of a poll of the side. -/
lemma World.Watched.stay (h : world.Watched side) (hcell : world'.cell side = world.cell side)
    (hplace : world'.place side = world.place side) {events : List (Event T W)}
    (hlog : world'.log = events ++ world.log) (hevents : ∀ event ∈ events, event.IsForeign side)
    (howed : world.PeerUnfinished side → world'.PeerUnfinished side) : world'.Watched side := by
  have hquiet := Guarded.append h fun event hmem => (hevents event hmem).1
  unfold World.Watched
  rw [hcell, hlog]
  refine hquiet.mono (fun waker => ?_) fun _ _ => ?_
  · unfold World.Expecting World.Pending
    rw [hplace, hlog, latest_append_of_neg fun event hmem => (hevents event hmem).2]
    exact id
  · unfold World.Owed
    rw [hplace]
    exact Or.imp_right howed

/-- A poll that goes on to its registration. -/
lemma World.watched_of_registering {waker : W} (hplace : world'.place side = .registering waker) :
    world'.Watched side := by
  refine guarded_of_none fun other => ?_
  rintro (hrechecking | ⟨houtside, -⟩)
  · cases hplace.symm.trans hrechecking
  · cases hplace.symm.trans houtside

/-- A poll that returns something else than pending. -/
lemma World.watched_of_answer {event : Event T W} {log : List (Event T W)}
    (hplace : world'.place side = .outside) (hlog : world'.log = event :: log)
    (hpoll : event.isPollOf side = true) (hevent : ∀ waker, event ≠ .pendingPoll side waker) :
    world'.Watched side := by
  refine guarded_of_none fun other => ?_
  rintro (hrechecking | ⟨-, hlatest⟩)
  · cases hplace.symm.trans hrechecking
  · rw [hlog, latest_cons_of_pos hpoll] at hlatest
    exact hevent other hlatest

/-- The registration of a poll. -/
lemma World.watched_register {waker : W} (hplace : world'.place side = .rechecking waker)
    (hcell : world'.cell side = (world.cell side).register waker) : world'.Watched side := by
  unfold World.Watched
  rw [hcell]
  refine guarded_register _ _ (fun other => ?_) fun _ _ => .inl ⟨waker, hplace⟩
  rintro (hrechecking | ⟨houtside, -⟩)
  · injection hrechecking.symm.trans hplace
  · cases hplace.symm.trans houtside

/-- The second section of a poll that returns pending. -/
lemma World.Watched.pending (h : world.Watched side) {waker : W}
    (hrechecking : world.place side = .rechecking waker)
    (hcell : world'.cell side = world.cell side) (hplace : world'.place side = .outside)
    (hlog : world'.log = .pendingPoll side waker :: world.log)
    (howed : world'.PeerUnfinished side) : world'.Watched side := by
  have hpoll : (Event.pendingPoll side waker : Event T W).isPollOf side = true := by
    cases side <;> rfl
  have hquiet : IsRegistration (Event.note side) (.pendingPoll side waker : Event T W) = false := by
    cases side <;> rfl
  unfold World.Watched
  rw [hcell, hlog]
  refine Guarded.cons h hquiet (fun other hexpecting => .inl ?_) fun _ _ _ => .inr howed
  rcases hexpecting with hnow | ⟨-, hlatest⟩
  · cases hplace.symm.trans hnow
  · rw [hlog, latest_cons_of_pos hpoll] at hlatest
    have hsame : waker = other := by
      cases side <;> injection hlatest
    rw [hrechecking, hsame]

/-- A wake of the side. -/
lemma World.Watched.wake (h : world.Watched side) (hcell : world'.cell side = (world.cell side).take.2)
    (hplace : world'.place side = world.place side) {events : List (Event T W)}
    (hlog : world'.log =
      events ++ ((world.cell side).take.1.toList.map (.woke side) ++ world.log))
    (hevents : ∀ event ∈ events, event.IsForeign side) : world'.Watched side := by
  have hnote : ∀ waker, Event.note side (.woke side waker : Event T W) = some (.woke waker) :=
    fun waker => if_pos rfl
  have hwoke : ∀ event ∈ (world.cell side).take.1.toList.map (Event.woke (T := T) side),
      event.isPollOf side = false := by
    intro event hmem
    rcases List.mem_map.mp hmem with ⟨waker, -, rfl⟩
    cases side <;> rfl
  unfold World.Watched
  rw [hcell, hlog]
  refine (Guarded.take h hnote fun waker hexpecting => ?_).append fun event hmem =>
    (hevents event hmem).1
  unfold World.Expecting World.Pending at hexpecting ⊢
  rw [hplace, hlog, latest_append_of_neg fun event hmem => (hevents event hmem).2,
    latest_append_of_neg hwoke] at hexpecting
  exact hexpecting

omit [TaskWaker W] in
lemma Event.foreign_woke {other : Side} (hother : other ≠ side) (waker : Option W) :
    ∀ event ∈ waker.toList.map (Event.woke (T := T) other), event.IsForeign side := by
  intro event hmem
  rcases List.mem_map.mp hmem with ⟨woken, -, rfl⟩
  have hnote : note side (.woke other woken : Event T W) = none := if_neg hother
  refine ⟨?_, by cases side <;> rfl⟩
  unfold IsRegistration
  rw [hnote]

omit [TaskWaker W] in
lemma Event.foreign_returned (answer : Option (Except T Unit)) :
    ∀ event ∈ answer.toList.map (Event.returned (W := W)), event.IsForeign side := by
  intro event hmem
  rcases List.mem_map.mp hmem with ⟨returned, -, rfl⟩
  exact ⟨rfl, by cases side <;> rfl⟩

/-- The sections of `Receiver::poll`: they return pending only where the sender still has to act. -/
lemma World.Watched.recheck (h : world.Watched .receiver) (hcoherent : Coherent world) {waker : W}
    (hreceiver : world.receiver = .rechecking waker) : (world.recheck waker).Watched .receiver := by
  have hplace : world.place .receiver = .rechecking waker := congrArg Receiver.place hreceiver
  unfold World.recheck State.take
  rcases hvalue : world.state.value with _ | value
  · cases hdropped : world.state.senderDropped
    · refine h.pending hplace rfl rfl rfl ?_
      exact Sender.unused_or_owesWake (hcoherent.senderDropped.symm.trans hdropped)
    · refine watched_of_answer rfl rfl rfl fun other heq => ?_
      injection heq with _ hanswer
      cases hanswer
  · refine watched_of_answer rfl rfl rfl fun other heq => ?_
    injection heq with _ hanswer
    cases hanswer

lemma World.watched_poll (world : World T W) (waker : W) :
    (world.poll waker).Watched .receiver := by
  unfold World.poll
  rcases world.state.take with ⟨result | _, state⟩
  · refine watched_of_answer rfl rfl rfl fun other heq => ?_
    injection heq with _ hanswer
    cases hanswer
  · exact watched_of_registering rfl

/-- The sections of `Cancellation::poll`: they return pending only before the receiver's drop. -/
lemma World.Watched.recheckCancellation (h : world.Watched .sender) (hcoherent : Coherent world)
    {waker : W} (hsender : world.sender = .rechecking waker) :
    (world.recheckCancellation waker).Watched .sender := by
  have hplace : world.place .sender = .rechecking waker := congrArg Sender.place hsender
  unfold World.recheckCancellation
  split_ifs with hcanceled
  · refine watched_of_answer rfl rfl rfl fun other heq => ?_
    injection heq with _ hanswer
    cases hanswer
  · refine h.pending hplace rfl rfl rfl (.inl ?_)
    exact hcoherent.receiverDropped.symm.trans (Bool.eq_false_iff.mpr hcanceled)

lemma World.watched_pollCancellation (world : World T W) (waker : W) :
    (world.pollCancellation waker).Watched .sender := by
  unfold World.pollCancellation
  split_ifs
  · refine watched_of_answer rfl rfl rfl fun other heq => ?_
    injection heq with _ hanswer
    cases hanswer
  · exact watched_of_registering rfl

/-- A step of the sender outside the sections of its cancellation, as the receiver sees it. -/
lemma World.Watched.senderStep (h : world.Watched .receiver)
    (hcell : world'.receiverWaker = world.receiverWaker) (hreceiver : world'.receiver = world.receiver)
    {events : List (Event T W)} (hlog : world'.log = events ++ world.log)
    (hevents : ∀ event ∈ events, event.IsForeign .receiver)
    (howed : world'.sender.isUnused = true ∨ world'.sender.owesWake = true) :
    world'.Watched .receiver :=
  h.stay hcell (congrArg Receiver.place hreceiver) hlog hevents fun _ => howed

/-- A step of the receiver, as the sender sees it. -/
lemma World.Watched.receiverStep (h : world.Watched .sender)
    (hcell : world'.senderWaker = world.senderWaker) (hsender : world'.sender = world.sender)
    {events : List (Event T W)} (hlog : world'.log = events ++ world.log)
    (hevents : ∀ event ∈ events, event.IsForeign .sender)
    (howed : world.PeerUnfinished .sender → world'.PeerUnfinished .sender) :
    world'.Watched .sender :=
  h.stay hcell (congrArg Sender.place hsender) hlog hevents howed

lemma World.Watched.stepSender (h : ∀ side, world.Watched side) (hcoherent : Coherent world)
    (hnext : world.stepSender = some world') (side : Side) : world'.Watched side := by
  unfold World.stepSender at hnext
  rcases hsender : world.sender with _ | waker | waker | answer | answer | _ <;>
    rw [hsender] at hnext <;> cases hnext <;> cases side
  · exact watched_register rfl rfl
  · exact (h .receiver).senderStep rfl rfl rfl (List.forall_mem_singleton.mpr ⟨rfl, rfl⟩) (.inl rfl)
  · exact (h .sender).recheckCancellation hcoherent hsender
  · unfold World.recheckCancellation
    split_ifs
    · exact (h .receiver).senderStep rfl rfl rfl (List.forall_mem_singleton.mpr ⟨rfl, rfl⟩) (.inl rfl)
    · exact (h .receiver).senderStep rfl rfl rfl (List.forall_mem_singleton.mpr ⟨rfl, rfl⟩) (.inl rfl)
  · exact (h .sender).stay rfl (congrArg Sender.place hsender).symm rfl (List.forall_mem_nil _) id
  · exact (h .receiver).senderStep rfl rfl rfl (List.forall_mem_nil _) (.inr rfl)
  · refine (h .sender).stay rfl (congrArg Sender.place hsender).symm
      (List.append_assoc _ _ _).symm (fun event hmem => ?_) id
    rcases List.mem_append.mp hmem with hmem | hmem
    · exact Event.foreign_returned _ event hmem
    · exact Event.foreign_woke (by decide) _ event hmem
  · exact (h .receiver).wake rfl rfl rfl (Event.foreign_returned _)

lemma World.Watched.stepReceiver (h : ∀ side, world.Watched side) (hcoherent : Coherent world)
    (hnext : world.stepReceiver = some world') (side : Side) : world'.Watched side := by
  unfold World.stepReceiver at hnext
  rcases hreceiver : world.receiver with _ | waker | waker | value | value | _ <;>
    rw [hreceiver] at hnext <;> cases hnext <;> cases side
  · refine (h .sender).receiverStep rfl rfl rfl (List.forall_mem_singleton.mpr ⟨rfl, rfl⟩) ?_
    exact fun _ => .inl rfl
  · exact watched_register rfl rfl
  · refine (h .sender).receiverStep rfl rfl rfl (List.forall_mem_singleton.mpr ⟨rfl, rfl⟩) ?_
    exact fun _ => .inl rfl
  · exact (h .receiver).recheck hcoherent hreceiver
  · exact (h .sender).wake rfl rfl rfl (List.forall_mem_nil _)
  · exact (h .receiver).stay rfl (congrArg Receiver.place hreceiver).symm rfl
      (Event.foreign_woke (by decide) _) id
  · refine (h .sender).receiverStep rfl rfl rfl (List.forall_mem_singleton.mpr ⟨rfl, rfl⟩) ?_
    unfold World.PeerUnfinished
    rw [hreceiver]
    exact id
  · exact (h .receiver).stay rfl (congrArg Receiver.place hreceiver).symm rfl
      (List.forall_mem_singleton.mpr ⟨rfl, rfl⟩) id

lemma World.Watched.next (h : ∀ side, world.Watched side) (hcoherent : Coherent world)
    {action : Action T W} (hnext : world.next action = some world') (side : Side) :
    world'.Watched side := by
  rcases action with value | _ | waker | _ | waker | _ | _ <;> unfold World.next at hnext <;>
    dsimp only at hnext
  case sender => exact World.Watched.stepSender h hcoherent hnext side
  case receiver => exact World.Watched.stepReceiver h hcoherent hnext side
  case send =>
    split at hnext
    · next hsender =>
      cases hnext
      cases side
      · exact (h .sender).stay rfl (congrArg Sender.place hsender).symm rfl
          (List.forall_mem_singleton.mpr ⟨rfl, rfl⟩) id
      · exact (h .receiver).senderStep rfl rfl rfl (List.forall_mem_singleton.mpr ⟨rfl, rfl⟩)
          (.inr rfl)
    · cases hnext
  case dropSender =>
    split at hnext
    · next hsender =>
      cases hnext
      cases side
      · exact (h .sender).stay rfl (congrArg Sender.place hsender).symm rfl (List.forall_mem_nil _) id
      · exact (h .receiver).senderStep rfl rfl rfl (List.forall_mem_nil _) (.inr rfl)
    · cases hnext
  case pollCancellation =>
    split at hnext
    · cases hnext
      cases side
      · exact watched_pollCancellation world waker
      · unfold World.pollCancellation
        split_ifs
        · exact (h .receiver).senderStep rfl rfl rfl (List.forall_mem_singleton.mpr ⟨rfl, rfl⟩)
            (.inl rfl)
        · exact (h .receiver).senderStep rfl rfl rfl (List.forall_mem_nil _) (.inl rfl)
    · cases hnext
  case poll =>
    split at hnext
    · cases hnext
      cases side
      · unfold World.poll
        rcases world.state.take with ⟨result | _, state⟩
        · exact (h .sender).receiverStep rfl rfl rfl (List.forall_mem_singleton.mpr ⟨rfl, rfl⟩)
            fun _ => .inl rfl
        · exact (h .sender).receiverStep rfl rfl rfl (List.forall_mem_nil _) fun _ => .inl rfl
      · exact watched_poll world waker
    · cases hnext
  case dropReceiver =>
    split at hnext
    · next hreceiver =>
      cases hnext
      cases side
      · exact (h .sender).receiverStep rfl rfl rfl (List.forall_mem_nil _) fun _ => .inr rfl
      · exact (h .receiver).stay rfl (congrArg Receiver.place hreceiver).symm rfl
          (List.forall_mem_nil _) id
    · cases hnext

end Steps

lemma watched_of_reachable [TaskWaker W] {world : World T W}
    (h : (oneshotSystem T W).Reachable world) (side : Side) : world.Watched side := by
  refine h.invariant' (P := fun world => ∀ side, world.Watched side) ?_ ?_ side
  · rintro world rfl side
    refine guarded_of_none fun waker => ?_
    rintro (hrechecking | ⟨-, hlatest⟩)
    · cases side <;> cases hrechecking
    · cases hlatest
  · intro world action world' hworld hwatched hnext
    exact World.Watched.next hwatched (coherent_of_reachable hworld) hnext

/-! ### The value and the wakeups together -/

/-- The value of the channel is delivered once. -/
structure DeliversOnce (world : World T W) : Prop where
  once : (total Event.given world.log).length ≤ 1
  /-- What was sent has been returned by a poll, returned by the send or dropped by the receiver's
  drop, or is still held. -/
  accounted : total Event.given world.log = total Event.ended world.log ++ world.held
  settled : world.sender = .gone → world.receiver = .gone → world.held = []
  canceled : ∀ waker, .polled waker (.ready (.error ⟨⟩)) ∈ world.log →
    world.state.senderDropped = true ∧ world.sender.isDropped = true ∧ world.state.value = none
  /-- No send succeeds, before or after a `Canceled` that no value came before. -/
  undelivered : ∀ later earlier waker,
    world.log = later ++ .polled waker (.ready (.error ⟨⟩)) :: earlier →
    ∀ value, .sent value (.ok ()) ∈ world.log → Delivered earlier value
  /-- A poll after the value was stored returns it unless an earlier one has. -/
  answers : ∀ later earlier waker answer, world.log = later ++ .polled waker answer :: earlier →
    ∀ value, .sent value (.ok ()) ∈ earlier → answer = .ready (.ok value) ∨ Delivered earlier value

/-- A side whose latest poll returned pending and whose waker has not been called since: the
other side has not changed the state, or is between its change and its wake. -/
structure WakesBoth [TaskWaker W] (world : World T W) : Prop where
  receiver : ∀ waker, world.Pending .receiver waker →
    ¬Called (Event.note .receiver) world.log waker →
    (world.state.value = none ∧ world.state.senderDropped = false ∧
      world.sender.isUnused = true) ∨ world.sender.owesWake = true
  sender : ∀ waker, world.Pending .sender waker → ¬Called (Event.note .sender) world.log waker →
    world.state.receiverDropped = false ∨ world.receiver.owesWake = true

lemma Coherent.deliversOnce {world : World T W} (h : Coherent world) : DeliversOnce world where
  once := h.once
  accounted := h.balanced
  settled hsender hreceiver := by
    have hnone := h.emptied (h.receiverDropped.trans (by rw [hreceiver]; rfl))
    unfold World.held
    rw [hnone, hsender, hreceiver]
    rfl
  canceled waker hmem := by
    rcases h.canceled waker hmem with ⟨hdropped, hvalue⟩
    exact ⟨hdropped, h.senderDropped.symm.trans hdropped, hvalue⟩
  undelivered later earlier waker hlog value hmem := by
    have htruth : Throughout Truthful world.log := h.truthful
    rw [hlog] at hmem htruth
    have hpoll := htruth.of_split
    rcases List.mem_append.mp hmem with hlater | hearlier
    · -- No send comes after the end was reported.
      rcases List.append_of_mem hlater with ⟨front, back, rfl⟩
      rw [List.append_assoc, List.cons_append] at htruth
      exact absurd (List.mem_append_right back List.mem_cons_self) (htruth.of_split waker)
    · rcases List.mem_cons.mp hearlier with heq | hearlier
      · cases heq
      · rcases hpoll value hearlier with hanswer | hdone
        · cases hanswer
        · exact hdone
  answers later earlier waker answer hlog := by
    have htruth : Throughout Truthful world.log := h.truthful
    rw [hlog] at htruth
    exact htruth.of_split

/-- A channel of one value delivers it exactly once and wakes both sides. -/
theorem oneshot_delivers_once_and_wakes [TaskWaker W] {world : World T W}
    (h : (oneshotSystem T W).Reachable world) : DeliversOnce world ∧ WakesBoth world := by
  have hcoherent := coherent_of_reachable h
  refine ⟨hcoherent.deliversOnce, fun waker hpending hnot => ?_, fun waker hpending hnot => ?_⟩
  · rcases (watched_of_reachable h .receiver).owed waker (.inr hpending) hnot with
      ⟨other, hrechecking⟩ | hunused | howes
    · cases hpending.1.symm.trans hrechecking
    · have hheld := hcoherent.held_of_unused hunused
      refine .inl ⟨?_, ?_, hunused⟩
      · have hvalue := (List.append_eq_nil_iff.mp (List.append_eq_nil_iff.mp hheld).1).1
        exact Option.toList_eq_nil_iff.mp hvalue
      · rw [hcoherent.senderDropped]
        rcases hsender : world.sender <;> rw [hsender] at hunused <;> first | rfl | cases hunused
    · exact .inr howes
  · rcases (watched_of_reachable h .sender).owed waker (.inr hpending) hnot with
      ⟨other, hrechecking⟩ | hlive | howes
    · cases hpending.1.symm.trans hrechecking
    · exact .inl (hcoherent.receiverDropped.trans hlive)
    · exact .inr howes

/-- A receiver that is dropped between the store of a value and the end of its send, while the
cancellation was waiting. -/
theorem oneshot_delivers_once_and_wakes_dropped :
    let world := (System.replay World.next (World.start : World ℕ RawWaker)
      [.pollCancellation ⟨1, 1⟩, .poll ⟨2, 2⟩, .sender, .receiver, .sender, .receiver, .send 7,
        .sender, .dropReceiver, .receiver, .sender, .receiver]).get rfl
    DeliversOnce world ∧ WakesBoth world :=
  oneshot_delivers_once_and_wakes (System.reachable_replay rfl)

end DoomFishUtils.Oneshot
