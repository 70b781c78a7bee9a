import DoomFishUtils.Library.Ledger
import DoomFishUtils.Mpsc.Model
import Mathlib.Data.Finset.Card

/-!
# Accounting and closing

The sends and receives of a run balance with the queue, `senders` counts the live handles, and
a channel that has once reported its end stays empty without a way to send.
-/

namespace DoomFishUtils.Mpsc

set_option autoImplicit false

open DoomFishUtils.Library

variable {ι T W : Type}

/-- The values that an event appends to the queue. -/
def Event.accepted : Event T W → List T
  | .sent value (.ok _) => [value]
  | _ => []

/-- The values that an event returns from a receive or drops with the receiver. -/
def Event.removed : Event T W → List T
  | .tried (.ok value) => [value]
  | .polled _ (.ready (some value)) => [value]
  | .discarded values => values
  | _ => []

/-- A receive of the end of the channel: `Closed`, or `None` from a poll. -/
def Event.ends : Event T W → Bool
  | .tried (.error .closed) => true
  | .polled _ (.ready none) => true
  | _ => false

/-- A receive that returns a value. -/
def Event.returnsValue : Event T W → Bool
  | .tried (.ok _) => true
  | .polled _ (.ready (some _)) => true
  | _ => false

/-- Nothing is queued and nothing can be queued any more. -/
structure Finished (world : World ι T W) : Prop where
  empty : world.state.queue = []
  shut : world.state.isOpen = false ∨ world.senders = ∅

structure Accounted (kind : Kind) (world : World ι T W) : Prop where
  capacity : world.state.capacity = kind.capacity
  length_le : world.state.queue.length ≤ kind.capacity
  senders : world.state.senders = world.senders.card
  balanced : Balanced Event.accepted Event.removed world.log world.state.queue
  finished : ∀ event ∈ world.log, event.ends = true → Finished world
  quiet : ∀ later earlier event, world.log = later ++ event :: earlier → event.ends = true →
    ∀ other ∈ later, other.returnsValue = false

section Sections

variable {state : State T}

/-- A send appends its value to an open channel with a free place and else changes nothing. -/
lemma State.send_cases (state : State T) (value : T) :
    (state.isOpen = true ∧ state.queue.length < state.capacity ∧
      state.send value = (.ok (), { state with queue := state.queue ++ [value] })) ∨
    ((state.isOpen = false ∨ state.capacity ≤ state.queue.length) ∧
      ∃ full, state.send value = (.error ⟨value, full⟩, state)) := by
  unfold State.send
  cases hopen : state.isOpen
  · exact .inr ⟨.inl rfl, false, rfl⟩
  · by_cases hfull : state.capacity ≤ state.queue.length
    · exact .inr ⟨.inr hfull, true, by simp [hfull]⟩
    · exact .inl ⟨rfl, not_le.mp hfull, by simp [hfull]⟩

/-- A receive takes the oldest value, or tells an empty channel from a finished one. -/
lemma State.tryRecv_cases (state : State T) :
    (∃ value queue, state.queue = value :: queue ∧
      state.tryRecv = (.ok value, { state with queue := queue })) ∨
    (state.queue = [] ∧ (state.isOpen = false ∨ state.senders = 0) ∧
      state.tryRecv = (.error .closed, state)) ∨
    (state.queue = [] ∧ state.isOpen = true ∧ 0 < state.senders ∧
      state.tryRecv = (.error .empty, state)) := by
  unfold State.tryRecv
  rcases hqueue : state.queue with _ | ⟨value, queue⟩
  · refine .inr ?_
    cases hopen : state.isOpen
    · exact .inl ⟨rfl, .inl rfl, rfl⟩
    · by_cases hsenders : 0 < state.senders
      · exact .inr ⟨rfl, rfl, hsenders, by simp [hsenders]⟩
      · exact .inl ⟨rfl, .inr (by omega), by simp [hsenders]⟩
  · exact .inl ⟨value, queue, rfl, rfl⟩

end Sections

section Steps

variable {kind : Kind} {world world' : World ι T W}

lemma accounted_start (sender : ι) : Accounted kind (World.start kind sender : World ι T W) where
  capacity := rfl
  length_le := Nat.zero_le _
  senders := (Finset.card_singleton sender).symm
  balanced := balanced_nil
  finished event hmem := absurd hmem List.not_mem_nil
  quiet later earlier event hlog := by
    cases later <;> cases hlog

/-- One more event: its values balance, it ends the channel only where nothing is left, and it
returns a value only where something is left. -/
lemma Accounted.record (h : Accounted kind world) {event : Event T W}
    (hlog : world'.log = event :: world.log)
    (hcapacity : world'.state.capacity = world.state.capacity)
    (hlength : world'.state.queue.length ≤ kind.capacity)
    (hsenders : world'.state.senders = world'.senders.card)
    (hevent : world.state.queue ++ event.accepted = event.removed ++ world'.state.queue)
    (hfinished : Finished world → Finished world')
    (hends : event.ends = true → Finished world')
    (hreturns : event.returnsValue = true → world.state.queue ≠ []) :
    Accounted kind world' where
  capacity := hcapacity.trans h.capacity
  length_le := hlength
  senders := hsenders
  balanced := hlog ▸ h.balanced.cons hevent
  finished event' hmem hend := by
    rw [hlog] at hmem
    rcases List.mem_cons.mp hmem with rfl | hmem
    · exact hends hend
    · exact hfinished (h.finished event' hmem hend)
  quiet later earlier event' hsplit hend other hother := by
    rw [hlog] at hsplit
    rcases later with _ | ⟨head, later⟩
    · cases hother
    · injection hsplit with hhead hsplit
      have hmem : event' ∈ world.log := hsplit ▸ List.mem_append_right _ List.mem_cons_self
      rcases List.mem_cons.mp hother with rfl | hother
      · -- The end was reported before, so the queue was empty.
        rw [← hhead]
        cases hvalue : event.returnsValue
        · rfl
        · exact absurd (h.finished event' hmem hend).empty (hreturns hvalue)
      · exact h.quiet later earlier event' hsplit hend other hother

/-- A step without an event that leaves the queue as it is. -/
lemma Accounted.silent (h : Accounted kind world) (hlog : world'.log = world.log)
    (hcapacity : world'.state.capacity = world.state.capacity)
    (hqueue : world'.state.queue = world.state.queue)
    (hsenders : world'.state.senders = world'.senders.card)
    (hfinished : Finished world → Finished world') : Accounted kind world' where
  capacity := hcapacity.trans h.capacity
  length_le := hqueue ▸ h.length_le
  senders := hsenders
  balanced := by
    rw [hlog, hqueue]
    exact h.balanced
  finished event hmem hend := hfinished (h.finished event (hlog ▸ hmem) hend)
  quiet later earlier event hsplit := h.quiet later earlier event (hlog ▸ hsplit)

lemma Accounted.send (h : Accounted kind world) {sender : ι} (hsender : sender ∈ world.senders)
    (value : T) : Accounted kind (world.send value) := by
  have hlive : Finished world → world.state.isOpen = false := fun hfinished =>
    hfinished.shut.resolve_right (Finset.ne_empty_of_mem hsender)
  rcases world.state.send_cases value with ⟨hopen, hroom, hsend⟩ | ⟨-, full, hsend⟩
  · have heq : world.send value = { world with
        state := { world.state with queue := world.state.queue ++ [value] }
        due := world.due + 1
        log := .sent value (.ok ()) :: world.log } := by
      simp [World.send, hsend, Except.isOk, Except.toBool]
    rw [heq]
    refine h.record rfl rfl ?_ h.senders rfl (fun hfinished => ?_) (fun hend => ?_)
      fun hvalue => ?_
    · rw [h.capacity] at hroom
      rw [List.length_append, List.length_singleton]
      exact hroom
    · cases hopen.symm.trans (hlive hfinished)
    · cases hend
    · cases hvalue
  · have heq : world.send value =
        { world with log := .sent value (.error ⟨value, full⟩) :: world.log } := by
      simp [World.send, hsend, Except.isOk, Except.toBool]
    rw [heq]
    refine h.record rfl rfl h.length_le h.senders (List.append_nil _) (fun hfinished => ?_)
      (fun hend => ?_) fun hvalue => ?_
    · exact ⟨hfinished.empty, hfinished.shut⟩
    · cases hend
    · cases hvalue

/-- A receive of a value or of the end, reported by an event of its own. -/
lemma Accounted.receive (h : Accounted kind world) {event : Event T W}
    {answer : Except TryRecvError T} (hanswer : world.state.tryRecv.1 = answer)
    (hlog : world'.log = event :: world.log) (hstate : world'.state = world.state.tryRecv.2)
    (hsenders : world'.senders = world.senders) (haccepted : event.accepted = [])
    (hremoved : event.removed = answer.toOption.toList)
    (hends : event.ends = true → answer = .error .closed)
    (hreturns : event.returnsValue = true → ∃ value, answer = .ok value) :
    Accounted kind world' := by
  rcases world.state.tryRecv_cases with ⟨value, queue, hqueue, hrecv⟩ | ⟨hqueue, hshut, hrecv⟩ |
    ⟨hqueue, hopen, hpos, hrecv⟩
  · rw [hrecv] at hanswer hstate
    subst hanswer
    refine h.record hlog (by rw [hstate]) ?_ (by rw [hstate, hsenders]; exact h.senders) ?_
      (fun hfinished => ?_) (fun hend => ?_) fun _ => ?_
    · have := h.length_le
      rw [hqueue, List.length_cons] at this
      rw [hstate]
      exact (Nat.le_succ _).trans this
    · rw [haccepted, hremoved, hstate, hqueue, List.append_nil]
      rfl
    · exact absurd hfinished.empty (by simp [hqueue])
    · cases hends hend
    · simp [hqueue]
  · rw [hrecv] at hanswer hstate
    subst hanswer
    have hfinished : Finished world' := by
      refine ⟨by rw [hstate, hqueue], ?_⟩
      rw [hstate, hsenders]
      refine hshut.imp_right fun hzero => ?_
      rw [h.senders] at hzero
      exact Finset.card_eq_zero.mp hzero
    refine h.record hlog (by rw [hstate]) (by rw [hstate]; exact h.length_le)
      (by rw [hstate, hsenders]; exact h.senders) ?_ (fun _ => hfinished) (fun _ => hfinished)
      fun hvalue => ?_
    · rw [haccepted, hremoved, hstate, List.append_nil]
      rfl
    · rcases hreturns hvalue with ⟨value, hvalue⟩
      cases hvalue
  · rw [hrecv] at hanswer hstate
    subst hanswer
    refine h.record hlog (by rw [hstate]) (by rw [hstate]; exact h.length_le)
      (by rw [hstate, hsenders]; exact h.senders) ?_ (fun hfinished => ?_) (fun hend => ?_)
      fun hvalue => ?_
    · rw [haccepted, hremoved, hstate, List.append_nil]
      rfl
    · exact ⟨by rw [hstate, hqueue], by rw [hstate, hsenders]; exact hfinished.shut⟩
    · cases hends hend
    · rcases hreturns hvalue with ⟨value, hvalue⟩
      cases hvalue

lemma Accounted.tryRecv (h : Accounted kind world) : Accounted kind world.tryRecv := by
  unfold World.tryRecv
  rcases hrecv : world.state.tryRecv with ⟨answer, state⟩
  refine @Accounted.receive _ _ _ _ _ { world with state := state, log := .tried answer :: world.log }
    h (.tried answer) answer (by rw [hrecv]) rfl (by rw [hrecv]) rfl ?_ ?_ ?_ ?_ <;>
    rcases answer with (_ | _) | value <;>
    simp [Event.accepted, Event.removed, Event.ends, Event.returnsValue, Except.toOption]

/-- A section of `poll_recv` whose answer the poll reports. -/
lemma Accounted.polled (h : Accounted kind world) {waker : W} {answer : Except TryRecvError T}
    {state : State T} (hrecv : world.state.tryRecv = (answer, state)) {poll : Poll (Option T)}
    (hpoll : poll = match answer with
      | .ok value => .ready (some value)
      | .error .closed => .ready none
      | .error .empty => .pending) :
    Accounted kind ({ world with state := state }.polled waker poll) := by
  refine @Accounted.receive _ _ _ _ _ ({ world with state := state }.polled waker poll) h
    (.polled waker poll) answer (by rw [hrecv]) rfl (by rw [hrecv]; rfl) rfl ?_ ?_ ?_ ?_ <;>
    rw [hpoll] <;>
    rcases answer with (_ | _) | value <;>
    simp [Event.accepted, Event.removed, Event.ends, Event.returnsValue, Except.toOption]

/-- A section of `poll_recv` that finds the channel empty and goes on. -/
lemma Accounted.goesOn (h : Accounted kind world) {state : State T} {receiver : Receiver W}
    (hrecv : world.state.tryRecv = (.error .empty, state)) :
    Accounted kind { world with state := state, receiver := receiver } := by
  rcases world.state.tryRecv_cases with ⟨value, queue, -, heq⟩ | ⟨-, -, heq⟩ | ⟨-, -, -, heq⟩
  · cases heq.symm.trans hrecv
  · cases heq.symm.trans hrecv
  · obtain rfl : world.state = state := congrArg Prod.snd (heq.symm.trans hrecv)
    exact h.silent rfl rfl rfl h.senders fun hfinished => ⟨hfinished.empty, hfinished.shut⟩

lemma Accounted.poll (h : Accounted kind world) (waker : W) :
    Accounted kind (world.poll waker) := by
  unfold World.poll
  rcases hrecv : world.state.tryRecv with ⟨(_ | _) | value, state⟩
  · exact h.goesOn hrecv
  · exact h.polled hrecv rfl
  · exact h.polled hrecv rfl

lemma Accounted.recheck (h : Accounted kind world) (waker : W) :
    Accounted kind (world.recheck waker) := by
  unfold World.recheck
  rcases hrecv : world.state.tryRecv with ⟨(_ | _) | value, state⟩
  · exact h.polled hrecv rfl
  · exact h.polled hrecv rfl
  · exact h.polled hrecv rfl

lemma Accounted.cloneSender [DecidableEq ι] (h : Accounted kind world) {sender clone : ι}
    (hsender : sender ∈ world.senders) (hclone : clone ∉ world.senders) :
    Accounted kind { world with
      state := world.state.cloneSender, senders := insert clone world.senders } := by
  refine h.silent rfl rfl rfl ?_ fun hfinished => ⟨hfinished.empty, ?_⟩
  · change world.state.senders + 1 = _
    rw [h.senders, Finset.card_insert_of_notMem hclone]
  · exact .inl (hfinished.shut.resolve_right (Finset.ne_empty_of_mem hsender))

/-- Every live handle can be dropped: `senders` does not underflow. -/
lemma Accounted.dropSender_eq [DecidableEq ι] (h : Accounted kind world) {sender : ι}
    (hsender : sender ∈ world.senders) :
    world.dropSender sender = some { world with
      state := { world.state with senders := world.state.senders - 1 }
      senders := world.senders.erase sender
      due := if world.state.senders - 1 = 0 then world.due + 1 else world.due } := by
  have hpos : world.state.senders ≠ 0 := by
    rw [h.senders]
    exact Finset.card_ne_zero_of_mem hsender
  simp [World.dropSender, State.dropSender, hpos]

lemma Accounted.dropSender [DecidableEq ι] (h : Accounted kind world) {sender : ι}
    (hsender : sender ∈ world.senders) (hdrop : world.dropSender sender = some world') :
    Accounted kind world' := by
  rw [h.dropSender_eq hsender, Option.some.injEq] at hdrop
  subst hdrop
  refine h.silent rfl rfl rfl ?_ fun hfinished => ⟨hfinished.empty, ?_⟩
  · change world.state.senders - 1 = _
    rw [h.senders, Finset.card_erase_of_mem hsender]
  · exact .inl (hfinished.shut.resolve_right (Finset.ne_empty_of_mem hsender))

lemma Accounted.dropReceiver (h : Accounted kind world) : Accounted kind world.dropReceiver := by
  refine @Accounted.record _ _ _ _ _ world.dropReceiver h (.discarded world.state.queue) rfl rfl
    (Nat.zero_le _) h.senders rfl (fun _ => ⟨rfl, .inl rfl⟩) (fun hend => ?_) fun hvalue => ?_
  · cases hend
  · cases hvalue

lemma Accounted.wake (h : Accounted kind world) : Accounted kind world.wake := by
  rcases hwaker : world.receiverWaker.waker with _ | waker
  · refine h.silent ?_ rfl rfl h.senders fun hfinished => ⟨hfinished.empty, hfinished.shut⟩
    simp [World.wake, AtomicWaker.take, hwaker]
  · refine @Accounted.record _ _ _ _ _ world.wake h (.woke waker) ?_ rfl h.length_le h.senders
      (List.append_nil _) (fun hfinished => ⟨hfinished.empty, hfinished.shut⟩) (fun hend => ?_)
      fun hvalue => ?_
    · simp [World.wake, AtomicWaker.take, hwaker]
    · cases hend
    · cases hvalue

lemma Accounted.next [DecidableEq ι] [TaskWaker W] (h : Accounted kind world)
    {action : Action ι T W} (hnext : world.next kind action = some world') :
    Accounted kind world' := by
  have hunmoved : ∀ {receiverWaker : AtomicWaker W} {receiver : Receiver W},
      Accounted kind { world with receiverWaker := receiverWaker, receiver := receiver } :=
    h.silent rfl rfl rfl h.senders fun hfinished => ⟨hfinished.empty, hfinished.shut⟩
  rcases action with ⟨sender, value⟩ | ⟨sender, clone⟩ | sender | _ | waker | _ | _ | _ | _ | _ <;>
    unfold World.next at hnext <;> dsimp only at hnext
  case send =>
    rcases Option.ite_none_right_eq_some.mp hnext with ⟨hsender, hworld⟩
    exact Option.some.inj hworld ▸ h.send hsender value
  case cloneSender =>
    rcases Option.ite_none_right_eq_some.mp hnext with ⟨⟨-, hsender, hclone⟩, hworld⟩
    exact Option.some.inj hworld ▸ h.cloneSender hsender hclone
  case dropSender =>
    rcases Option.ite_none_right_eq_some.mp hnext with ⟨hsender, hworld⟩
    exact h.dropSender hsender hworld
  case tryRecv =>
    split at hnext
    · exact Option.some.inj hnext ▸ h.tryRecv
    · cases hnext
  case poll =>
    split at hnext
    · exact Option.some.inj hnext ▸ h.poll waker
    · cases hnext
  case register =>
    split at hnext
    · exact Option.some.inj hnext ▸ hunmoved
    · cases hnext
  case recheck =>
    split at hnext
    · exact Option.some.inj hnext ▸ h.recheck _
    · cases hnext
  case close =>
    split at hnext
    · refine Option.some.inj hnext ▸ h.silent rfl rfl rfl h.senders fun hfinished => ?_
      exact ⟨hfinished.empty, .inl rfl⟩
    · cases hnext
  case dropReceiver =>
    split at hnext
    · exact Option.some.inj hnext ▸ h.dropReceiver
    · cases hnext
  case wake =>
    rcases Option.ite_none_left_eq_some.mp hnext with ⟨-, hworld⟩
    exact Option.some.inj hworld ▸ h.wake

theorem accounted_of_reachable [DecidableEq ι] [TaskWaker W] {sender : ι}
    (h : (mpscSystem ι T W kind sender).Reachable world) : Accounted kind world :=
  h.invariant (fun _ hinit => hinit ▸ accounted_start sender) fun _ _ _ hworld => hworld.next

/-- The state in which a receive reports the end. -/
lemma shut_of_tryRecv {state state' : State T}
    (h : state.tryRecv = (.error .closed, state')) :
    state.queue = [] ∧ (state.isOpen = false ∨ state.senders = 0) := by
  rcases state.tryRecv_cases with ⟨value, queue, -, heq⟩ | ⟨hempty, hshut, -⟩ | ⟨-, -, -, heq⟩
  · cases heq.symm.trans h
  · exact ⟨hempty, hshut⟩
  · cases heq.symm.trans h

/-- The end is reported only by a section that finds the queue empty and the channel closed or
without senders. -/
lemma shut_of_ends [DecidableEq ι] [TaskWaker W] {action : Action ι T W} {event : Event T W}
    (hnext : world.next kind action = some world') (hlog : world'.log = event :: world.log)
    (hends : event.ends = true) :
    world.state.queue = [] ∧ (world.state.isOpen = false ∨ world.state.senders = 0) := by
  have hsilent : ∀ {world' : World ι T W}, world'.log = world.log →
      world'.log ≠ event :: world.log := fun hsame heq =>
    List.cons_ne_self _ _ (heq.symm.trans hsame)
  have hhead : ∀ {other : Event T W}, other :: world.log = event :: world.log → other = event :=
    fun heq => (List.cons.inj heq).1
  rcases action with ⟨sender, value⟩ | ⟨sender, clone⟩ | sender | _ | waker | _ | _ | _ | _ | _ <;>
    unfold World.next at hnext <;> dsimp only at hnext
  case send =>
    rcases Option.ite_none_right_eq_some.mp hnext with ⟨-, hworld⟩
    rw [← Option.some.inj hworld] at hlog
    cases hhead hlog
    cases hends
  case cloneSender =>
    rcases Option.ite_none_right_eq_some.mp hnext with ⟨-, hworld⟩
    rw [← Option.some.inj hworld] at hlog
    exact absurd hlog (hsilent rfl)
  case dropSender =>
    rcases Option.ite_none_right_eq_some.mp hnext with ⟨-, hworld⟩
    rcases Option.map_eq_some_iff.mp hworld with ⟨⟨last, state⟩, -, rfl⟩
    exact absurd hlog (hsilent rfl)
  case tryRecv =>
    split at hnext
    · rw [← Option.some.inj hnext] at hlog
      unfold World.tryRecv at hlog
      rcases hrecv : world.state.tryRecv with ⟨(_ | _) | value, state⟩ <;> rw [hrecv] at hlog
      · cases hhead hlog
        cases hends
      · exact shut_of_tryRecv hrecv
      · cases hhead hlog
        cases hends
    · cases hnext
  case poll =>
    split at hnext
    · rw [← Option.some.inj hnext] at hlog
      unfold World.poll at hlog
      rcases hrecv : world.state.tryRecv with ⟨(_ | _) | value, state⟩ <;> rw [hrecv] at hlog
      · exact absurd hlog (hsilent rfl)
      · exact shut_of_tryRecv hrecv
      · cases hhead hlog
        cases hends
    · cases hnext
  case register =>
    split at hnext
    · rw [← Option.some.inj hnext] at hlog
      exact absurd hlog (hsilent rfl)
    · cases hnext
  case recheck =>
    split at hnext
    · rw [← Option.some.inj hnext] at hlog
      unfold World.recheck at hlog
      rcases hrecv : world.state.tryRecv with ⟨(_ | _) | value, state⟩ <;> rw [hrecv] at hlog
      · cases hhead hlog
        cases hends
      · exact shut_of_tryRecv hrecv
      · cases hhead hlog
        cases hends
    · cases hnext
  case close =>
    split at hnext
    · rw [← Option.some.inj hnext] at hlog
      exact absurd hlog (hsilent rfl)
    · cases hnext
  case dropReceiver =>
    split at hnext
    · rw [← Option.some.inj hnext] at hlog
      cases hhead hlog
      cases hends
    · cases hnext
  case wake =>
    rcases Option.ite_none_left_eq_some.mp hnext with ⟨-, hworld⟩
    rw [← Option.some.inj hworld] at hlog
    unfold World.wake AtomicWaker.take at hlog
    rcases hwaker : world.receiverWaker.waker with _ | waker <;> rw [hwaker] at hlog
    · exact absurd hlog (hsilent rfl)
    · cases hhead hlog
      cases hends

end Steps

/-- What accounting and closing mean for a channel in one world. -/
structure AccountsAndEnds [DecidableEq ι] [TaskWaker W] (kind : Kind) (world : World ι T W) :
    Prop where
  conserved : total Event.accepted world.log = total Event.removed world.log ++ world.state.queue
  bounded : ∀ buffer, kind = .channel buffer → world.state.queue.length ≤ buffer + 1
  counted : world.state.senders = world.senders.card
  /-- `senders` does not underflow. -/
  droppable : ∀ sender ∈ world.senders, (world.next kind (.dropSender sender)).isSome
  sends : ∀ sender value world', world.next kind (.send sender value) = some world' →
    (world.state.isOpen = true ∧ world.state.queue.length < kind.capacity ∧
      world'.state = { world.state with queue := world.state.queue ++ [value] } ∧
      world'.log = .sent value (.ok ()) :: world.log) ∨
    ((world.state.isOpen = false ∨ kind.capacity ≤ world.state.queue.length) ∧
      world'.state = world.state ∧
      ∃ full, world'.log = .sent value (.error ⟨value, full⟩) :: world.log)
  ends : ∀ action world' event, world.next kind action = some world' →
    world'.log = event :: world.log → event.ends = true →
    world.state.queue = [] ∧ (world.state.isOpen = false ∨ world.state.senders = 0)
  /-- After the end no receive returns a value. -/
  quiet : ∀ later earlier event, world.log = later ++ event :: earlier → event.ends = true →
    ∀ other ∈ later, other.returnsValue = false

/-- Accounting and closing hold in every reachable world. -/
theorem channel_accounts_and_ends [DecidableEq ι] [TaskWaker W] {kind : Kind} {creator : ι}
    {world : World ι T W} (h : (mpscSystem ι T W kind creator).Reachable world) :
    AccountsAndEnds kind world := by
  have hworld := accounted_of_reachable h
  refine ⟨hworld.balanced, ?_, hworld.senders, ?_, ?_, fun _ _ _ => shut_of_ends, hworld.quiet⟩
  · rintro buffer rfl
    exact hworld.length_le.trans (min_le_left _ _)
  · intro sender hsender
    change (if sender ∈ world.senders then world.dropSender sender else none).isSome
    rw [if_pos hsender, hworld.dropSender_eq hsender]
    rfl
  · intro sender value world' hnext
    rcases Option.ite_none_right_eq_some.mp hnext with ⟨-, hsome⟩
    obtain rfl : world.send value = world' := Option.some.inj hsome
    unfold World.send
    rcases world.state.send_cases value with ⟨hopen, hroom, hsend⟩ | ⟨hrefused, full, hsend⟩
    · rw [hsend]
      exact .inl ⟨hopen, hworld.capacity ▸ hroom, rfl, rfl⟩
    · rw [hsend]
      exact .inr ⟨hworld.capacity ▸ hrefused, rfl, full, rfl⟩

/-- A buffered channel that refuses a second value, delivers the first and ends. -/
theorem channel_accounts_and_ends_full :
    let kind := Kind.channel 0
    let world := (System.replay (World.next kind) (World.start kind 0 : World ℕ ℕ RawWaker)
      [.send 0 5, .send 0 6, .poll ⟨1, 1⟩, .dropSender 0, .poll ⟨1, 1⟩, .tryRecv]).get rfl
    AccountsAndEnds kind world :=
  channel_accounts_and_ends (System.reachable_replay rfl)

end DoomFishUtils.Mpsc
