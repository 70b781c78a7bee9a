import DoomFishUtils.AtomicWaker.Wakeups
import DoomFishUtils.Mpsc.Model
import DoomFishUtils.Oneshot.Model
import DoomFishUtils.Spsc.Consumer

/-!
# The tasks that wait with an atomic waker

The receiver of an `mpsc` channel, both sides of a `oneshot` channel and the consumer of a ring,
with every call of their atomic wakers run access by access.
-/

namespace DoomFishUtils.AtomicWaker.Waiting

set_option autoImplicit false

open Library Concurrent

/-! ### The receiver of an `mpsc` channel -/

namespace MpscReceiver

inductive Signal (T : Type) where
  | send (value : T)
  | cloneSender
  | dropSender

/-- What the receiver does apart from `poll_recv`; nothing waits after its destructor. -/
inductive Call where
  | tryRecv
  | close

variable {T : Type}

/-- The senders act while they are counted. -/
def signal (act : Signal T) (state : Mpsc.State T) : Option (Mpsc.State T × Bool) :=
  if state.senders = 0 then none
  else match act with
    | .send value => let (answer, state) := state.send value; some (state, answer.isOk)
    | .cloneSender => some (state.cloneSender, false)
    | .dropSender => state.dropSender.map fun (last, state) => (state, last)

def consume (act : Call) (state : Mpsc.State T) : Option (Mpsc.State T) :=
  match act with
  | .tryRecv => some state.tryRecv.2
  | .close => some state.close

/-- One of the two `try_recv` of `poll_recv`. -/
def check (_ : Unit) (state : Mpsc.State T) : Option (Verdict Unit × Mpsc.State T) :=
  match state.tryRecv with
  | (.error .empty, state) => some (.pending, state)
  | (_, state) => some (.ready, state)

def protocol (T : Type) : Protocol (Mpsc.State T) (Signal T) Call Unit where
  signal := signal
  consume := consume
  first := ()
  check := check

/-- There is nothing to receive, and something may still come. -/
def Settled (state : Mpsc.State T) : Prop :=
  state.queue = [] ∧ state.isOpen = true ∧ 0 < state.senders

lemma settled_of_check {state state' : Mpsc.State T}
    (h : check () state = some (.pending, state')) : Settled state' := by
  rcases state with ⟨_ | ⟨value, queue⟩, capacity, senders, isOpen⟩
  · by_cases hwaits : (isOpen && decide (0 < senders)) = true
    · simp only [check, Mpsc.State.tryRecv, hwaits, if_true, Option.some.injEq, Prod.mk.injEq,
        true_and] at h
      subst h
      simpa [Settled] using hwaits
    · simp [check, Mpsc.State.tryRecv, hwaits] at h
  · simp [check, Mpsc.State.tryRecv] at h

/-- A section without a wake adds nothing to receive and leaves a sender. -/
lemma settled_signal {act : Signal T} {state state' : Mpsc.State T}
    (h : signal act state = some (state', false)) (hsettled : Settled state) : Settled state' := by
  rcases hsettled with ⟨hqueue, hopen, hsenders⟩
  unfold signal at h
  rw [if_neg hsenders.ne'] at h
  cases act with
  | send value =>
    by_cases hfull : state.capacity ≤ state.queue.length
    · simp only [Mpsc.State.send, hopen, hfull, Bool.true_eq_false, if_true, if_false,
        Option.some.injEq, Prod.mk.injEq] at h
      exact h.1 ▸ ⟨hqueue, hopen, hsenders⟩
    · simp [Mpsc.State.send, hopen, hfull, Except.isOk, Except.toBool] at h
  | cloneSender =>
    cases h
    exact ⟨hqueue, hopen, Nat.succ_pos _⟩
  | dropSender =>
    simp only [Mpsc.State.dropSender, hsenders.ne', if_false, Option.map_some, Option.some.injEq,
      Prod.mk.injEq, decide_eq_false_iff_not] at h
    rcases h with ⟨rfl, hlast⟩
    exact ⟨hqueue, hopen, Nat.pos_of_ne_zero hlast⟩

lemma keeps : (protocol T).Keeps (fun _ _ => True) Settled where
  first _ := trivial
  more _ _ := trivial
  pending h _ := settled_of_check h
  signal h := ⟨fun _ => id, settled_signal h⟩

end MpscReceiver

section

variable {ι T W : Type} [DecidableEq ι] [TaskWaker W]

/-- A receiver that waits has an empty queue and an open channel with a sender, or is woken. -/
theorem mpsc_recv_loses_no_wakeup {state : Mpsc.State T}
    {world : World (Mpsc.State T) Unit ι W}
    (h : (waitingSystem ι W (MpscReceiver.protocol T) state).Reachable world) :
    NoLostWakeup MpscReceiver.Settled world :=
  waiting_loses_no_wakeup MpscReceiver.keeps h

end

/-- The receiver has registered and found nothing, and the wake of a send has locked the cell. -/
theorem mpsc_recv_loses_no_wakeup_racing :
    ∃ world : World (Mpsc.State ℕ) Unit ℕ RawWaker, NoLostWakeup MpscReceiver.Settled world ∧
      world.state.queue = [5] ∧ world.threads 0 = .remove .wake := by
  have hreplay : (System.replay (World.next (MpscReceiver.protocol ℕ))
      (start (.new 1) : World (Mpsc.State ℕ) Unit ℕ RawWaker)
      [.poll ⟨1, 1⟩, .advance, .advance, .advance, .advance, .advance, .signal 0 (.send 5),
        .wake 0]).isSome := rfl
  exact ⟨_, mpsc_recv_loses_no_wakeup (System.reachable_replay hreplay), rfl, rfl⟩

/-! ### The receiver of a `oneshot` channel -/

namespace OneshotReceiver

/-- The sender lives, or is in the destructor at the end of a send, or is dropped. -/
inductive Sender where
  | live
  | leaving
  | gone
  deriving DecidableEq

structure Shared (T : Type) where
  state : Oneshot.State T
  sender : Sender

inductive Signal (T : Type) where
  | send (value : T)
  | dropSender

variable {T : Type}

def Shared.new : Shared T :=
  ⟨.new, .live⟩

/-- The section of a send, and that of the destructor, which goes on with a wake. -/
def signal (act : Signal T) (shared : Shared T) : Option (Shared T × Bool) :=
  match act, shared.sender with
  | .send value, .live => some (⟨(shared.state.send value).2, .leaving⟩, false)
  | .dropSender, .live | .dropSender, .leaving => some (⟨shared.state.dropSender, .gone⟩, true)
  | _, _ => none

/-- One of the two `take` of `Receiver::poll`. -/
def check (_ : Unit) (shared : Shared T) : Option (Verdict Unit × Shared T) :=
  match shared.state.take with
  | (.ready _, state) => some (.ready, { shared with state := state })
  | (.pending, state) => some (.pending, { shared with state := state })

/-- The receiver does nothing between its polls. -/
def protocol (T : Type) : Protocol (Shared T) (Signal T) Empty Unit where
  signal := signal
  consume _ _ := none
  first := ()
  check := check

/-- There is no value and the sender is not dropped, or the sender has still to be dropped. -/
def Settled (shared : Shared T) : Prop :=
  shared.state.value = none ∧ shared.state.senderDropped = false ∨ shared.sender = .leaving

lemma settled_of_check {shared shared' : Shared T}
    (h : check () shared = some (.pending, shared')) : Settled shared' := by
  rcases shared with ⟨⟨_ | value, senderDropped, receiverDropped⟩, sender⟩
  · cases senderDropped with
    | false =>
      cases h
      exact .inl ⟨rfl, rfl⟩
    | true => cases h
  · cases h

lemma keeps : (protocol T).Keeps (fun _ _ => True) Settled where
  first _ := trivial
  more _ _ := trivial
  pending h _ := settled_of_check h
  signal {act shared shared'} h := by
    refine ⟨fun _ => id, fun _ => ?_⟩
    rcases shared with ⟨state, _ | _ | _⟩ <;> cases act <;> cases h
    exact .inr rfl

end OneshotReceiver

/-! ### The sender of a `oneshot` channel and its cancellation -/

namespace OneshotSender

inductive Signal where
  | poll
  | dropReceiver

variable {T : Type}

/-- A `take` of the receiver, and the section of its destructor, which goes on with a wake. -/
def signal (act : Signal) (state : Oneshot.State T) : Option (Oneshot.State T × Bool) :=
  if state.receiverDropped then none
  else match act with
    | .poll => some (state.take.2, false)
    | .dropReceiver => some (state.dropReceiver.2, true)

/-- One of the two `canceled` of `Cancellation::poll`. -/
def check (_ : Unit) (state : Oneshot.State T) : Option (Verdict Unit × Oneshot.State T) :=
  some (if state.canceled then .ready else .pending, state)

/-- Nothing between the polls changes the state: a send consumes the sender. -/
def protocol (T : Type) : Protocol (Oneshot.State T) Signal Empty Unit where
  signal := signal
  consume _ _ := none
  first := ()
  check := check

def Settled (state : Oneshot.State T) : Prop :=
  state.receiverDropped = false

lemma keeps : (protocol T).Keeps (fun _ _ => True) Settled where
  first _ := trivial
  more _ _ := trivial
  pending {_ state state'} h _ := by
    rcases state with ⟨value, senderDropped, _ | _⟩
    · cases h
      rfl
    · cases h
  signal {act state state'} h := by
    refine ⟨fun _ => id, fun hsettled => ?_⟩
    rcases state with ⟨_ | value, senderDropped, _ | _⟩ <;> cases act <;> cases h <;> rfl

end OneshotSender

section

variable {ι T W : Type} [DecidableEq ι] [TaskWaker W]

/-- On each side of a `oneshot` channel: a receiver that waits has no value and a sender that is not
dropped, or is woken; and a sender that waits for its cancellation has a receiver, or is woken. -/
theorem oneshot_waits_lose_no_wakeup :
    (∀ {shared : OneshotReceiver.Shared T} {world : World (OneshotReceiver.Shared T) Unit ι W},
      (waitingSystem ι W (OneshotReceiver.protocol T) shared).Reachable world →
        NoLostWakeup OneshotReceiver.Settled world) ∧
    ∀ {state : Oneshot.State T} {world : World (Oneshot.State T) Unit ι W},
      (waitingSystem ι W (OneshotSender.protocol T) state).Reachable world →
        NoLostWakeup OneshotSender.Settled world :=
  ⟨waiting_loses_no_wakeup OneshotReceiver.keeps, waiting_loses_no_wakeup OneshotSender.keeps⟩

end

/-- A receiver that has registered when the value arrives, and a sender that registers while the
receiver is dropped. -/
theorem oneshot_waits_lose_no_wakeup_racing :
    (∃ world : World (OneshotReceiver.Shared ℕ) Unit ℕ RawWaker,
      NoLostWakeup OneshotReceiver.Settled world ∧ world.state.state.value = some 5 ∧
        world.threads 0 = .remove .wake) ∧
    ∃ world : World (Oneshot.State ℕ) Unit ℕ RawWaker,
      NoLostWakeup OneshotSender.Settled world ∧ world.state.receiverDropped = true ∧
        Pending world ⟨1, 1⟩ := by
  have hreceiver : (System.replay (World.next (OneshotReceiver.protocol ℕ))
      (start .new : World (OneshotReceiver.Shared ℕ) Unit ℕ RawWaker)
      [.poll ⟨1, 1⟩, .advance, .advance, .advance, .advance, .advance, .signal 0 (.send 5),
        .signal 0 .dropSender, .wake 0]).isSome := rfl
  have hsender : (System.replay (World.next (OneshotSender.protocol ℕ))
      (start .new : World (Oneshot.State ℕ) Unit ℕ RawWaker)
      [.poll ⟨1, 1⟩, .advance, .advance, .advance, .advance, .advance,
        .signal 0 .dropReceiver]).isSome := rfl
  exact ⟨⟨_, oneshot_waits_lose_no_wakeup.1 (System.reachable_replay hreceiver), rfl, rfl⟩,
    ⟨_, oneshot_waits_lose_no_wakeup.2 (System.reachable_replay hsender), rfl, rfl, rfl⟩⟩

/-! ### The consumer of a ring -/

namespace SpscConsumer

/-- A ring of this capacity between its calls, and the flag of its producer. -/
structure Shared (T : Type) (capacity : ℕ) where
  queue : Spsc.Ring T
  closed : Bool
  holds : ∃ v items, queue.Holds capacity v items

inductive Signal (T : Type) where
  | push (item : T)
  | pushOverwrite (item : T)
  | dropProducer

/-- The next step of a half of `poll_pop`. -/
inductive Phase where
  | pop
  | isClosed
  | popLast

variable {T : Type} {capacity : ℕ}

section Calls

variable (hcap : 0 < capacity) {queue queue' : Spsc.Ring T} {answer : Spsc.Answer T}
include hcap

/-- The answers of a push, and the items before and after it. -/
lemma push_cases {item : T} {overwrite : Bool} (h : queue.push item overwrite = some (answer, queue'))
    (hholds : ∃ v items, queue.Holds capacity v items) :
    (∃ v items, queue'.Holds capacity v items) ∧
      (answer = .pushed ∨ answer = .full item ∧ queue' = queue ∨
        ∃ position displaced, answer = .displaced position displaced) := by
  rcases hholds with ⟨v, items, hitems⟩
  rcases hitems.length_le.lt_or_eq with hlt | hfull
  · rcases hitems.push_of_lt hcap hlt item overwrite with ⟨after, hpush, hafter⟩
    cases h.symm.trans hpush
    exact ⟨⟨_, _, hafter⟩, .inl rfl⟩
  · cases overwrite with
    | false =>
      cases h.symm.trans (hitems.push_full hcap hfull item)
      exact ⟨⟨_, _, hitems⟩, .inr (.inl ⟨rfl, rfl⟩)⟩
    | true =>
      rcases items with _ | ⟨oldest, rest⟩
      · exact absurd hfull hcap.ne
      · rcases hitems.push_overwrite hcap rfl hfull item with ⟨after, hpush, hafter⟩
        cases h.symm.trans hpush
        exact ⟨⟨_, _, hafter⟩, .inr (.inr ⟨_, _, rfl⟩)⟩

/-- The answers of a pop; an empty ring stays as it is. -/
lemma pop_cases (h : queue.pop = some (answer, queue'))
    (hholds : ∃ v items, queue.Holds capacity v items) :
    (∃ v items, queue'.Holds capacity v items) ∧
      ((∃ position item, answer = .popped position item) ∨
        answer = .empty ∧ ∃ v, queue'.Holds capacity v []) := by
  rcases hholds with ⟨v, items, hitems⟩
  rcases items with _ | ⟨item, rest⟩
  · cases h.symm.trans (hitems.pop_nil hcap rfl)
    exact ⟨⟨v, [], hitems⟩, .inr ⟨rfl, v, hitems⟩⟩
  · rcases hitems.pop_cons hcap rfl with ⟨after, hpop, hafter⟩
    cases h.symm.trans hpop
    exact ⟨⟨_, _, hafter⟩, .inl ⟨_, _, rfl⟩⟩

end Calls

namespace Shared

def new (T : Type) (capacity : ℕ) : Shared T capacity where
  queue := .new capacity
  closed := false
  holds := ⟨0, [], Spsc.Ring.holds_new capacity⟩

variable (hcap : 0 < capacity)

def push (shared : Shared T capacity) (item : T) (overwrite : Bool) :
    Option (Spsc.Answer T × Shared T capacity) :=
  match h : shared.queue.push item overwrite with
  | some (answer, queue) =>
    some (answer, { shared with queue := queue, holds := (push_cases hcap h shared.holds).1 })
  | none => none

def pop (shared : Shared T capacity) : Option (Spsc.Answer T × Shared T capacity) :=
  match h : shared.queue.pop with
  | some (answer, queue) =>
    some (answer, { shared with queue := queue, holds := (pop_cases hcap h shared.holds).1 })
  | none => none

end Shared

/-- The producer acts until it sets its flag, and wakes after all but a rejected push. -/
def signal (hcap : 0 < capacity) (act : Signal T) (shared : Shared T capacity) :
    Option (Shared T capacity × Bool) :=
  if shared.closed then none
  else match act with
    | .push item =>
      (shared.push hcap item false).map fun (answer, shared) =>
        match answer with
        | .full _ => (shared, false)
        | _ => (shared, true)
    | .pushOverwrite item => (shared.push hcap item true).map fun (_, shared) => (shared, true)
    | .dropProducer => some ({ shared with closed := true }, true)

/-- A step of `poll_pop`. -/
def check (hcap : 0 < capacity) (phase : Phase) (shared : Shared T capacity) :
    Option (Verdict Phase × Shared T capacity) :=
  match phase with
  | .pop =>
    (shared.pop hcap).map fun (answer, shared) =>
      match answer with
      | .popped _ _ => (.ready, shared)
      | _ => (.more .isClosed, shared)
  | .isClosed => some (if shared.closed then .more .popLast else .pending, shared)
  | .popLast => (shared.pop hcap).map fun (_, shared) => (.ready, shared)

def protocol (T : Type) (hcap : 0 < capacity) : Protocol (Shared T capacity) (Signal T) Unit Phase where
  signal := signal hcap
  consume _ shared := (shared.pop hcap).map Prod.snd
  first := .pop
  check := check hcap

def IsEmpty (shared : Shared T capacity) : Prop :=
  ∃ v, shared.queue.Holds capacity v []

/-- Between the pop and the load of the flag the ring is empty, if nothing has been pushed. -/
def Established (phase : Phase) (shared : Shared T capacity) : Prop :=
  match phase with
  | .isClosed => IsEmpty shared
  | _ => True

def Settled (shared : Shared T capacity) : Prop :=
  IsEmpty shared ∧ shared.closed = false

section Keeps

variable {hcap : 0 < capacity} {shared shared' : Shared T capacity} {answer : Spsc.Answer T}

lemma push_eq_some {item : T} {overwrite : Bool}
    (h : shared.push hcap item overwrite = some (answer, shared')) :
    shared.queue.push item overwrite = some (answer, shared'.queue) ∧
      shared'.closed = shared.closed := by
  unfold Shared.push at h
  split at h
  · next hpush =>
    cases h
    exact ⟨hpush, rfl⟩
  · cases h

lemma pop_eq_some (h : shared.pop hcap = some (answer, shared')) :
    shared.queue.pop = some (answer, shared'.queue) ∧ shared'.closed = shared.closed := by
  unfold Shared.pop at h
  split at h
  · next hpop =>
    cases h
    exact ⟨hpop, rfl⟩
  · cases h

/-- Without a wake there was a rejected push, which changes nothing. -/
lemma queue_of_signal {act : Signal T} (h : signal hcap act shared = some (shared', false)) :
    shared'.queue = shared.queue ∧ shared'.closed = shared.closed := by
  unfold signal at h
  split_ifs at h with hclosed
  cases act with
  | push item =>
    rcases Option.map_eq_some_iff.mp h with ⟨⟨answer, after⟩, hpush, hanswer⟩
    rcases push_eq_some hpush with ⟨hqueue, hflag⟩
    rcases (push_cases hcap hqueue shared.holds).2 with rfl | ⟨rfl, hsame⟩ | ⟨_, _, rfl⟩
    · cases hanswer
    · cases hanswer
      exact ⟨hsame, hflag⟩
    · cases hanswer
  | pushOverwrite item =>
    rcases Option.map_eq_some_iff.mp h with ⟨_, -, hanswer⟩
    cases hanswer
  | dropProducer => cases h

lemma isEmpty_of_signal {act : Signal T} (h : signal hcap act shared = some (shared', false)) :
    IsEmpty shared → IsEmpty shared' := by
  rintro ⟨v, hempty⟩
  exact ⟨v, (queue_of_signal h).1 ▸ hempty⟩

lemma isEmpty_of_check (h : check hcap .pop shared = some (.more .isClosed, shared')) :
    IsEmpty shared' := by
  rcases Option.map_eq_some_iff.mp h with ⟨⟨answer, after⟩, hpop, hanswer⟩
  rcases (pop_cases hcap (pop_eq_some hpop).1 shared.holds).2 with ⟨_, _, rfl⟩ | ⟨rfl, hempty⟩
  · cases hanswer
  · cases hanswer
    exact hempty

lemma keeps : (protocol T hcap).Keeps Established Settled where
  first _ := trivial
  more {phase phase' state state'} h _ := by
    cases phase' with
    | isClosed =>
      cases phase with
      | pop => exact isEmpty_of_check h
      | isClosed =>
        simp only [protocol, check, Option.some.injEq, Prod.mk.injEq] at h
        split_ifs at h <;> cases h.1
      | popLast =>
        rcases Option.map_eq_some_iff.mp h with ⟨_, -, hanswer⟩
        cases hanswer
    | _ => trivial
  pending {phase state state'} h hempty := by
    cases phase with
    | pop =>
      rcases Option.map_eq_some_iff.mp h with ⟨⟨answer, after⟩, -, hanswer⟩
      cases answer <;> cases hanswer
    | isClosed =>
      simp only [protocol, check, Option.some.injEq, Prod.mk.injEq] at h
      split_ifs at h with hclosed
      · cases h.1
      · rcases h with ⟨-, rfl⟩
        exact ⟨hempty, Bool.eq_false_iff.mpr hclosed⟩
    | popLast =>
      rcases Option.map_eq_some_iff.mp h with ⟨_, -, hanswer⟩
      cases hanswer
  signal {act state state'} h := by
    refine ⟨fun phase => ?_, fun hsettled => ?_⟩
    · cases phase with
      | isClosed => exact isEmpty_of_signal h
      | _ => exact fun _ => trivial
    · exact ⟨isEmpty_of_signal h hsettled.1, (queue_of_signal h).2.trans hsettled.2⟩

end Keeps

end SpscConsumer

/-- A consumer that waits has an empty ring and a producer, or is woken. -/
theorem spsc_pop_loses_no_wakeup {T W : Type} [TaskWaker W] {capacity : ℕ} {hcap : 0 < capacity}
    {world : World (SpscConsumer.Shared T capacity) SpscConsumer.Phase Unit W}
    (h : (waitingSystem Unit W (SpscConsumer.protocol T hcap) (.new T capacity)).Reachable world) :
    NoLostWakeup SpscConsumer.Settled world :=
  waiting_loses_no_wakeup SpscConsumer.keeps h

/-- An item is pushed between the consumer's last look at the ring and at the flag. -/
theorem spsc_pop_loses_no_wakeup_racing :
    ∃ world : World (SpscConsumer.Shared ℕ 1) SpscConsumer.Phase Unit RawWaker,
      NoLostWakeup SpscConsumer.Settled world ∧ Pending world ⟨1, 1⟩ ∧
        world.threads () = .remove .wake := by
  have hreplay : (System.replay (World.next (SpscConsumer.protocol ℕ Nat.one_pos))
      (start (.new ℕ 1) : World (SpscConsumer.Shared ℕ 1) SpscConsumer.Phase Unit RawWaker)
      [.poll ⟨1, 1⟩, .advance, .advance, .advance, .advance, .advance, .advance,
        .signal () (.push 5), .advance, .wake ()]).isSome := rfl
  exact ⟨_, spsc_pop_loses_no_wakeup (System.reachable_replay hreplay), ⟨rfl, rfl⟩, rfl⟩

end DoomFishUtils.AtomicWaker.Waiting
