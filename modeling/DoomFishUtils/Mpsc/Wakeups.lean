import DoomFishUtils.Mpsc.Accounting
import DoomFishUtils.Registration

/-!
# Wakeups of the receiver

What a step says about the receiver's waker is recorded beside the runs of the channel: a
registration, a call, and the return of an operation of the receiver.
-/

namespace DoomFishUtils.Mpsc

set_option autoImplicit false

open DoomFishUtils.Library

variable {ι T W : Type}

inductive Note (W : Type) where
  | registered (waker : W)
  | woke (waker : W)
  /-- An operation of the receiver has returned, with its waker if it was a pending poll. -/
  | finished (pending : Option W)

namespace Note

def waker : Note W → Option (WakerNote W)
  | .registered waker => some (.registered waker)
  | .woke waker => some (.woke waker)
  | .finished _ => none

def ofReceiver : Note W → Bool
  | .finished _ => true
  | _ => false

end Note

/-- What a step records. -/
def World.note (world : World ι T W) : Action ι T W → List (Note W)
  | .send _ _ => []
  | .cloneSender _ _ => []
  | .dropSender _ => []
  | .tryRecv => [.finished none]
  | .poll _ =>
    match world.state.tryRecv.1 with
    | .error .empty => []
    | _ => [.finished none]
  | .register =>
    match world.receiver with
    | .registering waker => [.registered waker]
    | _ => []
  | .recheck =>
    match world.receiver, world.state.tryRecv.1 with
    | .rechecking waker, .error .empty => [.finished (some waker)]
    | _, _ => [.finished none]
  | .close => [.finished none]
  | .dropReceiver => [.finished none]
  | .wake => world.receiverWaker.take.1.toList.map .woke

/-- The receiver's latest operation is a `poll_recv` with this waker that returned pending. -/
def Pending (world : World ι T W) (notes : List (Note W)) (waker : W) : Prop :=
  world.receiver = .idle ∧ Latest Note.ofReceiver notes (.finished (some waker))

/-- The receiver has registered the waker in its latest `poll_recv`, which may still go on. -/
def Expecting (world : World ι T W) (notes : List (Note W)) (waker : W) : Prop :=
  world.receiver = .rechecking waker ∨ Pending world notes waker

/-- Nothing is there to receive, and something may still come. -/
def Quiet (world : World ι T W) : Prop :=
  world.state.queue = [] ∧ world.state.isOpen = true ∧ 0 < world.state.senders

/-- What a waiting receiver is owed until its waker is called. -/
def Owed (world : World ι T W) : Prop :=
  match world.receiver with
  | .idle => Quiet world ∨ 0 < world.due
  | _ => True

section Steps

variable {kind : Kind} {world world' : World ι T W} {notes : List (Note W)}

lemma owed_of_due (h : 0 < world.due) : Owed world := by
  unfold Owed
  split
  · exact .inr h
  · trivial

variable [TaskWaker W]

def Watched (world : World ι T W) (notes : List (Note W)) : Prop :=
  Guarded Note.waker world.receiverWaker notes (Expecting world notes) fun _ => Owed world

/-- A step of a sender: the receiver expects what it did, and is owed the same or a wake. -/
lemma Watched.send (h : Watched world notes) (hreceiver : world'.receiver = world.receiver)
    (hwaker : world'.receiverWaker = world.receiverWaker) (howed : Owed world → Owed world') :
    Watched world' notes := by
  unfold Watched
  rw [hwaker]
  refine Guarded.mono h (fun waker hexpecting => ?_) fun _ _ => howed
  unfold Expecting Pending at *
  rw [hreceiver] at hexpecting
  exact hexpecting

/-- An operation of the receiver that returns something else than pending. -/
lemma watched_of_finished (hreceiver : ∀ waker, world'.receiver ≠ .rechecking waker) :
    Watched world' (.finished none :: notes) := by
  refine guarded_of_none fun waker => ?_
  rintro (hrechecking | ⟨-, hlatest⟩)
  · exact hreceiver waker hrechecking
  · cases (latest_cons_of_pos rfl).mp hlatest

/-- A poll that goes on to its registration. -/
lemma watched_of_registering {waker : W} (hreceiver : world'.receiver = .registering waker) :
    Watched world' notes := by
  refine guarded_of_none fun other => ?_
  rintro (hrechecking | ⟨hidle, -⟩)
  · cases hreceiver.symm.trans hrechecking
  · cases hreceiver.symm.trans hidle

omit [TaskWaker W] in
/-- A send appends under the debt of a wake, or changes nothing. -/
lemma owed_send (value : T) (h : Owed world) : Owed (world.send value) := by
  unfold World.send
  rcases world.state.send_cases value with ⟨-, -, hsend⟩ | ⟨-, full, hsend⟩
  · rw [hsend]
    exact owed_of_due (Nat.succ_pos _)
  · rw [hsend]
    exact h

omit [TaskWaker W] in
/-- The drop of the last sender is under the debt of a wake, and after any other one a sender
lives. -/
lemma owed_dropSender [DecidableEq ι] {sender : ι} (h : Owed world)
    (hdrop : world.dropSender sender = some world') : Owed world' := by
  rcases Option.map_eq_some_iff.mp hdrop with ⟨⟨last, state⟩, hstate, rfl⟩
  unfold State.dropSender at hstate
  split_ifs at hstate with hzero
  injection hstate with hstate
  injection hstate with hlast hstate
  by_cases hone : world.state.senders - 1 = 0
  · refine owed_of_due ?_
    rw [← hlast]
    simp [hone]
  · unfold Owed at h ⊢
    rcases hreceiver : world.receiver <;> rw [hreceiver] at h <;> try trivial
    rcases h with ⟨hqueue, hopen, -⟩ | hdue
    · rw [← hstate]
      exact .inl ⟨hqueue, hopen, Nat.pos_of_ne_zero hone⟩
    · refine .inr (hdue.trans_le ?_)
      dsimp only
      split_ifs <;> omega

/-- The two sections of `poll_recv`. -/
lemma Watched.poll (waker : W) :
    Watched (world.poll waker) (world.note (.poll waker) ++ notes) := by
  unfold World.poll World.note
  rcases hrecv : world.state.tryRecv with ⟨(_ | _) | value, state⟩
  · exact watched_of_registering rfl
  · exact watched_of_finished fun _ heq => by cases heq
  · exact watched_of_finished fun _ heq => by cases heq

lemma Watched.recheck (h : Watched world notes) {waker : W}
    (hreceiver : world.receiver = .rechecking waker) :
    Watched (world.recheck waker) (world.note .recheck ++ notes) := by
  unfold World.recheck World.note
  rw [hreceiver]
  rcases world.state.tryRecv_cases with ⟨value, queue, -, hrecv⟩ | ⟨-, -, hrecv⟩ |
    ⟨hqueue, hopen, hsenders, hrecv⟩ <;> rw [hrecv]
  · exact watched_of_finished fun _ heq => by cases heq
  · exact watched_of_finished fun _ heq => by cases heq
  · refine Guarded.cons h rfl (fun other hexpecting => ?_) fun _ _ _ => .inl ⟨hqueue, hopen, hsenders⟩
    rcases hexpecting with hrechecking | ⟨-, hlatest⟩
    · cases hrechecking
    · cases (latest_cons_of_pos rfl).mp hlatest
      exact .inl hreceiver

lemma Watched.next [DecidableEq ι] (h : Watched world notes) {action : Action ι T W}
    (hnext : world.next kind action = some world') :
    Watched world' (world.note action ++ notes) := by
  rcases action with ⟨sender, value⟩ | ⟨sender, clone⟩ | sender | _ | waker | _ | _ | _ | _ | _ <;>
    unfold World.next at hnext <;> dsimp only at hnext
  case send =>
    rcases Option.ite_none_right_eq_some.mp hnext with ⟨-, hworld⟩
    exact Option.some.inj hworld ▸ h.send rfl rfl (owed_send value)
  case cloneSender =>
    rcases Option.ite_none_right_eq_some.mp hnext with ⟨-, hworld⟩
    refine Option.some.inj hworld ▸ h.send rfl rfl fun howed => ?_
    unfold Owed at howed ⊢
    rcases hreceiver : world.receiver <;> rw [hreceiver] at howed <;> try trivial
    exact howed.imp_left fun hquiet => ⟨hquiet.1, hquiet.2.1, Nat.succ_pos _⟩
  case dropSender =>
    rcases Option.ite_none_right_eq_some.mp hnext with ⟨-, hworld⟩
    have hsame : world'.receiver = world.receiver ∧
        world'.receiverWaker = world.receiverWaker := by
      rcases Option.map_eq_some_iff.mp hworld with ⟨⟨last, state⟩, -, rfl⟩
      exact ⟨rfl, rfl⟩
    exact h.send hsame.1 hsame.2 fun howed => owed_dropSender howed hworld
  case tryRecv =>
    split at hnext
    · next hidle =>
      refine Option.some.inj hnext ▸ watched_of_finished fun waker heq => ?_
      cases hidle.symm.trans heq
    · cases hnext
  case poll =>
    split at hnext
    · exact Option.some.inj hnext ▸ Watched.poll waker
    · cases hnext
  case register =>
    split at hnext
    · next waker hregistering =>
      unfold World.note
      rw [hregistering]
      refine Option.some.inj hnext ▸ guarded_register _ _ (fun other hexpecting => ?_)
        fun _ _ => trivial
      rcases hexpecting with hrechecking | ⟨hidle, -⟩
      · cases hrechecking
        rfl
      · cases hidle
    · cases hnext
  case recheck =>
    split at hnext
    · next waker hrechecking => exact Option.some.inj hnext ▸ h.recheck hrechecking
    · cases hnext
  case close =>
    split at hnext
    · next hidle =>
      refine Option.some.inj hnext ▸ watched_of_finished fun waker heq => ?_
      cases hidle.symm.trans heq
    · cases hnext
  case dropReceiver =>
    split at hnext
    · exact Option.some.inj hnext ▸ watched_of_finished fun waker heq => by cases heq
    · cases hnext
  case wake =>
    rcases Option.ite_none_left_eq_some.mp hnext with ⟨-, hworld⟩
    refine Option.some.inj hworld ▸ Guarded.take h (fun _ => rfl) fun waker hexpecting => ?_
    refine hexpecting.imp_right fun hpending => ⟨hpending.1, ?_⟩
    exact (latest_map_append_of_neg (fun _ => rfl) _).mp hpending.2

end Steps

/-- A receiver whose latest operation is a pending `poll_recv` and whose waker has not been called
since its registration: there is nothing to receive while something may still come, or a wake is
due. -/
def NoLostWakeup [TaskWaker W] (world : World ι T W) (notes : List (Note W)) : Prop :=
  ∀ waker, Pending world notes waker → ¬Called Note.waker notes waker →
    (world.state.queue = [] ∧ world.state.isOpen = true ∧ world.senders.Nonempty) ∨ 0 < world.due

end DoomFishUtils.Mpsc
