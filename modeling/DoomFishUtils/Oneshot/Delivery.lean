import DoomFishUtils.Library.History
import DoomFishUtils.Library.Ledger
import DoomFishUtils.Oneshot.Model

/-!
# The way of the value

At most one value is ever sent, and the history accounts for it: it is waiting, in the hands of
one of the two destructors, or ended in exactly one place.
-/

namespace DoomFishUtils.Oneshot

set_option autoImplicit false

open DoomFishUtils.Library

variable {T W : Type}

/-- The value that an event brings into the channel. -/
def Event.given : Event T W → List T
  | .sent value _ => [value]
  | _ => []

/-- The value that an event returns to the sender or to the receiver, or drops. -/
def Event.ended : Event T W → List T
  | .returned (.error value) => [value]
  | .polled _ (.ready (.ok value)) => [value]
  | .discarded value => value.toList
  | _ => []

/-- An event that is not about the value. -/
def Event.isQuiet : Event T W → Bool
  | .returned (.ok _) => true
  | .cancellationPolled _ _ => true
  | .registered _ _ => true
  | .woke _ _ => true
  | _ => false

namespace Sender

/-- The value that a failing send has yet to return. -/
def hand : Sender T W → List T
  | .leaving (.error value) => [value]
  | .waking (some (.error value)) => [value]
  | _ => []

/-- The sender has neither been dropped nor begun to send. -/
def isUnused : Sender T W → Bool
  | .live => true
  | .registering _ => true
  | .rechecking _ => true
  | _ => false

/-- The section of the sender's destructor has run. -/
def isDropped : Sender T W → Bool
  | .waking _ => true
  | .gone => true
  | _ => false

end Sender

namespace Receiver

/-- The value that the receiver's destructor has yet to drop. -/
def hand : Receiver T W → List T
  | .waking value => value.toList
  | .discarding value => value.toList
  | _ => []

/-- The section of the receiver's destructor has run. -/
def isDropped : Receiver T W → Bool
  | .waking _ => true
  | .discarding _ => true
  | .gone => true
  | _ => false

end Receiver

/-- A poll has returned the value. -/
def Delivered (log : List (Event T W)) (value : T) : Prop :=
  ∃ waker, .polled waker (.ready (.ok value)) ∈ log

/-- A value that waits or is in the hands of a destructor. -/
def World.held (world : World T W) : List T :=
  world.state.value.toList ++ world.receiver.hand ++ world.sender.hand

/-- What an event says of those before it: a poll after the value was stored returns it unless an
earlier poll has, and no send comes after the end was reported. -/
def Truthful : Event T W → List (Event T W) → Prop
  | .polled _ answer, earlier =>
    ∀ value, .sent value (.ok ()) ∈ earlier → answer = .ready (.ok value) ∨ Delivered earlier value
  | .sent _ _, earlier => ∀ waker, .polled waker (.ready (.error ⟨⟩)) ∉ earlier
  | _, _ => True

structure Coherent (world : World T W) : Prop where
  balanced : Balanced Event.given Event.ended world.log world.held
  unused : world.sender.isUnused = true → total Event.given world.log = []
  once : (total Event.given world.log).length ≤ 1
  senderDropped : world.state.senderDropped = world.sender.isDropped
  receiverDropped : world.state.receiverDropped = world.receiver.isDropped
  emptied : world.state.receiverDropped = true → world.state.value = none
  kept : ∀ value, .sent value (.ok ()) ∈ world.log →
    world.state.value = some value ∨ Delivered world.log value ∨ world.state.receiverDropped = true
  canceled : ∀ waker, .polled waker (.ready (.error ⟨⟩)) ∈ world.log →
    world.state.senderDropped = true ∧ world.state.value = none
  truthful : Throughout Truthful world.log

lemma Delivered.cons {log : List (Event T W)} {value : T} (h : Delivered log value)
    (event : Event T W) : Delivered (event :: log) value :=
  h.imp fun _ hmem => List.mem_cons_of_mem event hmem

section Steps

variable {world world' : World T W}

lemma coherent_start : Coherent (World.start : World T W) where
  balanced := balanced_nil
  unused _ := rfl
  once := Nat.zero_le _
  senderDropped := rfl
  receiverDropped := rfl
  emptied _ := rfl
  kept _ hmem := absurd hmem List.not_mem_nil
  canceled _ hmem := absurd hmem List.not_mem_nil
  truthful := trivial

/-- Before the send nothing is held. -/
lemma Coherent.held_of_unused (h : Coherent world) (hsender : world.sender.isUnused = true) :
    world.held = [] := by
  have hbalanced := h.balanced.total_eq
  rw [h.unused hsender] at hbalanced
  exact (List.append_eq_nil_iff.mp hbalanced.symm).2

/-- A step between places with the same values. -/
lemma Coherent.move (h : Coherent world) (hlog : world'.log = world.log)
    (hstate : world'.state = world.state) (hsender : world'.sender.hand = world.sender.hand)
    (hunused : world'.sender.isUnused = true → world.sender.isUnused = true)
    (hsenderDropped : world'.sender.isDropped = world.sender.isDropped)
    (hreceiver : world'.receiver.hand = world.receiver.hand)
    (hreceiverDropped : world'.receiver.isDropped = world.receiver.isDropped) :
    Coherent world' := by
  rcases world' with ⟨state, receiverWaker, senderWaker, sender, receiver, log⟩
  dsimp only at hlog hstate hsender hunused hsenderDropped hreceiver hreceiverDropped
  subst hlog hstate
  exact {
    balanced := by
      unfold World.held
      rw [hsender, hreceiver]
      exact h.balanced
    unused := fun hnow => h.unused (hunused hnow)
    once := h.once
    senderDropped := h.senderDropped.trans hsenderDropped.symm
    receiverDropped := h.receiverDropped.trans hreceiverDropped.symm
    emptied := h.emptied
    kept := h.kept
    canceled := h.canceled
    truthful := h.truthful }

lemma Coherent.once_cons (h : Coherent world) {event : Event T W} (hevent : event.given = []) :
    (total Event.given (event :: world.log)).length ≤ 1 := by
  rw [total_cons_of_nil hevent]
  exact h.once

/-- An event that is no report of the end adds none. -/
lemma Coherent.canceled_cons (h : Coherent world) {event : Event T W}
    (hevent : ∀ waker, event ≠ .polled waker (.ready (.error ⟨⟩))) (waker : W)
    (hmem : .polled waker (.ready (.error ⟨⟩)) ∈ event :: world.log) :
    world.state.senderDropped = true ∧ world.state.value = none := by
  rcases List.mem_cons.mp hmem with heq | hmem
  · exact absurd heq.symm (hevent waker)
  · exact h.canceled waker hmem

lemma Event.nil_of_isQuiet {event : Event T W} (h : event.isQuiet = true) :
    event.given = [] ∧ event.ended = [] := by
  rcases event with _ | (_ | _) | _ | _ | _ | _ | _
  all_goals first | exact ⟨rfl, rfl⟩ | cases h

/-- An event that is not about the value. -/
lemma Coherent.note (h : Coherent world) {event : Event T W} (hevent : event.isQuiet = true) :
    Coherent { world with log := event :: world.log } where
  balanced := h.balanced.cons_of_nil (Event.nil_of_isQuiet hevent).1
    (Event.nil_of_isQuiet hevent).2
  unused hsender := (total_cons_of_nil (Event.nil_of_isQuiet hevent).1).trans (h.unused hsender)
  once := h.once_cons (Event.nil_of_isQuiet hevent).1
  senderDropped := h.senderDropped
  receiverDropped := h.receiverDropped
  emptied := h.emptied
  kept value hmem := by
    rcases List.mem_cons.mp hmem with rfl | hmem
    · cases hevent
    · exact (h.kept value hmem).imp_right fun hlater => hlater.imp_left fun hdone => hdone.cons event
  canceled := h.canceled_cons fun waker heq => by
    rw [heq] at hevent
    cases hevent
  truthful := by
    refine ⟨?_, h.truthful⟩
    cases event <;> trivial

lemma Coherent.woke (h : Coherent world) (side : Side) (waker : Option W) :
    Coherent { world with log := waker.toList.map (.woke side) ++ world.log } := by
  rcases waker with _ | waker
  · exact h
  · exact h.note rfl

/-- The section of a send: the first value, which waits unless the receiver is gone. -/
lemma Coherent.send (h : Coherent world) (hsender : world.sender = .live) (value : T) :
    Coherent (world.send value) := by
  have hunused : world.sender.isUnused = true := by rw [hsender]; rfl
  have hgiven := h.unused hunused
  have hdropped : world.state.senderDropped = false := by rw [h.senderDropped, hsender]; rfl
  have hnone : world.state.value.toList ++ world.receiver.hand = [] :=
    (List.append_eq_nil_iff.mp (h.held_of_unused hunused)).1
  have hfirst : ∀ waker, .polled waker (.ready (.error ⟨⟩)) ∉ world.log := fun waker hmem => by
    cases hdropped.symm.trans (h.canceled waker hmem).1
  have honce : ∀ answer : Except T Unit,
      (total Event.given (.sent value answer :: world.log)).length ≤ 1 := by
    intro answer
    rw [total, hgiven]
    exact Nat.le_refl 1
  have hheld := h.held_of_unused hunused
  unfold World.send State.send
  split_ifs with hgone
  · exact {
      balanced := h.balanced.cons (by
        rw [hheld, World.held, hnone]
        rfl)
      unused := fun hnow => by cases hnow
      once := honce _
      senderDropped := hdropped
      receiverDropped := h.receiverDropped
      emptied := h.emptied
      kept := fun _ _ => .inr (.inr hgone)
      canceled := fun waker hmem => by
        rcases List.mem_cons.mp hmem with heq | hmem
        · cases heq
        · exact absurd hmem (hfirst waker)
      truthful := ⟨hfirst, h.truthful⟩ }
  · have hhand : world.receiver.hand = [] := (List.append_eq_nil_iff.mp hnone).2
    exact {
      balanced := h.balanced.cons (by
        rw [hheld, World.held, hhand]
        rfl)
      unused := fun hnow => by cases hnow
      once := honce _
      senderDropped := hdropped
      receiverDropped := h.receiverDropped
      emptied := fun hnow => absurd hnow hgone
      kept := fun other hmem => by
        rcases List.mem_cons.mp hmem with heq | hmem
        · cases heq
          exact .inl rfl
        · have hother : other ∈ total Event.given world.log :=
            mem_total.mpr ⟨_, hmem, List.mem_singleton_self other⟩
          rw [hgiven] at hother
          cases hother
      canceled := fun waker hmem => by
        rcases List.mem_cons.mp hmem with heq | hmem
        · cases heq
        · exact absurd hmem (hfirst waker)
      truthful := ⟨hfirst, h.truthful⟩ }

/-- The section of the sender's destructor. -/
lemma Coherent.dropSender (h : Coherent world) {sender : Sender T W}
    (hhand : sender.hand = world.sender.hand) (hunused : sender.isUnused = false)
    (hdropped : sender.isDropped = true) :
    Coherent { world with state := world.state.dropSender, sender := sender } where
  balanced := by
    unfold World.held
    rw [hhand]
    exact h.balanced
  unused hnow := by
    cases hunused.symm.trans hnow
  once := h.once
  senderDropped := hdropped.symm
  receiverDropped := h.receiverDropped
  emptied := h.emptied
  kept := h.kept
  canceled waker hmem := ⟨rfl, (h.canceled waker hmem).2⟩
  truthful := h.truthful

/-- No two values are held at once. -/
lemma Coherent.held_length (h : Coherent world) : world.held.length ≤ 1 := by
  have honce := h.once
  have hbalanced := h.balanced.total_eq
  rw [hbalanced, List.length_append] at honce
  omega

/-- The end of the sender: a failing send returns its value. -/
lemma Coherent.wakeReceiver (h : Coherent world) {answer : Option (Except T Unit)}
    (hsender : world.sender = .waking answer) : Coherent (world.wakeReceiver answer) := by
  have hwoke : Coherent { world with
      receiverWaker := world.receiverWaker.take.2
      log := world.receiverWaker.take.1.toList.map (.woke .receiver) ++ world.log } :=
    (h.woke .receiver world.receiverWaker.take.1).move rfl rfl rfl id rfl rfl rfl
  have hdropped : world.state.senderDropped = true := by rw [h.senderDropped, hsender]; rfl
  rcases answer with _ | value | ⟨⟨⟩⟩
  · refine hwoke.move rfl rfl ?_ (fun hnow => ?_) ?_ rfl rfl
    · rw [hsender]
      rfl
    · cases hnow
    · rw [hsender]
      rfl
  · have hrest : world.state.value.toList ++ world.receiver.hand = [] := by
      have hlength := h.held_length
      unfold World.held at hlength
      rw [hsender, List.length_append] at hlength
      exact List.length_eq_zero_iff.mp (Nat.le_zero.mp (Nat.le_of_succ_le_succ hlength))
    have hheld : world.held = [value] := by
      unfold World.held
      rw [hsender, hrest]
      rfl
    exact {
      balanced := hwoke.balanced.cons (by
        change world.held ++ [] = [value] ++ (world.state.value.toList ++ world.receiver.hand ++ [])
        rw [hheld, hrest]
        rfl)
      unused := fun hnow => by cases hnow
      once := hwoke.once_cons rfl
      senderDropped := hdropped
      receiverDropped := h.receiverDropped
      emptied := h.emptied
      kept := fun other hmem => by
        rcases List.mem_cons.mp hmem with heq | hmem
        · cases heq
        · exact (hwoke.kept other hmem).imp_right fun hlater =>
            hlater.imp_left fun hdone => hdone.cons _
      canceled := hwoke.canceled_cons nofun
      truthful := ⟨trivial, hwoke.truthful⟩ }
  · refine (@Coherent.note _ _ _ hwoke (.returned (.ok ())) rfl).move rfl rfl ?_ (fun hnow => ?_) ?_
      rfl rfl
    · rw [hsender]
      rfl
    · cases hnow
    · rw [hsender]
      rfl

/-- A section of a poll and the answer that it gives. -/
lemma Coherent.polled (h : Coherent world) (hreceiver : world.receiver.isDropped = false)
    (hhand : world.receiver.hand = []) (waker : W) :
    Coherent ({ world with state := world.state.take.2 }.polled waker world.state.take.1) := by
  have hlive : world.state.receiverDropped = false := h.receiverDropped.trans hreceiver
  -- Whatever has been stored is what the section finds, or was returned before.
  have htruth : ∀ value, .sent value (.ok ()) ∈ world.log →
      world.state.take.1 = .ready (.ok value) ∨ Delivered world.log value := by
    intro value hmem
    rcases h.kept value hmem with hvalue | hdone | hgone
    · left
      unfold State.take
      rw [hvalue]
    · exact .inr hdone
    · cases hlive.symm.trans hgone
  have hvalue : world.state.take.2.value = none := by
    unfold State.take
    rcases hvalue : world.state.value with _ | value
    · exact hvalue
    · rfl
  have hsender : world.state.take.2.senderDropped = world.state.senderDropped := by
    unfold State.take
    split <;> rfl
  have hdropped : world.state.take.2.receiverDropped = world.state.receiverDropped := by
    unfold State.take
    split <;> rfl
  exact {
    balanced := h.balanced.cons (by
      unfold World.held World.polled
      dsimp only
      rw [hvalue, hhand]
      unfold State.take
      rcases world.state.value with _ | value
      · dsimp only
        split_ifs <;> exact List.append_nil _
      · exact List.append_nil _)
    unused := fun hnow => (total_cons_of_nil rfl).trans (h.unused hnow)
    once := h.once_cons rfl
    senderDropped := hsender.trans h.senderDropped
    receiverDropped := hdropped.trans hlive
    emptied := fun _ => hvalue
    kept := fun value hmem => by
      rcases List.mem_cons.mp hmem with heq | hmem
      · cases heq
      · refine .inr (.inl ?_)
        rcases htruth value hmem with hanswer | hdone
        · exact ⟨waker, hanswer ▸ List.mem_cons_self⟩
        · exact hdone.cons _
    canceled := fun other hmem => by
      refine ⟨hsender.trans ?_, hvalue⟩
      rcases List.mem_cons.mp hmem with heq | hmem
      · injection heq with _ hanswer
        unfold State.take at hanswer
        rcases hstored : world.state.value with _ | value <;> rw [hstored] at hanswer
        · cases hgone : world.state.senderDropped
          · rw [hgone] at hanswer
            cases hanswer
          · rfl
        · cases hanswer
      · exact (h.canceled other hmem).1
    truthful := ⟨htruth, h.truthful⟩ }

/-- The section of the receiver's destructor takes the value that waits. -/
lemma Coherent.dropReceiver (h : Coherent world) (hhand : world.receiver.hand = []) :
    Coherent world.dropReceiver where
  balanced := by
    have hheld : world.dropReceiver.held = world.held := by
      unfold World.held
      rw [hhand, List.append_nil]
      rfl
    rw [hheld]
    exact h.balanced
  unused := h.unused
  once := h.once
  senderDropped := h.senderDropped
  receiverDropped := rfl
  emptied _ := rfl
  kept _ _ := .inr (.inr rfl)
  canceled waker hmem := ⟨(h.canceled waker hmem).1, rfl⟩
  truthful := h.truthful

/-- The destructor drops what it took. -/
lemma Coherent.discard (h : Coherent world) {value : Option T}
    (hreceiver : world.receiver = .discarding value) :
    Coherent { world with receiver := .gone, log := .discarded value :: world.log } := by
  have hdropped : world.state.receiverDropped = true := by rw [h.receiverDropped, hreceiver]; rfl
  have hnone := h.emptied hdropped
  exact {
    balanced := h.balanced.cons (by
      unfold World.held
      rw [hreceiver, hnone]
      exact List.append_nil _)
    unused := fun hnow => (total_cons_of_nil rfl).trans (h.unused hnow)
    once := h.once_cons rfl
    senderDropped := h.senderDropped
    receiverDropped := hdropped
    emptied := h.emptied
    kept := fun _ _ => .inr (.inr hdropped)
    canceled := h.canceled_cons nofun
    truthful := ⟨trivial, h.truthful⟩ }

/-- A poll of the cancellation is not about the value. -/
lemma Coherent.cancellationPolled (h : Coherent world) (hsender : world.sender.isUnused = true)
    (waker : W) (answer : Poll Unit) : Coherent (world.cancellationPolled waker answer) := by
  have hnote := @Coherent.note _ _ _ h (.cancellationPolled waker answer) rfl
  refine hnote.move rfl rfl ?_ (fun _ => hsender) ?_ rfl rfl <;>
    rcases hplace : world.sender <;> rw [hplace] at hsender <;> first | rfl | cases hsender

lemma Coherent.poll (h : Coherent world) (hreceiver : world.receiver = .idle) (waker : W) :
    Coherent (world.poll waker) := by
  have hpolled : Coherent ({ world with state := world.state.take.2 }.polled waker
      world.state.take.1) := by
    refine h.polled ?_ ?_ waker <;> rw [hreceiver] <;> rfl
  unfold World.poll
  rcases htake : world.state.take with ⟨result | _, state⟩
  · rw [htake] at hpolled
    exact hpolled
  · have hstate : state = world.state := by
      unfold State.take at htake
      split at htake
      · cases htake
      · exact (congrArg Prod.snd htake).symm
    refine h.move rfl hstate rfl id rfl ?_ ?_ <;> rw [hreceiver] <;> rfl

variable [TaskWaker W]

lemma Coherent.stepSender (h : Coherent world) (hnext : world.stepSender = some world') :
    Coherent world' := by
  unfold World.stepSender at hnext
  rcases hsender : world.sender with _ | waker | waker | answer | answer | _ <;>
    rw [hsender] at hnext <;> cases hnext
  · have hnote := @Coherent.note _ _ _ h (.registered .sender waker) rfl
    refine hnote.move rfl rfl ?_ (fun _ => ?_) ?_ rfl rfl <;> rw [hsender] <;> rfl
  · have hunused : world.sender.isUnused = true := by rw [hsender]; rfl
    unfold World.recheckCancellation
    split_ifs
    · exact h.cancellationPolled hunused waker _
    · exact h.cancellationPolled hunused waker _
  · refine h.dropSender ?_ rfl rfl
    rw [hsender]
    rcases answer with value | _ <;> rfl
  · exact h.wakeReceiver hsender

lemma Coherent.stepReceiver (h : Coherent world) (hnext : world.stepReceiver = some world') :
    Coherent world' := by
  unfold World.stepReceiver at hnext
  rcases hreceiver : world.receiver with _ | waker | waker | value | value | _ <;>
    rw [hreceiver] at hnext <;> cases hnext
  · have hnote := @Coherent.note _ _ _ h (.registered .receiver waker) rfl
    refine hnote.move rfl rfl rfl id rfl ?_ ?_ <;> rw [hreceiver] <;> rfl
  · refine h.polled ?_ ?_ waker <;> rw [hreceiver] <;> rfl
  · refine (h.woke .sender world.senderWaker.take.1).move rfl rfl rfl id rfl ?_ ?_ <;>
      rw [hreceiver] <;> rfl
  · exact h.discard hreceiver

lemma Coherent.next (h : Coherent world) {action : Action T W}
    (hnext : world.next action = some world') : Coherent world' := by
  rcases action with value | _ | waker | _ | waker | _ | _ <;> unfold World.next at hnext <;>
    dsimp only at hnext
  case send =>
    split at hnext
    · next hsender => exact Option.some.inj hnext ▸ h.send hsender value
    · cases hnext
  case dropSender =>
    split at hnext
    · next hsender =>
      refine Option.some.inj hnext ▸ h.dropSender ?_ rfl rfl
      rw [hsender]
      rfl
    · cases hnext
  case pollCancellation =>
    split at hnext
    · next hsender =>
      have hunused : world.sender.isUnused = true := by rw [hsender]; rfl
      refine Option.some.inj hnext ▸ ?_
      unfold World.pollCancellation
      split_ifs
      · exact h.cancellationPolled hunused waker _
      · refine h.move rfl rfl ?_ (fun _ => hunused) ?_ rfl rfl <;> rw [hsender] <;> rfl
    · cases hnext
  case sender => exact h.stepSender hnext
  case poll =>
    split at hnext
    · next hreceiver => exact Option.some.inj hnext ▸ h.poll hreceiver waker
    · cases hnext
  case dropReceiver =>
    split at hnext
    · next hreceiver =>
      refine Option.some.inj hnext ▸ h.dropReceiver ?_
      rw [hreceiver]
      rfl
    · cases hnext
  case receiver => exact h.stepReceiver hnext

end Steps

lemma coherent_of_reachable [TaskWaker W] {world : World T W}
    (h : (oneshotSystem T W).Reachable world) : Coherent world := by
  refine h.invariant ?_ fun world action world' hworld hnext => hworld.next hnext
  rintro world rfl
  exact coherent_start

end DoomFishUtils.Oneshot
