import DoomFishUtils.Library.Ledger
import DoomFishUtils.Stream.Sections

/-!
# Conservation of items

Every item that a push accepts is removed once, in order, or still buffered, and each removal
is a return to a consumer, a displacement by a push or a clearing.
-/

namespace DoomFishUtils.Stream

set_option autoImplicit false

open DoomFishUtils.Library

variable {φ ι T W : Type}

/-- The ways in which an item leaves the buffer. -/
inductive Removal where
  | returned
  | displaced
  | discarded
  deriving DecidableEq

namespace Event

def accepted : Event φ T W → List T
  | .pushed item _ => [item]
  | .unblocked _ item => [item]
  | _ => []

def removals : Event φ T W → List (Removal × T)
  | .polled _ _ (.ready (some item)) => [(.returned, item)]
  | .tried (some item) => [(.returned, item)]
  | .pushed _ (some item) => [(.displaced, item)]
  | .cleared items => items.map fun item => (.discarded, item)
  | _ => []

def removed (event : Event φ T W) : List T :=
  event.removals.map Prod.snd

/-- The items that `push_or_block` accepts. -/
def unblockedItems : Event φ T W → List T
  | .unblocked _ item => [item]
  | _ => []

/-- The items that a consumer call returns. -/
def returnedItems : Event φ T W → List T
  | .polled _ _ (.ready (some item)) => [item]
  | .tried (some item) => [item]
  | _ => []

/-- The call of `push_or_block` that returns, and its item. -/
def settles : Event φ T W → Option (ℕ × T)
  | .unblocked call item => some (call, item)
  | .refused call item => some (call, item)
  | _ => none

/-- A push that may displace, or a clearing. -/
def lossy : Event φ T W → Bool
  | .pushed _ _ => true
  | .cleared _ => true
  | _ => false

end Event

section Settled

/-- The calls of `push_or_block` that have returned, each with its own item and one answer. -/
structure Settled (producers : List (Producer ι T)) (log : List (Event φ T W)) : Prop where
  returned : ∀ event ∈ log, ∀ call item, event.settles = some (call, item) →
    ∃ producer, producers[call]? = some producer ∧ producer.item = item ∧
      producer.progress = .finished
  apart : ∀ call item item', .refused call item ∈ log → .unblocked call item' ∉ log

variable {producers producers' : List (Producer ι T)} {log : List (Event φ T W)}
  {event : Event φ T W} {call : ℕ} {item : T}

lemma settled_nil : Settled (producers : List (Producer ι T)) ([] : List (Event φ T W)) where
  returned _ hmem := absurd hmem List.not_mem_nil
  apart _ _ _ hmem := absurd hmem List.not_mem_nil

lemma Settled.cons (h : Settled producers log) (hevent : event.settles = none) :
    Settled producers (event :: log) where
  returned other hmem call item hsettles := by
    rcases List.mem_cons.mp hmem with rfl | hmem
    · cases hevent.symm.trans hsettles
    · exact h.returned other hmem call item hsettles
  apart call item item' hrefused hunblocked := by
    rcases List.mem_cons.mp hrefused with rfl | hrefused
    · cases hevent
    rcases List.mem_cons.mp hunblocked with rfl | hunblocked
    · cases hevent
    exact h.apart call item item' hrefused hunblocked

/-- Calls that have returned are not touched. -/
lemma Settled.keep (h : Settled producers log)
    (hkeep : ∀ (call : ℕ) (producer : Producer ι T), producers[call]? = some producer →
      producer.progress = .finished → producers'[call]? = some producer) :
    Settled producers' log where
  returned event hmem call item hsettles := by
    rcases h.returned event hmem call item hsettles with ⟨producer, hcall, hitem, hfinished⟩
    exact ⟨producer, hkeep call producer hcall hfinished, hitem, hfinished⟩
  apart := h.apart

lemma getElem?_modify_of_finished {producer : Producer ι T} (progress : Progress)
    (hcall : ∀ producer, producers[call]? = some producer → producer.progress ≠ .finished)
    {other : ℕ} (hother : producers[other]? = some producer)
    (hfinished : producer.progress = .finished) :
    (producers.modify call fun producer => { producer with progress := progress })[other]? =
      some producer := by
  rw [List.getElem?_modify]
  split_ifs with heq
  · subst heq
    exact absurd hfinished (hcall producer hother)
  · rw [hother]
    rfl

lemma Settled.finish (h : Settled producers log) {producer : Producer ι T}
    (hcall : producers[call]? = some producer) (hitem : producer.item = item)
    (hprogress : producer.progress ≠ .finished) (hevent : event.settles = some (call, item)) :
    Settled (producers.modify call fun producer => { producer with progress := .finished })
      (event :: log) := by
  have hunsettled : ∀ other ∈ log, ∀ item', other.settles ≠ some (call, item') := by
    intro other hmem item' hsettles
    rcases h.returned other hmem call item' hsettles with ⟨producer', hcall', -, hfinished⟩
    rw [hcall, Option.some.injEq] at hcall'
    exact hprogress (hcall' ▸ hfinished)
  have hunfinished : ∀ producer' : Producer ι T, producers[call]? = some producer' →
      producer'.progress ≠ .finished := by
    intro producer' hcall'
    rw [hcall, Option.some.injEq] at hcall'
    exact hcall' ▸ hprogress
  have hkept := h.keep fun _ _ hother hfinished =>
    getElem?_modify_of_finished .finished hunfinished hother hfinished
  constructor
  · intro other hmem call' item' hsettles
    rcases List.mem_cons.mp hmem with rfl | hmem
    · rw [hevent, Option.some.injEq, Prod.mk.injEq] at hsettles
      rcases hsettles with ⟨rfl, rfl⟩
      refine ⟨{ producer with progress := .finished }, ?_, hitem, rfl⟩
      simp [hcall]
    · exact hkept.returned other hmem call' item' hsettles
  · intro call' item₁ item₂ hrefused hunblocked
    rcases List.mem_cons.mp hrefused with heq | hold <;>
      rcases List.mem_cons.mp hunblocked with heq' | hold'
    · cases heq.trans heq'.symm
    · rw [← heq, Event.settles, Option.some.injEq, Prod.mk.injEq] at hevent
      exact hunsettled _ hold' item₂ (hevent.1 ▸ rfl)
    · rw [← heq', Event.settles, Option.some.injEq, Prod.mk.injEq] at hevent
      exact hunsettled _ hold item₁ (hevent.1 ▸ rfl)
    · exact h.apart call' item₁ item₂ hold hold'

end Settled

section Steps

structure Conserved (capacity : ℕ) (world : World φ ι T W) : Prop where
  balanced : Balanced Event.accepted Event.removed world.log world.state.buffer
  length_le : world.state.buffer.length ≤ capacity
  settled : Settled world.producers world.log

variable {capacity : ℕ} {world world' : World φ ι T W} {call : ℕ} {item : T}

lemma conserved_start (sender : ι) :
    Conserved capacity (World.start sender : World φ ι T W) where
  balanced := balanced_nil
  length_le := Nat.zero_le _
  settled := settled_nil

/-- Events that balance and settle no call. -/
lemma Conserved.record (h : Conserved capacity world) (events : List (Event φ T W))
    (hlog : world'.log = events ++ world.log) (hproducers : world'.producers = world.producers)
    (hevents : world.state.buffer ++ total Event.accepted events =
      total Event.removed events ++ world'.state.buffer)
    (hlength : world'.state.buffer.length ≤ capacity)
    (hsettles : ∀ event ∈ events, event.settles = none) : Conserved capacity world' where
  balanced := hlog ▸ h.balanced.append events hevents
  length_le := hlength
  settled := by
    rw [hlog, hproducers]
    clear hlog hevents
    induction events with
    | nil => exact h.settled
    | cons event events ih =>
      refine (ih fun other hmem => hsettles other (List.mem_cons_of_mem _ hmem)).cons ?_
      exact hsettles event List.mem_cons_self

/-- A step that only moves calls of `push_or_block` which have not returned. -/
lemma Conserved.moved (h : Conserved capacity world) (hlog : world'.log = world.log)
    (hbuffer : world'.state.buffer = world.state.buffer)
    (hkeep : ∀ (call : ℕ) (producer : Producer ι T), world.producers[call]? = some producer →
      producer.progress = .finished → world'.producers[call]? = some producer) :
    Conserved capacity world' where
  balanced := by
    rw [hlog, hbuffer]
    exact h.balanced
  length_le := hbuffer ▸ h.length_le
  settled := hlog ▸ h.settled.keep hkeep

lemma Conserved.poll [DecidableEq φ] [TaskWaker W] (h : Conserved capacity world)
    (consumer : Consumer φ) (waker : W) : Conserved capacity (world.poll consumer waker) := by
  have hlength := h.length_le
  rcases world.poll_cases consumer waker with ⟨item, buffer, hbuffer, heq⟩ | ⟨hbuffer, -, heq⟩ |
    ⟨hbuffer, -, id, next, ids, -, heq⟩ <;> rw [heq]
  · refine h.record [.polled consumer waker (.ready (some item))] rfl (World.setHeld_producers _ _) ?_ ?_
      (by simp [Event.settles])
    · rw [hbuffer]
      simp [total, Event.accepted, Event.removed, Event.removals]
    · rw [hbuffer, List.length_cons] at hlength
      exact (Nat.le_succ _).trans hlength
  · exact h.record [.polled consumer waker (.ready none)] rfl (World.setHeld_producers _ _)
      (List.append_nil _) hlength (by simp [Event.settles])
  · exact h.record [.polled consumer waker .pending] rfl (World.setHeld_producers _ _)
      (List.append_nil _) hlength (by simp [Event.settles])

lemma Conserved.dropNext [DecidableEq φ] (h : Conserved capacity world) (future : φ) :
    Conserved capacity (world.dropNext future) := by
  unfold World.dropNext
  rw [State.removeWaiter_snd]
  exact h.record [.dropped (.next future)] rfl rfl (List.append_nil _) h.length_le
    (by simp [Event.settles])

lemma Conserved.tryNext (h : Conserved capacity world) : Conserved capacity world.tryNext := by
  refine h.record [.tried world.state.buffer.head?] rfl rfl ?_ ?_ (by simp [Event.settles])
  · rcases hbuffer : world.state.buffer with _ | ⟨item, buffer⟩ <;>
      simp [hbuffer, World.tryNext, State.tryNext, total, Event.accepted, Event.removed,
        Event.removals]
  · exact (List.tail_sublist _).length_le.trans h.length_le

lemma Conserved.clearBuffer (h : Conserved capacity world) :
    Conserved capacity world.clearBuffer := by
  refine h.record [.cleared world.state.buffer] rfl rfl ?_ (Nat.zero_le _)
    (by simp [Event.settles])
  simp [World.clearBuffer, State.clearBuffer, total, Event.accepted, Event.removed,
    Event.removals, Function.comp_def]

lemma Conserved.dropStream (h : Conserved capacity world) :
    Conserved capacity world.dropStream :=
  h.record [.dropped .stream] rfl rfl (List.append_nil _) h.length_le (by simp [Event.settles])

/-- What a push does: it appends to a buffer with a free place, and else to the buffer without
its oldest item. -/
lemma push_eq (hcapacity : 0 < capacity) (h : Conserved capacity world) (item : T) :
    (world.state.buffer.length < capacity ∧ world.push capacity item = { world with
      state := { world.state with buffer := world.state.buffer ++ [item], waiters := [] }
      wakes := world.wakes ++ [world.state.waiters]
      log := .took world.wakes.length world.state.waiters :: .pushed item none :: world.log }) ∨
    (world.state.buffer.length = capacity ∧ ∃ oldest rest,
      world.state.buffer = oldest :: rest ∧ world.push capacity item = { world with
        state := { world.state with buffer := rest ++ [item], waiters := [] }
        wakes := world.wakes ++ [world.state.waiters]
        log := .took world.wakes.length world.state.waiters :: .pushed item (some oldest) ::
          world.log }) := by
  unfold World.push
  rcases world.state.push_cases capacity item with ⟨hroom, hpush⟩ | ⟨hfull, hpush⟩
  · exact .inl ⟨hroom, by rw [hpush]; rfl⟩
  · refine .inr ⟨le_antisymm h.length_le hfull, ?_⟩
    rcases hbuffer : world.state.buffer with _ | ⟨oldest, rest⟩
    · rw [hbuffer, List.length_nil] at hfull
      omega
    · refine ⟨oldest, rest, rfl, ?_⟩
      rw [hpush, hbuffer]
      rfl

lemma Conserved.push (hcapacity : 0 < capacity) (h : Conserved capacity world) (item : T) :
    Conserved capacity (world.push capacity item) := by
  rcases push_eq hcapacity h item with ⟨hroom, heq⟩ | ⟨hfull, oldest, rest, hbuffer, heq⟩ <;>
    rw [heq]
  · refine h.record [.took _ _, .pushed item none] rfl rfl ?_ ?_ (by simp [Event.settles])
    · simp [total, Event.accepted, Event.removed, Event.removals]
    · rw [List.length_append, List.length_singleton]
      exact hroom
  · refine h.record [.took _ _, .pushed item (some oldest)] rfl rfl ?_ ?_ (by simp [Event.settles])
    · simp [hbuffer, total, Event.accepted, Event.removed, Event.removals]
    · rw [hbuffer, List.length_cons] at hfull
      rw [List.length_append, List.length_singleton, hfull]

lemma Conserved.enter (h : Conserved capacity world) {producer : Producer ι T}
    (hcall : world.producers[call]? = some producer) (hprogress : producer.progress ≠ .finished) :
    Conserved capacity (world.enter capacity call producer.item) := by
  have hkeep : ∀ (progress : Progress) (other : ℕ) (producer' : Producer ι T),
      world.producers[other]? = some producer' → producer'.progress = .finished →
      (world.setProgress call progress).producers[other]? = some producer' := by
    intro progress other producer' hother hfinished
    refine getElem?_modify_of_finished progress (fun producer'' hcall' => ?_) hother hfinished
    rw [hcall, Option.some.injEq] at hcall'
    exact hcall' ▸ hprogress
  rcases world.enter_cases capacity call producer.item with ⟨-, -, heq⟩ | ⟨-, heq⟩ |
    ⟨-, hroom, heq⟩ <;> rw [heq]
  · exact h.moved rfl rfl (hkeep .waiting)
  · exact ⟨h.balanced.cons_of_nil rfl rfl, h.length_le,
      h.settled.finish hcall rfl hprogress rfl⟩
  · refine ⟨h.balanced.append [.took _ _, .unblocked call producer.item] ?_, ?_,
      (h.settled.finish hcall rfl hprogress rfl).cons rfl⟩
    · simp [total, Event.accepted, Event.removed, Event.removals]
    · rw [List.length_append, List.length_singleton]
      exact hroom

lemma Conserved.pushOrBlock (h : Conserved capacity world) (sender : ι) (item : T) :
    Conserved capacity (world.pushOrBlock capacity sender item) := by
  unfold World.pushOrBlock
  have hcalled : Conserved capacity
      { world with producers := world.producers ++ [⟨sender, item, .awake⟩] } := by
    refine h.moved rfl rfl fun call producer hcall _ => ?_
    exact List.getElem?_append_left (List.getElem?_eq_some_iff.mp hcall).1 ▸ hcall
  exact hcalled.enter List.getElem?_concat_length (by simp)

/-- A call in the condition variable is woken, with a notification or without. -/
lemma Conserved.setProgress (h : Conserved capacity world) {call : ℕ}
    (hcall : world.progressOf call ≠ .finished) (progress : Progress) :
    Conserved capacity (world.setProgress call progress) := by
  refine h.moved rfl rfl fun other producer hother hfinished => ?_
  refine getElem?_modify_of_finished progress (fun producer' hcall' => ?_) hother hfinished
  rwa [World.progressOf, hcall'] at hcall

lemma Conserved.notifyAll (h : Conserved capacity world) :
    Conserved capacity world.notifyAll := by
  refine h.moved rfl rfl fun call producer hcall hfinished => ?_
  simp [World.notifyAll, hcall, hfinished]

variable [DecidableEq φ] [DecidableEq ι] [TaskWaker W]

lemma Conserved.step (hcapacity : 0 < capacity) (h : Conserved capacity world)
    (hstep : World.Step capacity world world') : Conserved capacity world' := by
  cases hstep with
  | poll consumer waker => exact h.poll consumer waker
  | dropNext future => exact h.dropNext future
  | tryNext => exact h.tryNext
  | clearBuffer => exact h.clearBuffer
  | dropStream => exact h.dropStream
  | push sender item => exact h.push hcapacity item
  | pushOrBlock sender item => exact h.pushOrBlock sender item
  | awaken call hwaiting =>
    have hunfinished : world.progressOf call ≠ .finished := by simp [hwaiting]
    exact h.setProgress hunfinished .awake
  | recheck call producer hcall hprogress =>
    refine h.enter hcall fun hfinished => ?_
    simp [hfinished] at hprogress
  | notifyOne call hdue hwaiting =>
    have hunfinished : world.progressOf call ≠ .finished := by simp [hwaiting]
    exact (h.setProgress hunfinished .notified).moved rfl rfl fun _ _ hcall _ => hcall
  | notifyNone => exact h.moved rfl rfl fun _ _ hcall _ => hcall
  | notifyAll => exact h.notifyAll
  | cloneSender => exact h.moved rfl rfl fun _ _ hcall _ => hcall
  | close =>
    exact h.record [.took _ _] rfl rfl (List.append_nil _) h.length_le (by simp [Event.settles])
  | dropSender => exact h.moved rfl rfl fun _ _ hcall _ => hcall
  | wake waking entry =>
    exact h.record [.woke waking entry] rfl rfl (List.append_nil _) h.length_le
      (by simp [Event.settles])

theorem conserved_of_reachable (hcapacity : 0 < capacity) {sender : ι}
    (h : (streamSystem φ ι T W capacity sender).Reachable world) : Conserved capacity world :=
  World.invariant_of_step (conserved_start sender) (fun _ _ hworld => hworld.step hcapacity) h

end Steps

/-- What conservation of items means in one world. -/
structure ConservesItems [DecidableEq φ] [DecidableEq ι] [TaskWaker W] (capacity : ℕ)
    (world : World φ ι T W) : Prop where
  /-- The accepted items are the removed ones, each with its kind of removal, and the buffer. -/
  conserved : total Event.accepted world.log =
    (total Event.removals world.log).map Prod.snd ++ world.state.buffer
  bounded : world.state.buffer.length ≤ capacity
  /-- A push displaces the oldest item, and only from a buffer that holds exactly `capacity`. -/
  displaces : ∀ sender item world', world.next capacity (.push sender item) = some world' →
    ∃ overwritten, world'.log =
      .took world.wakes.length world.state.waiters :: .pushed item overwritten :: world.log ∧
      ((world.state.buffer.length < capacity ∧ overwritten = none ∧
        world'.state.buffer = world.state.buffer ++ [item]) ∨
      (world.state.buffer.length = capacity ∧ ∃ oldest rest, overwritten = some oldest ∧
        world.state.buffer = oldest :: rest ∧ world'.state.buffer = rest ++ [item]))
  /-- A refused item is the one passed in; its call adds nothing to the buffer. -/
  refuses : ∀ call item, .refused call item ∈ world.log →
    (∃ producer, world.producers[call]? = some producer ∧ producer.item = item) ∧
    (∀ item', .unblocked call item' ∉ world.log) ∧
    (item ∈ world.state.buffer → (∃ overwritten, .pushed item overwritten ∈ world.log) ∨
      ∃ other, other ≠ call ∧ .unblocked other item ∈ world.log)
  /-- Without a push and a clearing, what `push_or_block` accepts is returned, in order, or still
  buffered. -/
  lossless : (∀ event ∈ world.log, event.lossy = false) →
    total Event.unblockedItems world.log =
      total Event.returnedItems world.log ++ world.state.buffer

/-- Items are conserved in every reachable world of a stream of any capacity. -/
theorem stream_conserves_items [DecidableEq φ] [DecidableEq ι] [TaskWaker W] {capacity : ℕ}
    (hcapacity : 0 < capacity) {creator : ι} {world : World φ ι T W}
    (h : (streamSystem φ ι T W capacity creator).Reachable world) :
    ConservesItems capacity world := by
  have hworld := conserved_of_reachable hcapacity h
  have hbalanced : total Event.accepted world.log =
      total Event.removed world.log ++ world.state.buffer := hworld.balanced
  constructor
  case conserved =>
    rw [map_total]
    exact hbalanced
  case bounded => exact hworld.length_le
  case displaces =>
    intro sender item world' hnext
    rcases Option.ite_none_right_eq_some.mp hnext with ⟨-, hsome⟩
    rw [← Option.some.inj hsome]
    rcases push_eq hcapacity hworld item with ⟨hroom, heq⟩ | ⟨hfull, oldest, rest, hbuffer, heq⟩ <;>
      rw [heq]
    · exact ⟨none, rfl, .inl ⟨hroom, rfl, rfl⟩⟩
    · exact ⟨some oldest, rfl, .inr ⟨hfull, oldest, rest, rfl, hbuffer, rfl⟩⟩
  case refuses =>
    intro call item hrefused
    rcases hworld.settled.returned _ hrefused call item rfl with ⟨producer, hcall, hitem, -⟩
    have hapart := fun item' => hworld.settled.apart call item item' hrefused
    refine ⟨⟨producer, hcall, hitem⟩, hapart, fun hbuffered => ?_⟩
    have haccepted : item ∈ total Event.accepted world.log := by
      rw [hbalanced]
      exact List.mem_append_right _ hbuffered
    rcases mem_total.mp haccepted with ⟨event, hevent, hmem⟩
    rcases event with _ | _ | _ | _ | ⟨pushed, overwritten⟩ | ⟨other, unblocked⟩ | _ | _ | _ <;>
      simp only [Event.accepted, List.mem_singleton, List.not_mem_nil] at hmem
    · exact .inl ⟨overwritten, hmem ▸ hevent⟩
    · refine .inr ⟨other, fun hsame => ?_, hmem ▸ hevent⟩
      exact hapart unblocked (hsame ▸ hevent)
  case lossless =>
    intro hlossless
    have hsent : total Event.unblockedItems world.log = total Event.accepted world.log := by
      refine total_congr fun event hmem => ?_
      rcases event <;> first | rfl | cases hlossless _ hmem
    have hreturned : total Event.returnedItems world.log = total Event.removed world.log := by
      refine total_congr fun event hmem => ?_
      have hkept := hlossless event hmem
      rcases event with ⟨_, _, (_ | _) | _⟩ | _ | (_ | _) | _ | _ | _ | _ | _ | _ <;>
        first | rfl | cases hkept
    rw [hsent, hreturned, hbalanced]

/-- A full buffer of one item: a push displaces it, and `push_or_block` waits until a consumer
has made room. -/
theorem stream_conserves_items_one_place :
    let world := (System.replay (World.next 1) (World.start 0 : World ℕ ℕ ℕ RawWaker)
      [.push 0 5, .push 0 6, .pushOrBlock 0 7, .tryNext, .notifyOne (some 0), .recheck 0,
        .poll (.next 0) ⟨1, 1⟩]).get rfl
    ConservesItems 1 world :=
  stream_conserves_items (by decide) (System.reachable_replay rfl)

end DoomFishUtils.Stream
