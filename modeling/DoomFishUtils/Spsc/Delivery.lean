import DoomFishUtils.Library.Ledger
import DoomFishUtils.Registration
import DoomFishUtils.Spsc.Consumer

/-!
# Wakeups and closing

A step of the two ends over the items that the ring queues, and two invariants of such steps: a
pending `poll_pop` that has not been woken owes its wake to the producer or has nothing to wait
out, and the end is reported only when nothing is left to deliver.
-/

namespace DoomFishUtils.SpscRing

set_option autoImplicit false

open Library

variable {T W : Type}

namespace Event

/-- The items that an event puts into the ring. -/
def accepted : Event T W → List T
  | .pushed item (.ok _) => [item]
  | .overwrote item _ => [item]
  | _ => []

/-- The items that an event returns from a pop or displaces. -/
def removed : Event T W → List T
  | .overwrote _ (some displaced) => [displaced]
  | .popped (some item) => [item]
  | .polled _ (.ready (some item)) => [item]
  | _ => []

/-- `poll_pop` reports that nothing will follow. -/
def ends : Event T W → Bool
  | .polled _ (.ready none) => true
  | _ => false

/-- A pop or a poll that returns an item. -/
def returnsItem : Event T W → Bool
  | .popped (some _) => true
  | .polled _ (.ready (some _)) => true
  | _ => false

/-- The return of an operation of the consumer. -/
def ofConsumer : Event T W → Bool
  | .popped _ => true
  | .polled _ _ => true
  | _ => false

/-- The return of an operation that changes the ring and has to wake. -/
def accepts : Event T W → Bool
  | .pushed _ (.ok _) => true
  | .overwrote _ _ => true
  | _ => false

def note : Event T W → Option (WakerNote W)
  | .registered waker => some (.registered waker)
  | .woke waker => some (.woke waker)
  | _ => none

end Event

section Steps

/-- The producer still has to call `wake`. -/
def Producer.due : Producer → Bool
  | .waking => true
  | .dropping => true
  | _ => false

/-- The producer has been dropped. -/
def Producer.dropped : Producer → Bool
  | .dropping => true
  | .gone => true
  | _ => false

/-- The consumer is at the last pop of `poll_pop`. -/
def Consumer.last : Consumer W → Bool
  | .firstLast _ => true
  | .secondLast _ => true
  | _ => false

/-- What a step does to the items in the ring. -/
inductive Step [TaskWaker W] (world : World T W) (items : List T) : World T W → List T → Prop
  | accept {queue : Spsc.Ring T} {items' : List T} {event : Event T W}
      (hlive : world.producer = .live) (hevent : event.accepts = true)
      (hitems : items ++ event.accepted = event.removed ++ items') :
      Step world items
        { world with queue := queue, producer := .waking, log := event :: world.log } items'
  | refuse {queue : Spsc.Ring T} (item : T) :
      Step world items
        { world with queue := queue, log := .pushed item (.error item) :: world.log } items
  | close (hlive : world.producer = .live) : Step world items world.dropProducer items
  | wake {producer : Producer} (hproducer : world.producer = .dropping → producer = .gone)
      (hgone : world.producer ≠ .gone) : Step world items (world.wake producer) items
  | pop {queue : Spsc.Ring T} (hidle : world.consumer = .idle) :
      Step world items
        { world with queue := queue, log := .popped items.head? :: world.log } items.tail
  | poll {queue : Spsc.Ring T} {waker : W} {item : T} {items' : List T}
      (hitems : items = item :: items') :
      Step world items
        ({ world with queue := queue }.polled waker (.ready (some item))) items'
  | pollLast {queue : Spsc.Ring T} {waker : W} (hlast : world.consumer.last = true) :
      Step world items
        ({ world with queue := queue }.polled waker (.ready items.head?)) items.tail
  | look {consumer : Consumer W} (hlook : ∀ waker, consumer ≠ .secondPop waker)
      (hidle : consumer ≠ .idle)
      (hempty : ∀ waker, consumer = .secondClosed waker →
        items = [] ∧ world.consumer = .secondPop waker)
      (hlast : consumer.last = true → world.producerClosed = true) {queue : Spsc.Ring T} :
      Step world items { world with queue := queue, consumer := consumer } items
  | register {waker : W} (hconsumer : world.consumer = .registering waker) :
      Step world items
        { world with
          waker := world.waker.register waker
          consumer := .secondPop waker
          log := .registered waker :: world.log } items
  | pending {waker : W} (hconsumer : world.consumer = .secondClosed waker)
      (hopen : world.producerClosed = false) :
      Step world items (world.polled waker .pending) items

variable {capacity v : ℕ} {world world' : World T W} {items : List T}

lemma takeItem_eq (hcap : 0 < capacity) (h : world.queue.Holds capacity v items) :
    ∃ v' queue, world.takeItem = some (items.head?, { world with queue := queue }) ∧
      queue.Holds capacity v' items.tail := by
  cases items with
  | nil =>
    refine ⟨v, world.queue, ?_, h⟩
    unfold World.takeItem
    rw [h.pop_nil hcap rfl]
    rfl
  | cons item rest =>
    rcases h.pop_cons hcap rfl with ⟨queue, hpop, hqueue⟩
    refine ⟨v + 1, queue, ?_, hqueue⟩
    unfold World.takeItem
    rw [hpop]
    rfl

/-- A push appends, and without a free slot it refuses. -/
lemma push_cases [TaskWaker W] (hcap : 0 < capacity) (h : world.queue.Holds capacity v items)
    (hlive : world.producer = .live) (item : T) :
    ∃ world' v' items', world.push item = some world' ∧ Step world items world' items' ∧
      world'.queue.Holds capacity v' items' := by
  unfold World.push
  rcases h.length_le.lt_or_eq with hlt | hfull
  · rcases h.push_of_lt hcap hlt item false with ⟨queue, hpush, hqueue⟩
    rw [hpush]
    exact ⟨_, v, items ++ [item], rfl, .accept hlive rfl rfl, hqueue⟩
  · rw [h.push_full hcap hfull]
    exact ⟨_, v, items, rfl, .refuse item, h⟩

/-- An overwriting push appends, and without a free slot it displaces the oldest item. -/
lemma pushOverwrite_cases [TaskWaker W] (hcap : 0 < capacity)
    (h : world.queue.Holds capacity v items) (hlive : world.producer = .live) (item : T) :
    ∃ world' v' items', world.pushOverwrite item = some world' ∧ Step world items world' items' ∧
      world'.queue.Holds capacity v' items' := by
  unfold World.pushOverwrite
  rcases h.length_le.lt_or_eq with hlt | hfull
  · rcases h.push_of_lt hcap hlt item true with ⟨queue, hpush, hqueue⟩
    rw [hpush]
    exact ⟨_, v, items ++ [item], rfl, .accept hlive rfl rfl, hqueue⟩
  · rcases items with _ | ⟨oldest, rest⟩
    · exact absurd hfull hcap.ne
    · rcases h.push_overwrite hcap rfl hfull item with ⟨queue, hpush, hqueue⟩
      rw [hpush]
      exact ⟨_, v + 1, rest ++ [item], rfl, .accept hlive rfl rfl, hqueue⟩

/-- A pop of `poll_pop` returns the oldest item, and goes on without one. -/
lemma popOr_cases [TaskWaker W] (hcap : 0 < capacity) (h : world.queue.Holds capacity v items)
    {waker : W} {consumer : Consumer W}
    (hlook : ∀ queue, items = [] →
      Step world items { world with queue := queue, consumer := consumer } items) :
    ∃ world' v' items', world.popOr waker consumer = some world' ∧
      Step world items world' items' ∧ world'.queue.Holds capacity v' items' := by
  rcases takeItem_eq hcap h with ⟨v', queue, htake, hqueue⟩
  unfold World.popOr
  rw [htake]
  cases items with
  | nil => exact ⟨_, v', [], rfl, hlook queue rfl, hqueue⟩
  | cons item items => exact ⟨_, v', items, rfl, .poll rfl, hqueue⟩

lemma popLast_cases [TaskWaker W] (hcap : 0 < capacity) (h : world.queue.Holds capacity v items)
    (hlast : world.consumer.last = true) (waker : W) :
    ∃ world' v' items', world.popLast waker = some world' ∧ Step world items world' items' ∧
      world'.queue.Holds capacity v' items' := by
  rcases takeItem_eq hcap h with ⟨v', queue, htake, hqueue⟩
  unfold World.popLast
  rw [htake]
  exact ⟨_, v', items.tail, rfl, .pollLast hlast, hqueue⟩

/-- `poll_pop` goes on from each of its points. -/
lemma advance_cases [TaskWaker W] (hcap : 0 < capacity) (h : world.queue.Holds capacity v items)
    (hbusy : world.consumer ≠ .idle) :
    ∃ world' v' items', world.advance = some world' ∧ Step world items world' items' ∧
      world'.queue.Holds capacity v' items' := by
  unfold World.advance
  rcases hconsumer : world.consumer with _ | waker | waker | waker | waker | waker | waker
  · exact absurd hconsumer hbusy
  · refine ⟨_, v, items, rfl, ?_, h⟩
    apply Step.look <;> cases hclosed : world.producerClosed <;> simp [Consumer.last]
  · exact popLast_cases hcap h (by rw [hconsumer]; rfl) waker
  · exact ⟨_, v, items, rfl, .register hconsumer, h⟩
  · refine popOr_cases hcap h fun queue hempty => ?_
    apply Step.look
    · simp
    · simp
    · intro waker' heq
      cases heq
      exact ⟨hempty, hconsumer⟩
    · simp [Consumer.last]
  · dsimp only
    by_cases hclosed : world.producerClosed = true
    · rw [if_pos hclosed]
      refine ⟨_, v, items, rfl, ?_, h⟩
      apply Step.look <;> simp [hclosed]
    · rw [if_neg hclosed]
      exact ⟨_, v, items, rfl, .pending hconsumer (Bool.eq_false_iff.mpr hclosed), h⟩
  · exact popLast_cases hcap h (by rw [hconsumer]; rfl) waker

/-- Every possible action is a step over the queued items. -/
lemma next_cases [TaskWaker W] (hcap : 0 < capacity) (h : world.queue.Holds capacity v items)
    {action : Action T W} (hnext : world.next action = some world') :
    ∃ v' items', Step world items world' items' ∧ world'.queue.Holds capacity v' items' := by
  have hsome : ∀ {result : Option (World T W)}, (∃ world'' v' items', result = some world'' ∧
      Step world items world'' items' ∧ world''.queue.Holds capacity v' items') →
      result = some world' →
      ∃ v' items', Step world items world' items' ∧ world'.queue.Holds capacity v' items' := by
    rintro result ⟨world'', v', items', rfl, hstep⟩ heq
    cases heq
    exact ⟨v', items', hstep⟩
  rcases action with item | item | _ | _ | _ | waker | _ <;> unfold World.next at hnext <;>
    dsimp only at hnext
  case push =>
    rcases Option.ite_none_right_eq_some.mp hnext with ⟨hlive, hpush⟩
    exact hsome (push_cases hcap h hlive item) hpush
  case pushOverwrite =>
    rcases Option.ite_none_right_eq_some.mp hnext with ⟨hlive, hpush⟩
    exact hsome (pushOverwrite_cases hcap h hlive item) hpush
  case dropProducer =>
    rcases Option.ite_none_right_eq_some.mp hnext with ⟨hlive, hclose⟩
    exact hsome ⟨_, v, items, rfl, .close hlive, h⟩ hclose
  case wake =>
    rcases hproducer : world.producer with _ | _ | _ | _ <;> rw [hproducer] at hnext
    · cases hnext
    · refine hsome ⟨_, v, items, rfl, .wake ?_ ?_, h⟩ hnext <;> simp [hproducer]
    · refine hsome ⟨_, v, items, rfl, .wake ?_ ?_, h⟩ hnext <;> simp [hproducer]
    · cases hnext
  case pop =>
    rcases hconsumer : world.consumer <;> rw [hconsumer] at hnext <;> try cases hnext
    rcases takeItem_eq hcap h with ⟨v', queue, htake, hqueue⟩
    dsimp only at hnext
    unfold World.pop at hnext
    rw [htake] at hnext
    exact hsome ⟨_, v', items.tail, rfl, .pop hconsumer, hqueue⟩ hnext
  case poll =>
    rcases hconsumer : world.consumer <;> rw [hconsumer] at hnext <;> try cases hnext
    refine hsome (popOr_cases hcap h fun queue hempty => ?_) hnext
    apply Step.look <;> simp [Consumer.last]
  case advance =>
    refine hsome (advance_cases hcap h fun hidle => ?_) hnext
    unfold World.advance at hnext
    rw [hidle] at hnext
    cases hnext

end Steps

section Wakeups

variable {world world' : World T W} {items items' : List T}

/-- The consumer's latest operation is a `poll_pop` that returned pending. -/
def Pending (world : World T W) (waker : W) : Prop :=
  world.consumer = .idle ∧ Latest Event.ofConsumer world.log (.polled waker .pending)

/-- The consumer has registered the waker in its latest `poll_pop`, which may still go on. -/
def Expecting (world : World T W) (waker : W) : Prop :=
  world.consumer = .secondPop waker ∨ world.consumer = .secondClosed waker ∨ Pending world waker

/-- What a consumer that has looked in vain is owed until its waker is called: it finds what it
has seen, or the producer is about to call. -/
def Owed (world : World T W) (items : List T) : Prop :=
  match world.consumer with
  | .secondClosed _ => items = [] ∨ world.producer.due = true
  | .idle => items = [] ∧ world.producerClosed = false ∨ world.producer.due = true
  | _ => True

lemma owed_of_due (h : world.producer.due = true) : Owed world items := by
  unfold Owed
  split
  · exact .inr h
  · exact .inr h
  · trivial

lemma not_latest_pending {event : Event T W} (hevent : event.ofConsumer = true)
    {waker : W} (hne : event ≠ .polled waker .pending) (log : List (Event T W)) :
    ¬Latest Event.ofConsumer (event :: log) (.polled waker .pending) := by
  rw [latest_cons_of_pos hevent]
  exact hne

variable [TaskWaker W]

def Watched (world : World T W) (items : List T) : Prop :=
  Guarded Event.note world.waker world.log (Expecting world) fun _ => Owed world items

/-- A step of the producer with an event: the call is owed, or what the consumer has seen stays. -/
lemma Watched.produce (h : Watched world items) {event : Event T W}
    (hlog : world'.log = event :: world.log) (hwaker : world'.waker = world.waker)
    (hconsumer : world'.consumer = world.consumer) (hevent : event.ofConsumer = false)
    (hnote : IsRegistration Event.note event = false)
    (howed : Owed world items → Owed world' items') : Watched world' items' := by
  unfold Watched
  rw [hlog, hwaker]
  refine Guarded.cons h hnote (fun waker hexpecting => ?_) fun _ _ => howed
  unfold Expecting Pending at *
  rw [hlog, latest_cons_of_neg hevent, hconsumer] at hexpecting
  exact hexpecting

lemma Watched.wake (h : Watched world items) (producer : Producer) :
    Watched (world.wake producer) items := by
  refine Guarded.take h (fun _ => rfl) fun waker hexpecting => ?_
  refine hexpecting.imp_right (.imp_right fun hpending => ⟨hpending.1, ?_⟩)
  exact (latest_map_append_of_neg (fun _ => rfl) _).mp hpending.2

/-- An operation of the consumer that returns something else than pending. -/
lemma watched_of_returned {event : Event T W} (hlog : world'.log = event :: world.log)
    (hidle : world'.consumer = .idle) (hevent : event.ofConsumer = true)
    (hne : ∀ waker, event ≠ .polled waker .pending) : Watched world' items' := by
  refine guarded_of_none fun waker => ?_
  rintro (hconsumer | hconsumer | ⟨-, hlatest⟩)
  · cases hidle.symm.trans hconsumer
  · cases hidle.symm.trans hconsumer
  · rw [hlog] at hlatest
    exact not_latest_pending hevent (hne waker) _ hlatest

lemma Watched.step (h : Watched world items) (hstep : Step world items world' items') :
    Watched world' items' := by
  cases hstep with
  | @accept _ _ event _ hevent _ =>
    rcases event with ⟨item, _ | _⟩ | _ | _ | _ | _ | _ | _ <;> try cases hevent
    · exact h.produce rfl rfl rfl rfl rfl fun _ => owed_of_due rfl
    · exact h.produce rfl rfl rfl rfl rfl fun _ => owed_of_due rfl
  | refuse item => exact h.produce rfl rfl rfl rfl rfl id
  | close => exact h.produce rfl rfl rfl rfl rfl fun _ => owed_of_due rfl
  | wake => exact h.wake _
  | pop hidle => exact watched_of_returned rfl hidle rfl fun _ heq => by cases heq
  | poll => exact watched_of_returned rfl rfl rfl fun _ heq => by cases heq
  | pollLast => exact watched_of_returned rfl rfl rfl fun _ heq => by cases heq
  | @look consumer hlook hidle hempty hlast queue =>
    refine Guarded.mono h (fun waker hexpecting => ?_) fun waker hexpecting _ => ?_
    · rcases hexpecting with hconsumer | hconsumer | hpending
      · exact absurd hconsumer (hlook waker)
      · exact .inl (hempty waker hconsumer).2
      · exact absurd hpending.1 hidle
    · rcases hexpecting with hconsumer | hconsumer | hpending
      · exact absurd hconsumer (hlook waker)
      · unfold Owed
        rw [show ({ world with queue := queue, consumer := consumer } : World T W).consumer =
          .secondClosed waker from hconsumer]
        exact .inl (hempty waker hconsumer).1
      · exact absurd hpending.1 hidle
  | @register waker hconsumer =>
    refine guarded_register _ _ (fun other hexpecting => ?_) fun _ _ => trivial
    rcases hexpecting with hsecond | hsecond | hpending
    · cases hsecond
      rfl
    · cases hsecond
    · cases hpending.1
  | @pending waker hconsumer hopen =>
    refine Guarded.cons h rfl (fun other hexpecting => ?_) fun other _ howed => ?_
    · rcases hexpecting with hsecond | hsecond | ⟨-, hlatest⟩
      · cases hsecond
      · cases hsecond
      · cases (latest_cons_of_pos rfl).mp hlatest
        exact .inr (.inl hconsumer)
    · unfold Owed at howed
      rw [hconsumer] at howed
      exact howed.imp_left fun hitems => ⟨hitems, hopen⟩

end Wakeups

section Closing

/-- The history against the queued items: nothing is lost, the flag follows the producer's drop,
and after the end nothing is left. -/
structure Delivering (world : World T W) (items : List T) : Prop where
  balanced : Balanced Event.accepted Event.removed world.log items
  closed : world.producerClosed = true → .closed ∈ world.log ∧ world.producer.dropped = true
  last : world.consumer.last = true → world.producerClosed = true
  ended : ∀ event ∈ world.log, event.ends = true → world.producerClosed = true ∧ items = []
  quiet : ∀ later earlier event, world.log = later ++ event :: earlier → event.ends = true →
    .closed ∈ earlier ∧ Balanced Event.accepted Event.removed earlier [] ∧
      ∀ other ∈ later, other.returnsItem = false

variable {world world' : World T W} {items items' : List T}

/-- A step with one event. -/
lemma Delivering.record (h : Delivering world items) {event : Event T W}
    (hlog : world'.log = event :: world.log)
    (hitems : items ++ event.accepted = event.removed ++ items')
    (hclosed : world'.producerClosed = true → world.producerClosed = true ∧
      (world.producer.dropped = true → world'.producer.dropped = true) ∨
      event = .closed ∧ world'.producer.dropped = true)
    (hlast : world'.consumer.last = true → world'.producerClosed = true)
    (hstays : world.producerClosed = true → items = [] →
      world'.producerClosed = true ∧ items' = [])
    (hends : event.ends = true → world.producerClosed = true ∧ items = [])
    (hreturns : event.returnsItem = true → items ≠ []) : Delivering world' items' where
  balanced := hlog ▸ h.balanced.cons hitems
  closed hflag := by
    rw [hlog]
    rcases hclosed hflag with ⟨hbefore, hproducer⟩ | ⟨rfl, hproducer⟩
    · have hmem := h.closed hbefore
      exact ⟨List.mem_cons_of_mem _ hmem.1, hproducer hmem.2⟩
    · exact ⟨List.mem_cons_self, hproducer⟩
  last := hlast
  ended event' hmem hend := by
    rw [hlog] at hmem
    rcases List.mem_cons.mp hmem with rfl | hmem
    · exact hstays (hends hend).1 (hends hend).2
    · have hbefore := h.ended event' hmem hend
      exact hstays hbefore.1 hbefore.2
  quiet later earlier event' hsplit hend := by
    rw [hlog] at hsplit
    rcases later with _ | ⟨head, later⟩
    · injection hsplit with hhead htail
      subst hhead htail
      have hbefore := hends hend
      refine ⟨(h.closed hbefore.1).1, ?_, fun _ hmem => absurd hmem List.not_mem_nil⟩
      exact hbefore.2 ▸ h.balanced
    · injection hsplit with hhead htail
      rcases h.quiet later earlier event' htail hend with ⟨hmem, hbalanced, hquiet⟩
      refine ⟨hmem, hbalanced, fun other hother => ?_⟩
      rcases List.mem_cons.mp hother with rfl | hother
      · -- The end was reported before, so no item was left.
        rw [← hhead]
        cases hvalue : event.returnsItem
        · rfl
        · have hin : event' ∈ world.log := htail ▸ List.mem_append_right _ List.mem_cons_self
          exact absurd (h.ended event' hin hend).2 (hreturns hvalue)
      · exact hquiet other hother

/-- A step without an event. -/
lemma Delivering.silent (h : Delivering world items) (hlog : world'.log = world.log)
    (hclosed : world'.producerClosed = world.producerClosed)
    (hproducer : world.producer.dropped = true → world'.producer.dropped = true)
    (hlast : world'.consumer.last = true → world.producerClosed = true) :
    Delivering world' items where
  balanced := hlog ▸ h.balanced
  closed hflag := by
    rw [hclosed] at hflag
    exact ⟨hlog ▸ (h.closed hflag).1, hproducer (h.closed hflag).2⟩
  last hconsumer := hclosed ▸ hlast hconsumer
  ended event hmem hend := hclosed ▸ h.ended event (hlog ▸ hmem) hend
  quiet later earlier event hsplit := h.quiet later earlier event (hlog ▸ hsplit)

lemma Delivering.step [TaskWaker W] (h : Delivering world items)
    (hstep : Step world items world' items') : Delivering world' items' := by
  have hlive : world.producer = .live → ¬world.producerClosed = true := by
    intro hproducer hflag
    have hdropped := (h.closed hflag).2
    rw [hproducer] at hdropped
    cases hdropped
  cases hstep with
  | @accept queue items' event hproducer hevent hitems =>
    have hopen := hlive hproducer
    rcases event with ⟨item, _ | _⟩ | ⟨item, displaced⟩ | _ | _ | _ | _ | _ <;> try cases hevent
    · exact h.record rfl hitems (fun hflag => absurd hflag hopen) (fun hlast => h.last hlast)
        (fun hflag => absurd hflag hopen) (fun hend => by cases hend) fun hvalue => by cases hvalue
    · exact h.record rfl hitems (fun hflag => absurd hflag hopen) (fun hlast => h.last hlast)
        (fun hflag => absurd hflag hopen) (fun hend => by cases hend) fun hvalue => by cases hvalue
  | refuse item =>
    exact h.record rfl (List.append_nil _) (fun hflag => .inl ⟨hflag, id⟩) h.last
      (fun hflag hitems => ⟨hflag, hitems⟩) (fun hend => by cases hend) fun hvalue => by cases hvalue
  | close hproducer =>
    have hopen := hlive hproducer
    exact h.record rfl (List.append_nil _) (fun _ => .inr ⟨rfl, rfl⟩) (fun _ => rfl)
      (fun hflag => absurd hflag hopen) (fun hend => by cases hend) fun hvalue => by cases hvalue
  | @wake producer hproducer hgone =>
    have hdropped : world.producer.dropped = true → producer.dropped = true := by
      intro hdropped
      rcases hbefore : world.producer <;> rw [hbefore] at hdropped
      · cases hdropped
      · cases hdropped
      · rw [hproducer hbefore]
        rfl
      · exact absurd hbefore hgone
    rcases hwaker : world.waker.waker with _ | stored
    · refine h.silent ?_ rfl hdropped h.last
      simp [World.wake, AtomicWaker.take, hwaker]
    · refine @Delivering.record _ _ _ (world.wake producer) _ _ h (.woke stored) ?_
        (List.append_nil _) (fun hflag => .inl ⟨hflag, hdropped⟩) h.last
        (fun hflag hitems => ⟨hflag, hitems⟩) (fun hend => by cases hend) fun hvalue => by cases hvalue
      simp [World.wake, AtomicWaker.take, hwaker]
  | pop hidle =>
    refine @Delivering.record _ _ _ _ _ _ h (.popped items.head?) rfl ?_
      (fun hflag => .inl ⟨hflag, id⟩) h.last (fun hflag hitems => ⟨hflag, by rw [hitems]; rfl⟩)
      (fun hend => by cases hend) fun hvalue => ?_
    · cases items <;> simp [Event.accepted, Event.removed]
    · rintro rfl
      cases hvalue
  | @poll queue waker item items' hitems =>
    subst hitems
    refine @Delivering.record _ _ _ _ _ _ h (.polled waker (.ready (some item))) rfl
      (List.append_nil _) (fun hflag => .inl ⟨hflag, id⟩) (fun hlast => by cases hlast)
      (fun _ hitems => by cases hitems) (fun hend => by cases hend) fun _ => List.cons_ne_nil _ _
  | @pollLast queue waker hlast =>
    have hflag := h.last hlast
    refine @Delivering.record _ _ _ _ _ _ h (.polled waker (.ready items.head?)) rfl ?_
      (fun hflag => .inl ⟨hflag, id⟩) (fun hlast => by cases hlast)
      (fun hflag hitems => ⟨hflag, by rw [hitems]; rfl⟩) (fun hend => ⟨hflag, ?_⟩) fun hvalue => ?_
    · cases items <;> simp [Event.accepted, Event.removed]
    · cases items with
      | nil => rfl
      | cons => cases hend
    · rintro rfl
      cases hvalue
  | look _ _ _ hlast => exact h.silent rfl rfl id hlast
  | @register waker hconsumer =>
    exact h.record rfl (List.append_nil _) (fun hflag => .inl ⟨hflag, id⟩) (fun hlast => by cases hlast)
      (fun hflag hitems => ⟨hflag, hitems⟩) (fun hend => by cases hend) fun hvalue => by cases hvalue
  | @pending waker hconsumer hopen =>
    exact h.record rfl (List.append_nil _) (fun hflag => .inl ⟨hflag, id⟩) (fun hlast => by cases hlast)
      (fun hflag hitems => ⟨hflag, hitems⟩) (fun hend => by cases hend) fun hvalue => by cases hvalue

end Closing

section Runs

variable [TaskWaker W] {capacity : ℕ} {world : World T W}

/-- In every reachable world the ring queues some items, and both invariants hold of them. -/
theorem delivering_of_reachable (hcap : 0 < capacity)
    (h : (spscSystem T W capacity).Reachable world) :
    ∃ v items, world.queue.Holds capacity v items ∧ Watched world items ∧
      Delivering world items := by
  refine h.invariant (P := fun world => ∃ v items, world.queue.Holds capacity v items ∧
    Watched world items ∧ Delivering world items) ?_ ?_
  · rintro world rfl
    refine ⟨0, [], Spsc.Ring.holds_new capacity, guarded_of_none fun waker => ?_, ?_⟩
    · rintro (hconsumer | hconsumer | ⟨-, hlatest⟩)
      · cases hconsumer
      · cases hconsumer
      · cases hlatest
    · refine ⟨balanced_nil, fun hflag => ?_, fun hlast => ?_, fun _ hmem => ?_, fun later _ _ hsplit => ?_⟩
      · cases hflag
      · cases hlast
      · cases hmem
      · cases later <;> cases hsplit
  · rintro world action world' ⟨v, items, hholds, hwatched, hdelivering⟩ hnext
    rcases next_cases hcap hholds hnext with ⟨v', items', hstep, hholds'⟩
    exact ⟨v', items', hholds', hwatched.step hstep, hdelivering.step hstep⟩

/-- A consumer whose latest operation is a pending `poll_pop` and whose waker has not been called
since: the ring is empty and the producer lives, or the producer is about to call `wake`. -/
def NoLostWakeup (world : World T W) : Prop :=
  ∀ waker, Pending world waker → ¬Called Event.note world.log waker →
    world.queue.pop = some (.empty, world.queue) ∧ world.producerClosed = false ∨
      world.producer.due = true

/-- The consumer of a ring loses no wakeup. -/
theorem spsc_loses_no_wakeup (hcap : 0 < capacity)
    (h : (spscSystem T W capacity).Reachable world) : NoLostWakeup world := by
  rcases delivering_of_reachable hcap h with ⟨v, items, hholds, hwatched, -⟩
  intro waker hpending hnot
  have howed := hwatched.owed waker (.inr (.inr hpending)) hnot
  unfold Owed at howed
  rw [hpending.1] at howed
  exact howed.imp_left fun hempty => ⟨hholds.pop_nil hcap hempty.1, hempty.2⟩

/-- A consumer that waits on an empty ring while the producer is about to wake it. -/
theorem spsc_loses_no_wakeup_one_slot :
    let world := (System.replay World.next (World.start 1 : World ℕ RawWaker)
      [.push 5, .wake, .poll ⟨1, 1⟩, .poll ⟨2, 1⟩, .advance, .advance, .advance, .advance,
        .push 6]).get rfl
    NoLostWakeup world :=
  spsc_loses_no_wakeup (by decide) (System.reachable_replay rfl)

/-- What a ring whose consumer has seen the end has done and still does. -/
structure ClosedWithoutLoss (world : World T W) : Prop where
  /-- The end is reported after the producer's drop and after everything accepted has been
  returned or displaced. -/
  complete : ∀ later earlier waker, world.log = later ++ .polled waker (.ready none) :: earlier →
    .closed ∈ earlier ∧ total Event.accepted earlier = total Event.removed earlier
  /-- After the end nothing is returned. -/
  quiet : ∀ later earlier waker, world.log = later ++ .polled waker (.ready none) :: earlier →
    ∀ event ∈ later, event.returnsItem = false

/-- Closing a ring loses no item. -/
theorem spsc_closes_without_loss (hcap : 0 < capacity)
    (h : (spscSystem T W capacity).Reachable world) : ClosedWithoutLoss world := by
  rcases delivering_of_reachable hcap h with ⟨v, items, -, -, hdelivering⟩
  refine ⟨fun later earlier waker hsplit => ?_, fun later earlier waker hsplit => ?_⟩
  · rcases hdelivering.quiet later earlier _ hsplit rfl with ⟨hclosed, hbalanced, -⟩
    exact ⟨hclosed, hbalanced.total_eq.trans (List.append_nil _)⟩
  · exact (hdelivering.quiet later earlier _ hsplit rfl).2.2

/-- An item pushed between the two checks of a `poll_pop`, just before the producer's drop. -/
theorem spsc_closes_without_loss_one_slot :
    let world := (System.replay World.next (World.start 1 : World ℕ RawWaker)
      [.poll ⟨1, 1⟩, .push 5, .wake, .dropProducer, .advance, .advance, .wake, .poll ⟨1, 1⟩,
        .advance, .advance]).get rfl
    ClosedWithoutLoss world :=
  spsc_closes_without_loss (by decide) (System.reachable_replay rfl)

end Runs

end DoomFishUtils.SpscRing
