import DoomFishUtils.Stream.Model

/-!
# What the critical sections do

One lemma for each section: its cases, with the state that it leaves.  The invariants of the
stream use these and never unfold a section.
-/

namespace DoomFishUtils.Stream

set_option autoImplicit false

open DoomFishUtils.Library

variable {φ ι T W : Type}

/-- The waiters without the entry of a number. -/
def leave (waiter : Option ℕ) (waiters : List (ℕ × W)) : List (ℕ × W) :=
  waiter.elim waiters fun id => swapRemoveEntry id waiters

/-- The waiters with an entry under a number whose waker wakes the task of the given one. -/
def enroll [TaskWaker W] (id : ℕ) (waker : W) (waiters : List (ℕ × W)) : List (ℕ × W) :=
  match waiters.lookup id with
  | some existing => if willWake existing waker then waiters else setEntry id waker waiters
  | none => waiters ++ [(id, waker)]

namespace State

variable {state state' : State T W}

lemma removeWaiter_snd (state : State T W) (waiter : Option ℕ) :
    (state.removeWaiter waiter).2 = { state with waiters := leave waiter state.waiters } := by
  rcases waiter with _ | id <;> rfl

/-- A registration keeps the number that is held or takes the next one, and enrolls under it. -/
lemma registerWaiter_cases [TaskWaker W] (state : State T W) (waiter : Option ℕ) (waker : W) :
    ∃ id next released nextWaker,
      ((waiter = some id ∧ next = state.nextWaiter) ∨
        (waiter = none ∧ id = state.nextWaiter ∧ next = followingWaiter state.nextWaiter)) ∧
      state.registerWaiter waiter waker (some waker) = (released, id, nextWaker,
        { state with nextWaiter := next, waiters := enroll id waker state.waiters }) := by
  have hregister : ∀ id next, state.waiterId waiter = (id, { state with nextWaiter := next }) →
      ∃ released nextWaker, state.registerWaiter waiter waker (some waker) =
        (released, id, nextWaker,
          { state with nextWaiter := next, waiters := enroll id waker state.waiters }) := by
    intro id next hid
    unfold registerWaiter enroll
    rcases hlookup : state.waiters.lookup id with _ | existing
    · exact ⟨none, none, by simp [hid, hlookup]⟩
    · by_cases hwake : willWake existing waker = true
      · exact ⟨none, some waker, by simp [hid, hlookup, hwake]⟩
      · exact ⟨some existing, none, by simp [hid, hlookup, hwake]⟩
  rcases waiter with _ | id
  · rcases hregister _ _ rfl with ⟨released, nextWaker, heq⟩
    exact ⟨_, _, released, nextWaker, .inr ⟨rfl, rfl, rfl⟩, heq⟩
  · rcases hregister id state.nextWaiter rfl with ⟨released, nextWaker, heq⟩
    exact ⟨id, _, released, nextWaker, .inl ⟨rfl, rfl⟩, heq⟩

/-- A poll returns the oldest item, or the end of a closed and empty stream, or registers. -/
lemma pollNextItem_cases [TaskWaker W] (state : State T W) (waiter : Option ℕ) (waker : W) :
    (∃ item buffer released, state.buffer = item :: buffer ∧
      state.pollNextItem waiter waker = ⟨.ready (some item), none, released, some waker,
        { state with buffer := buffer, waiters := leave waiter state.waiters }⟩) ∨
    (state.buffer = [] ∧ state.closed = true ∧ ∃ released,
      state.pollNextItem waiter waker = ⟨.ready none, none, released, some waker,
        { state with waiters := leave waiter state.waiters }⟩) ∨
    (state.buffer = [] ∧ state.closed = false ∧ ∃ id next released nextWaker,
      ((waiter = some id ∧ next = state.nextWaiter) ∨
        (waiter = none ∧ id = state.nextWaiter ∧ next = followingWaiter state.nextWaiter)) ∧
      state.pollNextItem waiter waker = ⟨.pending, some id, released, nextWaker,
        { state with nextWaiter := next, waiters := enroll id waker state.waiters }⟩) := by
  unfold pollNextItem
  rcases hbuffer : state.buffer with _ | ⟨item, buffer⟩
  · refine .inr ?_
    rcases hclosed : state.closed with _ | _
    · rcases state.registerWaiter_cases waiter waker with
        ⟨id, next, released, nextWaker, hid, hregister⟩
      exact .inr ⟨rfl, rfl, id, next, released, nextWaker, hid,
        by simp [hregister, hbuffer, hclosed]⟩
    · refine .inl ⟨rfl, rfl, (state.removeWaiter waiter).1, ?_⟩
      simp [removeWaiter_snd, hbuffer, hclosed]
  · refine .inl ⟨item, buffer, (removeWaiter { state with buffer := buffer } waiter).1, rfl, ?_⟩
    simp only [removeWaiter_snd]

/-- A push appends its item, after dropping the oldest one if the buffer is full. -/
lemma push_cases (state : State T W) (capacity : ℕ) (item : T) :
    (state.buffer.length < capacity ∧ state.push capacity item =
      (none, state.waiters,
        { state with buffer := state.buffer ++ [item], waiters := [] })) ∨
    (capacity ≤ state.buffer.length ∧ state.push capacity item =
      (state.buffer.head?, state.waiters,
        { state with buffer := state.buffer.tail ++ [item], waiters := [] })) := by
  unfold push
  by_cases hfull : capacity ≤ state.buffer.length
  · exact .inr ⟨hfull, by simp [hfull]⟩
  · exact .inl ⟨not_le.mp hfull, by simp [hfull]⟩

lemma mustWait_eq_true {capacity : ℕ} :
    state.mustWait capacity = true ↔
      state.consumerGone = false ∧ capacity ≤ state.buffer.length := by
  simp [mustWait]

/-- The drop of a sender closes the stream and takes the waiters if it was the last one. -/
lemma dropSender_cases {entries : Option (List (ℕ × W))}
    (h : state.dropSender = some (entries, state')) :
    (state.senderCount = 1 ∧ entries = some state.waiters ∧
      state' = { state with senderCount := 0, closed := true, waiters := [] }) ∨
    (1 < state.senderCount ∧ entries = none ∧
      state' = { state with senderCount := state.senderCount - 1 }) := by
  unfold dropSender at h
  split_ifs at h with hzero hlast
  · cases h
    exact .inl ⟨by omega, rfl, rfl⟩
  · cases h
    exact .inr ⟨by omega, rfl, rfl⟩

end State

namespace World

variable {world world' : World φ ι T W} {capacity call : ℕ} {item : T}

section SetHeld

variable [DecidableEq φ] (consumer : Consumer φ) (waiter : Option ℕ)

@[simp] lemma setHeld_producers :
    (world.setHeld consumer waiter).producers = world.producers := by
  rcases consumer with future | _ <;> rfl

@[simp] lemma setHeld_notifyOnes :
    (world.setHeld consumer waiter).notifyOnes = world.notifyOnes := by
  rcases consumer with future | _ <;> rfl

@[simp] lemma setHeld_notifyAlls :
    (world.setHeld consumer waiter).notifyAlls = world.notifyAlls := by
  rcases consumer with future | _ <;> rfl

@[simp] lemma setHeld_ids : (world.setHeld consumer waiter).ids = world.ids := by
  rcases consumer with future | _ <;> rfl

@[simp] lemma setHeld_wakes : (world.setHeld consumer waiter).wakes = world.wakes := by
  rcases consumer with future | _ <;> rfl

@[simp] lemma setHeld_dropped : (world.setHeld consumer waiter).dropped = world.dropped := by
  rcases consumer with future | _ <;> rfl

end SetHeld

/-- A poll with everything that it changes. -/
lemma poll_cases [DecidableEq φ] [TaskWaker W] (world : World φ ι T W) (consumer : Consumer φ)
    (waker : W) :
    (∃ item buffer, world.state.buffer = item :: buffer ∧
      world.poll consumer waker = { world.setHeld consumer none with
        state := { world.state with
          buffer := buffer
          waiters := leave (world.held consumer) world.state.waiters }
        notifyOnes := world.notifyOnes + 1
        log := .polled consumer waker (.ready (some item)) :: world.log }) ∨
    (world.state.buffer = [] ∧ world.state.closed = true ∧
      world.poll consumer waker = { world.setHeld consumer none with
        state := { world.state with
          waiters := leave (world.held consumer) world.state.waiters }
        log := .polled consumer waker (.ready none) :: world.log }) ∨
    (world.state.buffer = [] ∧ world.state.closed = false ∧ ∃ id next ids,
      ((world.held consumer = some id ∧ next = world.state.nextWaiter ∧ ids = world.ids) ∨
        (world.held consumer = none ∧ id = world.state.nextWaiter ∧
          next = State.followingWaiter world.state.nextWaiter ∧ ids = world.ids + 1)) ∧
      world.poll consumer waker = { world.setHeld consumer (some id) with
        state := { world.state with
          nextWaiter := next
          waiters := enroll id waker world.state.waiters }
        ids := ids
        log := .polled consumer waker .pending :: world.log }) := by
  unfold poll
  rcases world.state.pollNextItem_cases (world.held consumer) waker with
    ⟨item, buffer, released, hbuffer, hpoll⟩ | ⟨hbuffer, hclosed, released, hpoll⟩ |
    ⟨hbuffer, hclosed, id, next, released, nextWaker, hid, hpoll⟩
  · refine .inl ⟨item, buffer, hbuffer, ?_⟩
    simp [hpoll]
  · refine .inr (.inl ⟨hbuffer, hclosed, ?_⟩)
    simp [hpoll]
  · rcases hid with ⟨hheld, hnext⟩ | ⟨hheld, hid, hnext⟩
    · refine .inr (.inr ⟨hbuffer, hclosed, id, next, world.ids, .inl ⟨hheld, hnext, rfl⟩, ?_⟩)
      simp only [hpoll]
      simp [hheld]
    · refine .inr (.inr ⟨hbuffer, hclosed, id, next, world.ids + 1,
        .inr ⟨hheld, hid, hnext, rfl⟩, ?_⟩)
      simp only [hpoll]
      simp [hheld]

/-- A section of `push_or_block` waits at a full buffer, gives its item back when the consumer
is gone, or appends it and takes the waiters. -/
lemma enter_cases (world : World φ ι T W) (capacity call : ℕ) (item : T) :
    (world.state.consumerGone = false ∧ capacity ≤ world.state.buffer.length ∧
      world.enter capacity call item = world.setProgress call .waiting) ∨
    (world.state.consumerGone = true ∧ world.enter capacity call item =
      { world.setProgress call .finished with log := .refused call item :: world.log }) ∨
    (world.state.consumerGone = false ∧ world.state.buffer.length < capacity ∧
      world.enter capacity call item =
        { world.setProgress call .finished with
          state := { world.state with buffer := world.state.buffer ++ [item], waiters := [] }
          wakes := world.wakes ++ [world.state.waiters]
          log := .took world.wakes.length world.state.waiters :: .unblocked call item ::
            world.log }) := by
  unfold enter
  by_cases hwait : world.state.mustWait capacity = true
  · rcases State.mustWait_eq_true.mp hwait with ⟨hgone, hfull⟩
    exact .inl ⟨hgone, hfull, by rw [if_pos hwait]⟩
  · rw [if_neg hwait]
    refine .inr ?_
    rcases hgone : world.state.consumerGone with _ | _
    · have hroom : world.state.buffer.length < capacity := by
        by_contra hfull
        exact hwait (State.mustWait_eq_true.mpr ⟨hgone, not_lt.mp hfull⟩)
      refine .inr ⟨rfl, hroom, ?_⟩
      simp [State.pushOrBlock, setProgress, hgone, take]
    · refine .inl ⟨rfl, ?_⟩
      simp [State.pushOrBlock, setProgress, hgone]

/-- The steps with their conditions. -/
inductive Step [DecidableEq φ] [DecidableEq ι] [TaskWaker W] (capacity : ℕ)
    (world : World φ ι T W) : World φ ι T W → Prop
  | poll (consumer : Consumer φ) (waker : W) (hgone : world.state.consumerGone = false)
      (hlive : ∀ future, consumer = .next future → world.dropped future = false) :
      Step capacity world (world.poll consumer waker)
  | dropNext (future : φ) (hlive : world.dropped future = false) :
      Step capacity world (world.dropNext future)
  | tryNext (hgone : world.state.consumerGone = false) : Step capacity world world.tryNext
  | clearBuffer (hgone : world.state.consumerGone = false) :
      Step capacity world world.clearBuffer
  | dropStream (hgone : world.state.consumerGone = false) (hlive : world.live = ∅) :
      Step capacity world world.dropStream
  | push (sender : ι) (item : T) (hsender : sender ∈ world.senders) :
      Step capacity world (world.push capacity item)
  | pushOrBlock (sender : ι) (item : T) (hsender : sender ∈ world.senders) :
      Step capacity world (world.pushOrBlock capacity sender item)
  | awaken (call : ℕ) (hwaiting : world.progressOf call = .waiting) :
      Step capacity world (world.setProgress call .awake)
  | recheck (call : ℕ) (producer : Producer ι T) (hcall : world.producers[call]? = some producer)
      (hprogress : producer.progress = .notified ∨ producer.progress = .awake) :
      Step capacity world (world.enter capacity call producer.item)
  | notifyOne (call : ℕ) (hdue : 0 < world.notifyOnes)
      (hwaiting : world.progressOf call = .waiting) :
      Step capacity world
        { world.setProgress call .notified with notifyOnes := world.notifyOnes - 1 }
  | notifyNone (hdue : 0 < world.notifyOnes) (hnone : world.noneWaiting = true) :
      Step capacity world { world with notifyOnes := world.notifyOnes - 1 }
  | notifyAll (hdue : 0 < world.notifyAlls) : Step capacity world world.notifyAll
  | cloneSender (sender clone : ι) (hsender : sender ∈ world.senders)
      (hclone : clone ∉ world.senders) :
      Step capacity world { world with
        state := { world.state with senderCount := world.state.senderCount + 1 }
        senders := insert clone world.senders }
  | close (sender : ι) (hsender : sender ∈ world.senders)
      (hborrow : world.unborrowed sender = true) (hlast : world.state.senderCount = 1) :
      Step capacity world { world with
        state := { world.state with senderCount := 0, closed := true, waiters := [] }
        senders := world.senders.erase sender
        wakes := world.wakes ++ [world.state.waiters]
        log := .took world.wakes.length world.state.waiters :: world.log }
  | dropSender (sender : ι) (hsender : sender ∈ world.senders)
      (hborrow : world.unborrowed sender = true) (hmore : 1 < world.state.senderCount) :
      Step capacity world { world with
        state := { world.state with senderCount := world.state.senderCount - 1 }
        senders := world.senders.erase sender }
  | wake (waking : ℕ) (entry : ℕ × W) (entries : List (ℕ × W))
      (hwakes : world.wakes[waking]? = some (entry :: entries)) :
      Step capacity world { world with
        wakes := world.wakes.set waking entries
        log := .woke waking entry :: world.log }

variable [DecidableEq φ] [DecidableEq ι] [TaskWaker W]

/-- Every action that is possible is one of the steps. -/
lemma step_of_next {action : Action φ ι T W} (hnext : world.next capacity action = some world') :
    Step capacity world world' := by
  rcases action with ⟨future | _, waker⟩ | future | _ | _ | _ | ⟨sender, item⟩ | ⟨sender, item⟩ |
    call | call | call | _ | ⟨sender, clone⟩ | sender | waking <;>
    unfold next at hnext <;> dsimp only at hnext
  case poll.next =>
    rcases Option.ite_none_left_eq_some.mp hnext with ⟨hguard, hworld⟩
    rw [not_or, Bool.not_eq_true, Bool.not_eq_true] at hguard
    rw [← Option.some.inj hworld]
    refine .poll _ waker hguard.1 fun other heq => ?_
    injection heq with heq
    exact heq ▸ hguard.2
  case poll.stream =>
    rcases Option.ite_none_left_eq_some.mp hnext with ⟨hguard, hworld⟩
    rw [← Option.some.inj hworld]
    refine .poll _ waker (Bool.not_eq_true _ ▸ hguard) fun other heq => ?_
    cases heq
  case dropNext =>
    rcases Option.ite_none_left_eq_some.mp hnext with ⟨hguard, hworld⟩
    exact Option.some.inj hworld ▸ .dropNext future (Bool.not_eq_true _ ▸ hguard)
  case tryNext =>
    rcases Option.ite_none_left_eq_some.mp hnext with ⟨hguard, hworld⟩
    exact Option.some.inj hworld ▸ .tryNext (Bool.not_eq_true _ ▸ hguard)
  case clearBuffer =>
    rcases Option.ite_none_left_eq_some.mp hnext with ⟨hguard, hworld⟩
    exact Option.some.inj hworld ▸ .clearBuffer (Bool.not_eq_true _ ▸ hguard)
  case dropStream =>
    rcases Option.ite_none_left_eq_some.mp hnext with ⟨hguard, hworld⟩
    rw [not_or, Bool.not_eq_true, not_not] at hguard
    exact Option.some.inj hworld ▸ .dropStream hguard.1 hguard.2
  case push =>
    rcases Option.ite_none_right_eq_some.mp hnext with ⟨hsender, hworld⟩
    exact Option.some.inj hworld ▸ .push sender item hsender
  case pushOrBlock =>
    rcases Option.ite_none_right_eq_some.mp hnext with ⟨hsender, hworld⟩
    exact Option.some.inj hworld ▸ .pushOrBlock sender item hsender
  case awaken =>
    rcases Option.ite_none_right_eq_some.mp hnext with ⟨hwaiting, hworld⟩
    exact Option.some.inj hworld ▸ .awaken call hwaiting
  case recheck =>
    rcases hcall : world.producers[call]? with _ | producer <;> rw [hcall] at hnext
    · cases hnext
    · rcases Option.ite_none_right_eq_some.mp hnext with ⟨hprogress, hworld⟩
      exact Option.some.inj hworld ▸ .recheck call producer hcall hprogress
  case notifyOne =>
    rcases Option.ite_none_left_eq_some.mp hnext with ⟨hdue, hissue⟩
    rcases call with _ | call
    · rcases Option.ite_none_right_eq_some.mp hissue with ⟨hnone, hworld⟩
      exact Option.some.inj hworld ▸ .notifyNone (Nat.pos_of_ne_zero hdue) hnone
    · rcases Option.ite_none_right_eq_some.mp hissue with ⟨hwaiting, hworld⟩
      exact Option.some.inj hworld ▸ .notifyOne call (Nat.pos_of_ne_zero hdue) hwaiting
  case notifyAll =>
    rcases Option.ite_none_left_eq_some.mp hnext with ⟨hdue, hworld⟩
    exact Option.some.inj hworld ▸ .notifyAll (Nat.pos_of_ne_zero hdue)
  case cloneSender =>
    rcases Option.ite_none_right_eq_some.mp hnext with ⟨⟨hsender, hclone⟩, hsome⟩
    rcases Option.map_eq_some_iff.mp hsome with ⟨state, hstate, rfl⟩
    rcases Option.ite_none_right_eq_some.mp hstate with ⟨-, hstate⟩
    exact Option.some.inj hstate ▸ .cloneSender sender clone hsender hclone
  case dropSender =>
    rcases Option.ite_none_right_eq_some.mp hnext with ⟨⟨hsender, hborrow⟩, hdrop⟩
    rcases Option.map_eq_some_iff.mp hdrop with ⟨⟨entries, state⟩, hstate, rfl⟩
    rcases State.dropSender_cases hstate with ⟨hlast, rfl, rfl⟩ | ⟨hmore, rfl, rfl⟩
    · exact .close sender hsender hborrow hlast
    · exact .dropSender sender hsender hborrow hmore
  case wake =>
    split at hnext
    · next entry entries hwakes =>
      exact Option.some.inj hnext ▸ .wake waking entry entries hwakes
    · cases hnext

/-- A property of the first world that every step keeps holds in every reachable world. -/
theorem invariant_of_step {P : World φ ι T W → Prop} {sender : ι}
    (hstart : P (World.start sender)) (hstep : ∀ world world', P world →
      Step capacity world world' → P world')
    (h : (streamSystem φ ι T W capacity sender).Reachable world) : P world := by
  apply h.invariant
  · intro first hinit
    change first = World.start sender at hinit
    rw [hinit]
    exact hstart
  · intro before action after hbefore hnext
    change before.next capacity action = some after at hnext
    exact hstep before after hbefore (step_of_next hnext)

end World

end DoomFishUtils.Stream
