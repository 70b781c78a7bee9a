import DoomFishUtils.Library.Sections
import DoomFishUtils.Stream.Sections

/-!
# Calls and the code of others

Each operation as the events of its thread, in the order of the code: where it locks and unlocks
the state, and where it runs the code of wakers and items, which may call the stream again.  What a
critical section takes from the state is handed out of it; nothing that the state held may vanish
between two events.
-/

namespace DoomFishUtils.Stream

set_option autoImplicit false

open DoomFishUtils.Library

variable {φ ι T W : Type}

inductive CallEvent (T W : Type) where
  | locked
  | unlocked
  | cloned (waker : W)
  | woke (waker : W)
  | droppedWaker (waker : W)
  | droppedItem (item : T)
  | notifiedOne
  | notifiedAll

namespace CallEvent

/-- Cloning, waking and dropping run code that the stream does not know. -/
def mark : CallEvent T W → LockMark
  | .locked => .acquires
  | .unlocked => .releases
  | .cloned _ | .woke _ | .droppedWaker _ | .droppedItem _ => .foreign
  | .notifiedOne | .notifiedAll => .neutral

def clonedWaker : CallEvent T W → Option W
  | .cloned waker => some waker
  | _ => none

/-- The waker that an event uses up. -/
def endedWaker : CallEvent T W → Option W
  | .woke waker | .droppedWaker waker => some waker
  | _ => none

def endedItem : CallEvent T W → Option T
  | .droppedItem item => some item
  | _ => none

end CallEvent

/-- A call that returns: its events, the state that it leaves and the items that it returns. -/
structure Called (T W : Type) where
  events : List (CallEvent T W)
  state : State T W
  returned : List T

namespace Called

def wake (wakers : List W) : List (CallEvent T W) :=
  wakers.map .woke

def dropWakers (wakers : List W) : List (CallEvent T W) :=
  wakers.map .droppedWaker

def dropItems (items : List T) : List (CallEvent T W) :=
  items.map .droppedItem

/-- `notify_one`, where a call has made room. -/
def notifyOne (madeRoom : Bool) : List (CallEvent T W) :=
  if madeRoom then [.notifiedOne] else []

/-- The end of a handle's `Arc`: the last one takes the state with it. -/
def dropShared (last : Bool) (state : State T W) : List (CallEvent T W) × State T W :=
  if last then
    (dropItems state.buffer ++ dropWakers (state.waiters.map Prod.snd),
      { state with buffer := [], waiters := [] })
  else ([], state)

/-- The item that a poll returns. -/
def polledItem : Poll (Option T) → Option T
  | .ready item => item
  | .pending => none

/-- `poll_next_item`, for `NextItem::poll` and `Stream::poll_next`. -/
def pollNextItem [TaskWaker W] (state : State T W) (waiter : Option ℕ) (waker : W) :
    Called T W :=
  let polled := state.pollNextItem waiter waker
  let item := polledItem polled.answer
  ⟨[.cloned waker, .locked, .unlocked] ++
    (dropWakers polled.nextWaker.toList ++ dropWakers polled.released.toList ++
      notifyOne item.isSome),
    polled.state, item.toList⟩

/-- `NextItem::drop`. -/
def dropNext (state : State T W) (waiter : Option ℕ) : Called T W :=
  match waiter with
  | none => ⟨[], state, []⟩
  | some waiter =>
    let (released, state) := state.removeWaiter (some waiter)
    ⟨[.locked, .unlocked] ++ dropWakers released.toList, state, []⟩

def tryNext (state : State T W) : Called T W :=
  let (item, state) := state.tryNext
  ⟨[.locked, .unlocked] ++ notifyOne item.isSome, state, item.toList⟩

def clearBuffer (state : State T W) : Called T W :=
  let (cleared, state) := state.clearBuffer
  ⟨[.locked, .unlocked] ++ (.notifiedAll :: dropItems cleared), state, []⟩

/-- `BoundedAsyncStream::drop` and the end of its field. -/
def dropStream (last : Bool) (state : State T W) : Called T W :=
  let (stale, state) := state.dropStream
  let (destroyed, state) := dropShared last state
  ⟨[.locked, .unlocked] ++ (.notifiedAll :: (dropWakers (stale.map Prod.snd) ++ destroyed)),
    state, []⟩

def push (capacity : ℕ) (state : State T W) (item : T) : Called T W :=
  let (overwritten, waiters, state) := state.push capacity item
  ⟨[.locked, .unlocked] ++ (wake (waiters.map Prod.snd) ++ dropItems overwritten.toList), state, []⟩

/-- Each wait of `push_or_block` unlocks and locks again. -/
def waits (rounds : ℕ) : List (CallEvent T W) :=
  (List.replicate rounds [.unlocked, .locked]).flatten

/-- `push_or_block`, which finds the given state when it has no longer to wait. -/
def pushOrBlock (rounds : ℕ) (state : State T W) (item : T) : Called T W :=
  match state.pushOrBlock item with
  | (.error item, state) => ⟨.locked :: (waits rounds ++ [.unlocked]), state, [item]⟩
  | (.ok waiters, state) =>
    ⟨.locked :: (waits rounds ++ [.unlocked]) ++ wake (waiters.map Prod.snd), state, []⟩

/-- `AsyncStreamSender::drop` and the end of its field. -/
def dropSender (last : Bool) (state : State T W) : Option (Called T W) :=
  state.dropSender.map fun (waiters, state) =>
    let (destroyed, state) := dropShared last state
    ⟨[.locked, .unlocked] ++ (wake ((waiters.getD []).map Prod.snd) ++ destroyed), state, []⟩

end Called

/-- The calls of the source; `inspect` is any of those that only read. -/
inductive Call (T W : Type) where
  | poll (waiter : Option ℕ) (waker : W)
  | dropNext (waiter : Option ℕ)
  | tryNext
  | clearBuffer
  | dropStream (last : Bool)
  | push (item : T)
  | pushOrBlock (rounds : ℕ) (item : T)
  | cloneSender
  | dropSender (last : Bool)
  | inspect

namespace Call

/-- The item that a call is given. -/
def given : Call T W → List T
  | .push item | .pushOrBlock _ item => [item]
  | _ => []

/-- What a call does if it finds this state when it locks it for the last time; there is no result
where it would wait, or where a count of senders overflows. -/
def run [TaskWaker W] (capacity : ℕ) (state : State T W) : Call T W → Option (Called T W)
  | .poll waiter waker => some (.pollNextItem state waiter waker)
  | .dropNext waiter => some (.dropNext state waiter)
  | .tryNext => some (.tryNext state)
  | .clearBuffer => some (.clearBuffer state)
  | .dropStream last => some (.dropStream last state)
  | .push item => some (.push capacity state item)
  | .pushOrBlock rounds item =>
    if state.mustWait capacity then none else some (.pushOrBlock rounds state item)
  | .cloneSender => state.cloneSender.map fun state => ⟨[.locked, .unlocked], state, []⟩
  | .dropSender last => Called.dropSender last state
  | .inspect => some ⟨[.locked, .unlocked], state, []⟩

end Call

/-! ### The calls are steps of the stream -/

namespace World

lemma enter_state (capacity : ℕ) (world : World φ ι T W) (call : ℕ) (item : T) :
    (world.enter capacity call item).state =
      if world.state.mustWait capacity then world.state else (world.state.pushOrBlock item).2 := by
  unfold enter
  split_ifs
  · rfl
  · dsimp only [setProgress]
    rcases world.state.pushOrBlock item with ⟨item | entries, state⟩ <;> rfl

lemma called_pushOrBlock_state (rounds : ℕ) (state : State T W) (item : T) :
    (Called.pushOrBlock rounds state item).state = (state.pushOrBlock item).2 := by
  unfold Called.pushOrBlock
  rcases state.pushOrBlock item with ⟨item | waiters, state⟩ <;> rfl

variable [DecidableEq φ] [DecidableEq ι] [TaskWaker W]

/-- The call whose last section an action runs. -/
def call (capacity : ℕ) (world : World φ ι T W) : Action φ ι T W → Option (Call T W)
  | .poll consumer waker => some (.poll (world.held consumer) waker)
  | .dropNext future => some (.dropNext (world.waiter future))
  | .tryNext => some .tryNext
  | .clearBuffer => some .clearBuffer
  | .dropStream => some (.dropStream false)
  | .push _ item => some (.push item)
  | .pushOrBlock _ item =>
    if world.state.mustWait capacity then none else some (.pushOrBlock 0 item)
  | .recheck call =>
    if world.state.mustWait capacity then none
    else (world.producers[call]?).map fun producer => .pushOrBlock 1 producer.item
  | .cloneSender _ _ => some .cloneSender
  | .dropSender _ => some (.dropSender false)
  | .awaken _ | .notifyOne _ | .notifyAll | .wake _ => none

variable {capacity : ℕ} {world world' : World φ ι T W} {action : Action φ ι T W}

/-- A step of the stream leaves the state that its call leaves, or runs no last section. -/
lemma call_of_next (hnext : world.next capacity action = some world') :
    match world.call capacity action with
    | some call => (call.run capacity world.state).map Called.state = some world'.state
    | none => world'.state = world.state := by
  rcases action with ⟨consumer, waker⟩ | future | _ | _ | _ | ⟨sender, item⟩ | ⟨sender, item⟩ |
    call | call | call | _ | ⟨sender, clone⟩ | sender | waking <;>
    unfold next at hnext <;> unfold World.call <;> dsimp only at hnext ⊢
  case poll =>
    rcases consumer with future | _
    · rw [← Option.some.inj (Option.ite_none_left_eq_some.mp hnext).2]
      rfl
    · rw [← Option.some.inj (Option.ite_none_left_eq_some.mp hnext).2]
      rfl
  case dropNext =>
    rw [← Option.some.inj (Option.ite_none_left_eq_some.mp hnext).2]
    unfold Call.run Called.dropNext World.dropNext
    rcases world.waiter future with _ | waiter <;> rfl
  case tryNext =>
    rw [← Option.some.inj (Option.ite_none_left_eq_some.mp hnext).2]
    rfl
  case clearBuffer =>
    rw [← Option.some.inj (Option.ite_none_left_eq_some.mp hnext).2]
    rfl
  case dropStream =>
    rw [← Option.some.inj (Option.ite_none_left_eq_some.mp hnext).2]
    rfl
  case push =>
    rw [← Option.some.inj (Option.ite_none_right_eq_some.mp hnext).2]
    rfl
  case pushOrBlock =>
    rw [← Option.some.inj (Option.ite_none_right_eq_some.mp hnext).2, World.pushOrBlock,
      enter_state]
    by_cases hwait : world.state.mustWait capacity = true
    · rw [if_pos hwait, if_pos hwait]
    · rw [if_neg hwait, if_neg hwait]
      dsimp only [Call.run]
      rw [if_neg hwait, Option.map_some, called_pushOrBlock_state]
  case awaken =>
    rw [← Option.some.inj (Option.ite_none_right_eq_some.mp hnext).2]
    rfl
  case recheck =>
    rcases hcall : world.producers[call]? with _ | producer <;> rw [hcall] at hnext
    · cases hnext
    · rw [← Option.some.inj (Option.ite_none_right_eq_some.mp hnext).2, enter_state]
      by_cases hwait : world.state.mustWait capacity = true
      · rw [if_pos hwait, if_pos hwait]
      · rw [if_neg hwait, if_neg hwait, Option.map_some]
        dsimp only [Call.run]
        rw [if_neg hwait, Option.map_some, called_pushOrBlock_state]
  case notifyOne =>
    rcases call with _ | call
    · rw [← Option.some.inj (Option.ite_none_right_eq_some.mp
        (Option.ite_none_left_eq_some.mp hnext).2).2]
    · rw [← Option.some.inj (Option.ite_none_right_eq_some.mp
        (Option.ite_none_left_eq_some.mp hnext).2).2]
      rfl
  case notifyAll =>
    rw [← Option.some.inj (Option.ite_none_left_eq_some.mp hnext).2]
    rfl
  case cloneSender =>
    rcases Option.map_eq_some_iff.mp (Option.ite_none_right_eq_some.mp hnext).2 with
      ⟨state, hstate, rfl⟩
    unfold Call.run
    rw [hstate]
    rfl
  case dropSender =>
    rcases Option.map_eq_some_iff.mp (Option.ite_none_right_eq_some.mp hnext).2 with
      ⟨⟨entries, state⟩, hstate, rfl⟩
    unfold Call.run Called.dropSender
    rw [hstate]
    rcases entries with _ | entries <;> rfl
  case wake =>
    split at hnext
    · rw [← Option.some.inj hnext]
    · cases hnext

end World

/-! ### Foreign code runs unlocked -/

def State.wakers (state : State T W) : List W :=
  state.waiters.map Prod.snd

def clonedWakers (events : List (CallEvent T W)) : List W :=
  events.filterMap CallEvent.clonedWaker

def endedWakers (events : List (CallEvent T W)) : List W :=
  events.filterMap CallEvent.endedWaker

def endedItems (events : List (CallEvent T W)) : List T :=
  events.filterMap CallEvent.endedItem

/-- What a call owes to the state that it finds and to the item that it is given. -/
structure Called.Sound (state : State T W) (given : List T) (called : Called T W) : Prop where
  apart : Library.apart CallEvent.mark false called.events = true
  /-- Wakers and items end after the last unlocking. -/
  ended_after : ∃ sections rest, called.events = sections ++ rest ∧
    (∀ event ∈ sections, event.endedWaker = none ∧ event.endedItem = none) ∧
    ∀ event ∈ rest, event ≠ .locked ∧ event ≠ .unlocked
  wakers : (state.wakers ++ clonedWakers called.events).Perm
    (called.state.wakers ++ endedWakers called.events)
  items : (state.buffer ++ given).Perm
    (called.state.buffer ++ endedItems called.events ++ called.returned)

/-- An event that stands after the sections. -/
def CallEvent.finishes : CallEvent T W → Bool
  | .woke _ | .droppedWaker _ | .droppedItem _ | .notifiedOne | .notifiedAll => true
  | .locked | .unlocked | .cloned _ => false

section Events

variable (wakers : List W) (items : List T) (events later : List (CallEvent T W))

@[simp] lemma clonedWakers_append :
    clonedWakers (events ++ later) = clonedWakers events ++ clonedWakers later :=
  List.filterMap_append

@[simp] lemma endedWakers_append :
    endedWakers (events ++ later) = endedWakers events ++ endedWakers later :=
  List.filterMap_append

@[simp] lemma endedItems_append :
    endedItems (events ++ later) = endedItems events ++ endedItems later :=
  List.filterMap_append

@[simp] lemma endedWakers_wake : endedWakers (Called.wake wakers : List (CallEvent T W)) = wakers :=
  (List.filterMap_map ..).trans List.filterMap_some

@[simp] lemma endedWakers_dropWakers :
    endedWakers (Called.dropWakers wakers : List (CallEvent T W)) = wakers :=
  (List.filterMap_map ..).trans List.filterMap_some

@[simp] lemma endedItems_dropItems :
    endedItems (Called.dropItems items : List (CallEvent T W)) = items :=
  (List.filterMap_map ..).trans List.filterMap_some

@[simp] lemma endedWakers_dropItems :
    endedWakers (Called.dropItems items : List (CallEvent T W)) = [] := by
  simp [endedWakers, Called.dropItems, CallEvent.endedWaker]

@[simp] lemma endedItems_wake : endedItems (Called.wake wakers : List (CallEvent T W)) = [] := by
  simp [endedItems, Called.wake, CallEvent.endedItem]

@[simp] lemma endedItems_dropWakers :
    endedItems (Called.dropWakers wakers : List (CallEvent T W)) = [] := by
  simp [endedItems, Called.dropWakers, CallEvent.endedItem]

@[simp] lemma endedWakers_notifyOne (madeRoom : Bool) :
    endedWakers (Called.notifyOne madeRoom : List (CallEvent T W)) = [] := by
  cases madeRoom <;> rfl

@[simp] lemma endedItems_notifyOne (madeRoom : Bool) :
    endedItems (Called.notifyOne madeRoom : List (CallEvent T W)) = [] := by
  cases madeRoom <;> rfl

@[simp] lemma endedWakers_notifyAll :
    endedWakers (.notifiedAll :: events) = endedWakers events :=
  rfl

@[simp] lemma endedItems_notifyAll : endedItems (.notifiedAll :: events) = endedItems events :=
  rfl

end Events

/-- Events that may all stand after the sections. -/
def Finishing (events : List (CallEvent T W)) : Prop :=
  ∀ event ∈ events, event.finishes = true

section Finishing

variable {events later : List (CallEvent T W)}

lemma Finishing.append (h : Finishing events) (hlater : Finishing later) :
    Finishing (events ++ later) :=
  List.forall_mem_append.mpr ⟨h, hlater⟩

lemma finishing_wake (wakers : List W) : Finishing (Called.wake wakers : List (CallEvent T W)) :=
  List.forall_mem_map.mpr fun _ _ => rfl

lemma finishing_dropWakers (wakers : List W) :
    Finishing (Called.dropWakers wakers : List (CallEvent T W)) :=
  List.forall_mem_map.mpr fun _ _ => rfl

lemma finishing_dropItems (items : List T) :
    Finishing (Called.dropItems items : List (CallEvent T W)) :=
  List.forall_mem_map.mpr fun _ _ => rfl

lemma finishing_notifyOne (madeRoom : Bool) :
    Finishing (Called.notifyOne madeRoom : List (CallEvent T W)) := by
  cases madeRoom
  · exact List.forall_mem_nil _
  · exact List.forall_mem_singleton.mpr rfl

lemma finishing_notifyAll : Finishing ([.notifiedAll] : List (CallEvent T W)) :=
  List.forall_mem_singleton.mpr rfl

lemma finishing_dropShared (last : Bool) (state : State T W) :
    Finishing (Called.dropShared last state).1 := by
  cases last
  · exact List.forall_mem_nil _
  · exact (finishing_dropItems _).append (finishing_dropWakers _)

end Finishing

lemma CallEvent.ended_eq_none {event : CallEvent T W} (h : event.finishes = false) :
    event.endedWaker = none ∧ event.endedItem = none := by
  cases event <;> simp_all [finishes, endedWaker, endedItem]

lemma CallEvent.of_finishes {event : CallEvent T W} (h : event.finishes = true) :
    event.clonedWaker = none ∧ (event ≠ .locked ∧ event ≠ .unlocked) ∧
      (event.mark = .foreign ∨ event.mark = .neutral) := by
  cases event <;> simp_all [finishes, clonedWaker, mark]

variable {state : State T W} {given : List T}

/-- A call whose events are its sections and then what it hands out of them. -/
lemma sound_of {called : Called T W} {sections rest : List (CallEvent T W)}
    (hevents : called.events = sections ++ rest)
    (hsections : Library.apart CallEvent.mark false sections = true)
    (hunfinished : ∀ event ∈ sections, event.finishes = false) (hrest : Finishing rest)
    (hwakers : (state.wakers ++ clonedWakers sections).Perm
      (called.state.wakers ++ endedWakers rest))
    (hitems : (state.buffer ++ given).Perm
      (called.state.buffer ++ endedItems rest ++ called.returned)) :
    called.Sound state given := by
  have hwakersNil : endedWakers sections = [] :=
    List.filterMap_eq_nil_iff.mpr fun event hmem =>
      (CallEvent.ended_eq_none (hunfinished event hmem)).1
  have hitemsNil : endedItems sections = [] :=
    List.filterMap_eq_nil_iff.mpr fun event hmem =>
      (CallEvent.ended_eq_none (hunfinished event hmem)).2
  have hclonedNil : clonedWakers rest = [] :=
    List.filterMap_eq_nil_iff.mpr fun event hmem =>
      (CallEvent.of_finishes (hrest event hmem)).1
  constructor
  case apart =>
    rw [hevents]
    exact apart_append hsections (apart_of_foreign fun event hmem =>
      (CallEvent.of_finishes (hrest event hmem)).2.2)
  case ended_after =>
    exact ⟨sections, rest, hevents,
      fun event hmem => CallEvent.ended_eq_none (hunfinished event hmem),
      fun event hmem => (CallEvent.of_finishes (hrest event hmem)).2.1⟩
  case wakers =>
    rw [hevents, clonedWakers_append, endedWakers_append, hwakersNil, hclonedNil]
    simpa using hwakers
  case items =>
    rw [hevents, endedItems_append, hitemsNil]
    exact hitems

/-- A call with one section, where it neither clones a waker nor leaves the lock in between. -/
lemma sound_of_section {called : Called T W} {rest : List (CallEvent T W)}
    (hevents : called.events = [.locked, .unlocked] ++ rest) (hrest : Finishing rest)
    (hwakers : state.wakers.Perm (called.state.wakers ++ endedWakers rest))
    (hitems : (state.buffer ++ given).Perm
      (called.state.buffer ++ endedItems rest ++ called.returned)) :
    called.Sound state given := by
  refine sound_of hevents rfl ?_ hrest ?_ hitems
  · simp [CallEvent.finishes]
  · exact (List.append_nil state.wakers).symm ▸ hwakers

/-! ### The wakers that leave the state -/

lemma wakers_removeWaiter (state : State T W) (waiter : Option ℕ) :
    state.wakers.Perm
      ((state.removeWaiter waiter).2.wakers ++ (state.removeWaiter waiter).1.toList) := by
  rcases waiter with _ | waiter
  · exact (List.append_nil state.wakers).symm ▸ .refl _
  · exact values_swapRemoveEntry waiter state.waiters

lemma removeWaiter_buffer (state : State T W) (waiter : Option ℕ) :
    (state.removeWaiter waiter).2.buffer = state.buffer := by
  rcases waiter with _ | waiter <;> rfl

/-- The clone that a registration is given is stored or left over, and what it replaces is
released. -/
lemma wakers_registerWaiter [TaskWaker W] (state : State T W) (waiter : Option ℕ) (waker : W) :
    let (released, _, nextWaker, after) := state.registerWaiter waiter waker (some waker)
    after.buffer = state.buffer ∧ (state.wakers ++ [waker]).Perm
      (after.wakers ++ (nextWaker.toList ++ released.toList)) := by
  have hid : (state.waiterId waiter).2.waiters = state.waiters ∧
      (state.waiterId waiter).2.buffer = state.buffer := by
    rcases waiter with _ | id <;> exact ⟨rfl, rfl⟩
  unfold State.registerWaiter State.wakers
  rcases hnumbered : state.waiterId waiter with ⟨id, numbered⟩
  rw [hnumbered] at hid
  dsimp only at hid ⊢
  rw [← hid.1, ← hid.2]
  rcases hlookup : numbered.waiters.lookup id with _ | existing
  · exact ⟨rfl, by simp⟩
  · dsimp only
    split_ifs
    · exact ⟨rfl, by simp⟩
    · exact ⟨rfl, values_setEntry hlookup⟩

/-- A poll hands out one item at most, and besides the clone one waker at most. -/
lemma wakers_pollNextItem [TaskWaker W] (state : State T W) (waiter : Option ℕ) (waker : W) :
    let polled := state.pollNextItem waiter waker
    state.buffer = (Called.polledItem polled.answer).toList ++ polled.state.buffer ∧
      (state.wakers ++ [waker]).Perm
        (polled.state.wakers ++ (polled.nextWaker.toList ++ polled.released.toList)) := by
  have hremoved : ∀ rest : State T W, (rest.wakers ++ [waker]).Perm
      ((rest.removeWaiter waiter).2.wakers ++ ([waker] ++ (rest.removeWaiter waiter).1.toList)) := by
    intro rest
    refine ((wakers_removeWaiter rest waiter).append_right _).trans ?_
    rw [List.append_assoc]
    exact List.perm_append_comm.append_left _
  unfold State.pollNextItem
  rcases hbuffer : state.buffer with _ | ⟨item, buffer⟩
  · dsimp only
    split_ifs
    · exact ⟨(removeWaiter_buffer state waiter).symm ▸ hbuffer.symm, hremoved state⟩
    · have hregister := wakers_registerWaiter state waiter waker
      exact ⟨hregister.1.symm ▸ hbuffer.symm, hregister.2⟩
  · refine ⟨?_, hremoved { state with buffer := buffer }⟩
    exact congrArg (item :: ·) (removeWaiter_buffer { state with buffer := buffer } waiter).symm

/-! ### Each call -/

lemma sound_pollNextItem [TaskWaker W] (waiter : Option ℕ) (waker : W) :
    (Called.pollNextItem state waiter waker).Sound state [] := by
  rcases wakers_pollNextItem state waiter waker with ⟨hbuffer, hwakers⟩
  refine sound_of rfl rfl ?_ (((finishing_dropWakers _).append (finishing_dropWakers _)).append
    (finishing_notifyOne _)) ?_ ?_
  · simp [CallEvent.finishes]
  · simp only [endedWakers_append, endedWakers_dropWakers, endedWakers_notifyOne, List.append_nil]
    exact hwakers
  · simp only [endedItems_append, endedItems_dropWakers, endedItems_notifyOne, List.append_nil]
    exact hbuffer ▸ List.perm_append_comm

lemma sound_dropNext (waiter : Option ℕ) : (Called.dropNext state waiter).Sound state [] := by
  rcases waiter with _ | waiter
  · have hevents : (Called.dropNext state none).events = [] ++ [] := rfl
    exact sound_of hevents rfl (List.forall_mem_nil _) (List.forall_mem_nil _) (.refl _)
      (by simp [Called.dropNext, endedItems])
  · refine sound_of_section rfl (finishing_dropWakers _) ?_ ?_
    · rw [endedWakers_dropWakers]
      exact wakers_removeWaiter state (some waiter)
    · rw [endedItems_dropWakers]
      simp [Called.dropNext, State.removeWaiter]

lemma sound_tryNext : (Called.tryNext state).Sound state [] := by
  refine sound_of_section rfl (finishing_notifyOne _) ?_ ?_
  · rw [endedWakers_notifyOne, List.append_nil]
    exact .refl _
  · rw [endedItems_notifyOne]
    unfold Called.tryNext State.tryNext
    rcases state.buffer with _ | ⟨item, buffer⟩
    · exact .refl _
    · simpa using (List.perm_append_singleton item buffer).symm

lemma sound_clearBuffer : (Called.clearBuffer state).Sound state [] := by
  refine sound_of_section rfl (finishing_notifyAll.append (finishing_dropItems _)) ?_ ?_
  · simp [Called.clearBuffer, State.clearBuffer, State.wakers]
  · simp [Called.clearBuffer, State.clearBuffer]

/-- What a handle's end leaves and drops. -/
lemma dropShared_perm (last : Bool) (state : State T W) :
    state.wakers.Perm
        ((Called.dropShared last state).2.wakers ++ endedWakers (Called.dropShared last state).1) ∧
      state.buffer.Perm
        ((Called.dropShared last state).2.buffer ++ endedItems (Called.dropShared last state).1) := by
  cases last
  · exact ⟨(List.append_nil state.wakers).symm ▸ .refl _,
      (List.append_nil state.buffer).symm ▸ .refl _⟩
  · constructor
    · simp [Called.dropShared, State.wakers]
    · simp [Called.dropShared]

/-- A handle's drop: wakers that its section takes, and then the end of its `Arc`. -/
lemma sound_of_dropShared {called : Called T W} {rest : List (CallEvent T W)}
    {between : State T W} (last : Bool)
    (hevents : called.events = [.locked, .unlocked] ++ (rest ++ (Called.dropShared last between).1))
    (hstate : called.state = (Called.dropShared last between).2) (hreturned : called.returned = [])
    (hrest : Finishing rest) (hwakers : state.wakers.Perm (between.wakers ++ endedWakers rest))
    (hbuffer : state.buffer = between.buffer) (hitems : endedItems rest = []) :
    called.Sound state [] := by
  rcases dropShared_perm last between with ⟨hwakersEnd, hitemsEnd⟩
  refine sound_of_section hevents (hrest.append (finishing_dropShared last between)) ?_ ?_
  · rw [hstate, endedWakers_append]
    refine (hwakers.trans (hwakersEnd.append_right _)).trans ?_
    rw [List.append_assoc]
    exact List.perm_append_comm.append_left _
  · rw [hstate, hreturned, endedItems_append, hitems, hbuffer, List.append_nil, List.append_nil,
      List.nil_append]
    exact hitemsEnd

lemma sound_dropStream (last : Bool) : (Called.dropStream last state).Sound state [] := by
  refine sound_of_dropShared last rfl rfl rfl
    (finishing_notifyAll.append (finishing_dropWakers _)) ?_ rfl ?_
  · simp [State.wakers]
  · simp

lemma sound_push (capacity : ℕ) (item : T) :
    (Called.push capacity state item).Sound state [item] := by
  unfold Called.push
  rcases state.push_cases capacity item with ⟨-, hpush⟩ | ⟨-, hpush⟩ <;> rw [hpush] <;>
    refine sound_of_section rfl ((finishing_wake _).append (finishing_dropItems _)) ?_ ?_
  · simp [State.wakers]
  · simp
  · simp [State.wakers]
  · rcases state.buffer with _ | ⟨oldest, buffer⟩
    · simp
    · simpa using (List.perm_append_singleton oldest (buffer ++ [item])).symm

/-- The sections of `push_or_block` up to its last unlocking. -/
lemma apart_waits (rounds : ℕ) :
    Library.apart (CallEvent.mark (T := T) (W := W)) true (Called.waits rounds ++ [.unlocked]) =
      true := by
  induction rounds with
  | zero => rfl
  | succ rounds ih => exact ih

lemma eq_of_mem_waits {rounds : ℕ} {event : CallEvent T W}
    (h : event ∈ .locked :: (Called.waits rounds ++ [.unlocked])) :
    event = .locked ∨ event = .unlocked := by
  induction rounds with
  | zero => simpa [Called.waits] using h
  | succ rounds ih =>
    refine ih ?_
    simp only [Called.waits, List.replicate_succ, List.flatten_cons] at h ⊢
    grind

lemma sound_pushOrBlock (rounds : ℕ) (item : T) :
    (Called.pushOrBlock rounds state item).Sound state [item] := by
  have hunfinished : ∀ event ∈ (.locked :: (Called.waits rounds ++ [.unlocked]) :
      List (CallEvent T W)), event.finishes = false := by
    intro event hmem
    rcases eq_of_mem_waits hmem with rfl | rfl <;> rfl
  have hcloned : clonedWakers (.locked :: (Called.waits rounds ++ [.unlocked]) :
      List (CallEvent T W)) = [] := by
    refine List.filterMap_eq_nil_iff.mpr fun event hmem => ?_
    rcases eq_of_mem_waits hmem with rfl | rfl <;> rfl
  unfold Called.pushOrBlock State.pushOrBlock
  split_ifs
  · refine sound_of (List.append_nil _).symm (apart_waits rounds) hunfinished
      (List.forall_mem_nil _) ?_ ?_
    · rw [hcloned]
      exact .refl _
    · simp [endedItems]
  · refine sound_of rfl (apart_waits rounds) hunfinished (finishing_wake _) ?_ ?_
    · rw [hcloned, endedWakers_wake]
      simp [State.wakers]
    · rw [endedItems_wake]
      simp

lemma sound_dropSender {last : Bool} {called : Called T W}
    (h : Called.dropSender last state = some called) : called.Sound state [] := by
  rcases Option.map_eq_some_iff.mp h with ⟨⟨waiters, between⟩, hdrop, rfl⟩
  refine sound_of_dropShared last rfl rfl rfl (finishing_wake _) ?_ ?_ (endedItems_wake _)
  · rw [endedWakers_wake]
    rcases State.dropSender_cases hdrop with ⟨-, rfl, rfl⟩ | ⟨-, rfl, rfl⟩
    · simp [State.wakers]
    · simp [State.wakers]
  · rcases State.dropSender_cases hdrop with ⟨-, rfl, rfl⟩ | ⟨-, rfl, rfl⟩ <;> rfl

/-- A call that only locks and unlocks. -/
lemma sound_locked {after : State T W} (hwaiters : after.waiters = state.waiters)
    (hbuffer : after.buffer = state.buffer) :
    Called.Sound state [] ⟨[.locked, .unlocked], after, []⟩ := by
  refine sound_of_section (List.append_nil _).symm (List.forall_mem_nil _) ?_ ?_
  · simp [State.wakers, endedWakers, hwaiters]
  · simp [endedItems, hbuffer]

/-- Every call keeps foreign code out of its sections and loses nothing. -/
lemma sound_run [TaskWaker W] {capacity : ℕ} {call : Call T W} {called : Called T W}
    (h : call.run capacity state = some called) : called.Sound state call.given := by
  cases call <;> unfold Call.run at h
  case poll => exact Option.some.inj h ▸ sound_pollNextItem _ _
  case dropNext => exact Option.some.inj h ▸ sound_dropNext _
  case tryNext => exact Option.some.inj h ▸ sound_tryNext
  case clearBuffer => exact Option.some.inj h ▸ sound_clearBuffer
  case dropStream => exact Option.some.inj h ▸ sound_dropStream _
  case push => exact Option.some.inj h ▸ sound_push capacity _
  case pushOrBlock =>
    exact Option.some.inj (Option.ite_none_left_eq_some.mp h).2 ▸ sound_pushOrBlock _ _
  case cloneSender =>
    rcases Option.map_eq_some_iff.mp h with ⟨after, hclone, rfl⟩
    rcases Option.ite_none_right_eq_some.mp hclone with ⟨-, hafter⟩
    exact Option.some.inj hafter ▸ sound_locked rfl rfl
  case dropSender => exact sound_dropSender h
  case inspect => exact Option.some.inj h ▸ sound_locked rfl rfl

/-- A call that finds any state. -/
def IsCall [TaskWaker W] (capacity : ℕ) (events : List (CallEvent T W)) : Prop :=
  ∃ state call called, Call.run capacity state call = some called ∧ called.events = events

/-- Every call of the stream runs the code of wakers and items unlocked and ends what it takes from
the state once, after unlocking; and a thread whose wakers and items call the stream again never
locks the state while it holds the lock. -/
theorem stream_runs_foreign_code_unlocked [TaskWaker W] (capacity : ℕ) :
    (∀ (state : State T W) (call : Call T W), ∀ called ∈ call.run capacity state,
      called.Sound state call.given) ∧
    ∀ thread : List (CallEvent T W), Reentrant CallEvent.mark (IsCall capacity) thread →
      ∀ before after, thread = before ++ .locked :: after →
        holdsAfter CallEvent.mark false before = false := by
  refine ⟨fun state call called hcalled => sound_run hcalled, ?_⟩
  rintro thread hthread before after rfl
  refine hthread.never_blocks ?_ rfl
  rintro events ⟨state, call, called, hrun, rfl⟩
  exact (sound_run hrun).apart

end DoomFishUtils.Stream
