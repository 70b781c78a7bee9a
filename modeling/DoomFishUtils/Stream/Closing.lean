import DoomFishUtils.Library.History
import DoomFishUtils.Stream.Conservation
import Mathlib.Data.Finset.Card

/-!
# The end of the stream

The count behind the mutex is the number of live senders, and the drop that brings it to zero
closes the stream for good.  A closed stream accepts nothing, so that a consumer which has been
told of the end finds nothing afterwards.
-/

namespace DoomFishUtils.Stream

set_option autoImplicit false

open DoomFishUtils.Library

variable {φ ι T W : Type} {capacity : ℕ} {world world' : World φ ι T W} {call : ℕ}

/-! ### Live senders -/

section Handles

/-- The live senders against the count and the flag. -/
structure Handles (world : World φ ι T W) : Prop where
  count : world.state.senderCount = world.senders.card
  closed : world.state.closed = true ↔ world.senders = ∅
  /-- Calls of `push_or_block` that have not returned borrow a live sender. -/
  borrowed : ∀ producer ∈ world.producers, producer.progress ≠ .finished →
    producer.sender ∈ world.senders

lemma handles_start (sender : ι) : Handles (World.start sender : World φ ι T W) where
  count := (Finset.card_singleton sender).symm
  closed := by simp [World.start, State.new]
  borrowed producer hmem := absurd hmem List.not_mem_nil

/-- A step that leaves the senders alone. -/
lemma Handles.keep (h : Handles world) (hcount : world'.state.senderCount = world.state.senderCount)
    (hclosed : world'.state.closed = world.state.closed) (hsenders : world'.senders = world.senders)
    (hproducers : ∀ producer ∈ world'.producers, producer.progress ≠ .finished →
      producer.sender ∈ world.senders) : Handles world' where
  count := by rw [hcount, hsenders, h.count]
  closed := by rw [hclosed, hsenders, h.closed]
  borrowed producer hmem hprogress := hsenders ▸ hproducers producer hmem hprogress

/-- Moving a call that has not returned. -/
lemma Handles.setProgress (h : Handles world) (hcall : world.progressOf call ≠ .finished)
    (progress : Progress) : Handles (world.setProgress call progress) := by
  refine h.keep rfl rfl rfl fun producer hmem _ => ?_
  rcases List.mem_iff_getElem?.mp hmem with ⟨place, hplace⟩
  rw [World.setProgress, List.getElem?_modify] at hplace
  rcases Option.map_eq_some_iff.mp hplace with ⟨before, hbefore, rfl⟩
  have hborrowed := h.borrowed before (List.mem_of_getElem? hbefore)
  split_ifs with hsame
  · subst hsame
    rw [World.progressOf, hbefore] at hcall
    exact hborrowed hcall
  · rename_i hprogress
    rw [if_neg hsame] at hprogress
    exact hborrowed hprogress

lemma Handles.enter (h : Handles world) (hcall : world.progressOf call ≠ .finished) (item : T) :
    Handles (world.enter capacity call item) := by
  rcases world.enter_cases capacity call item with ⟨-, -, heq⟩ | ⟨-, heq⟩ | ⟨-, -, heq⟩ <;>
    rw [heq]
  · exact h.setProgress hcall .waiting
  · exact (h.setProgress hcall .finished).keep rfl rfl rfl
      (h.setProgress hcall .finished).borrowed
  · exact (h.setProgress hcall .finished).keep rfl rfl rfl
      (h.setProgress hcall .finished).borrowed

lemma Handles.poll [DecidableEq φ] [TaskWaker W] (h : Handles world) (consumer : Consumer φ)
    (waker : W) : Handles (world.poll consumer waker) := by
  have hsenders : ∀ waiter, (world.setHeld consumer waiter).senders = world.senders := by
    intro waiter
    rcases consumer with future | _ <;> rfl
  have hproducers : ∀ waiter, (world.setHeld consumer waiter).producers = world.producers :=
    World.setHeld_producers consumer
  rcases world.poll_cases consumer waker with ⟨item, buffer, -, heq⟩ | ⟨-, -, heq⟩ |
    ⟨-, -, id, next, ids, -, heq⟩ <;> rw [heq]
  · exact h.keep rfl rfl (hsenders _) (hproducers _ ▸ h.borrowed)
  · exact h.keep rfl rfl (hsenders _) (hproducers _ ▸ h.borrowed)
  · exact h.keep rfl rfl (hsenders _) (hproducers _ ▸ h.borrowed)

/-- A dropped sender is not borrowed by a call that has not returned. -/
lemma Handles.unborrowed [DecidableEq ι] (h : Handles world) {sender : ι}
    (hborrow : world.unborrowed sender = true)
    {producer : Producer ι T} (hmem : producer ∈ world.producers)
    (hprogress : producer.progress ≠ .finished) : producer.sender ∈ world.senders.erase sender := by
  refine Finset.mem_erase.mpr ⟨fun hsender => ?_, h.borrowed producer hmem hprogress⟩
  have hall := List.all_eq_true.mp hborrow producer hmem
  simp [hsender, hprogress] at hall

variable [DecidableEq φ] [DecidableEq ι] [TaskWaker W]

lemma Handles.step (h : Handles world) (hstep : World.Step capacity world world') :
    Handles world' := by
  cases hstep with
  | poll consumer waker => exact h.poll consumer waker
  | dropNext future =>
    unfold World.dropNext
    rw [State.removeWaiter_snd]
    exact h.keep rfl rfl rfl h.borrowed
  | tryNext => exact h.keep rfl rfl rfl h.borrowed
  | clearBuffer => exact h.keep rfl rfl rfl h.borrowed
  | dropStream => exact h.keep rfl rfl rfl h.borrowed
  | push sender item => exact h.keep rfl rfl rfl h.borrowed
  | pushOrBlock sender item hsender =>
    unfold World.pushOrBlock
    have hcalled : Handles { world with
        producers := world.producers ++ [⟨sender, item, .awake⟩] } := by
      refine h.keep rfl rfl rfl fun producer hmem hprogress => ?_
      rcases List.mem_append.mp hmem with hmem | hmem
      · exact h.borrowed producer hmem hprogress
      · rw [List.mem_singleton.mp hmem]
        exact hsender
    refine hcalled.enter ?_ item
    simp [World.progressOf]
  | awaken call hwaiting =>
    have hunfinished : world.progressOf call ≠ .finished := by simp [hwaiting]
    exact h.setProgress hunfinished .awake
  | recheck call producer hcall hprogress =>
    refine h.enter (fun hfinished => ?_) producer.item
    rw [World.progressOf, hcall] at hfinished
    rcases hprogress with hprogress | hprogress <;> cases hprogress.symm.trans hfinished
  | notifyOne call hdue hwaiting =>
    have hunfinished : world.progressOf call ≠ .finished := by simp [hwaiting]
    have hmoved := h.setProgress hunfinished .notified
    exact hmoved.keep rfl rfl rfl hmoved.borrowed
  | notifyNone => exact h.keep rfl rfl rfl h.borrowed
  | notifyAll =>
    refine h.keep rfl rfl rfl fun producer hmem hprogress => ?_
    rcases List.mem_map.mp hmem with ⟨before, hbefore, rfl⟩
    split_ifs with hwaiting
    · exact h.borrowed before hbefore (by simp [hwaiting])
    · rw [if_neg hwaiting] at hprogress
      exact h.borrowed before hbefore hprogress
  | cloneSender sender clone hsender hclone =>
    have hopen : world.state.closed = false := by
      rw [← Bool.not_eq_true, h.closed]
      exact Finset.ne_empty_of_mem hsender
    refine ⟨?_, ?_, fun producer hmem hprogress => ?_⟩
    · exact (congrArg (· + 1) h.count).trans (Finset.card_insert_of_notMem hclone).symm
    · simp [hopen]
    · exact Finset.mem_insert_of_mem (h.borrowed producer hmem hprogress)
  | close sender hsender hborrow hlast =>
    have hcard : (world.senders.erase sender).card = 0 := by
      rw [Finset.card_erase_of_mem hsender, ← h.count, hlast]
    refine ⟨hcard.symm, ?_, fun producer hmem hprogress => h.unborrowed hborrow hmem hprogress⟩
    simp only [true_iff]
    exact Finset.card_eq_zero.mp hcard
  | dropSender sender hsender hborrow hmore =>
    have hcard : (world.senders.erase sender).card = world.state.senderCount - 1 := by
      rw [Finset.card_erase_of_mem hsender, ← h.count]
    refine ⟨hcard.symm, ?_, fun producer hmem hprogress => h.unborrowed hborrow hmem hprogress⟩
    change world.state.closed = true ↔ world.senders.erase sender = ∅
    rw [← Finset.card_eq_zero, hcard, h.closed]
    constructor
    · intro hempty
      exact absurd hsender (hempty ▸ Finset.notMem_empty sender)
    · omega
  | wake waking entry => exact h.keep rfl rfl rfl h.borrowed

end Handles

/-! ### What a consumer finds after the end -/

section Ending

/-- The answer to a poll at the end of the stream. -/
def Event.endsFor : Event φ T W → Bool
  | .polled _ _ (.ready none) => true
  | _ => false

/-- A consumer has been told of the end. -/
def Ended (log : List (Event φ T W)) : Prop :=
  ∃ event ∈ log, event.endsFor = true

/-- No item is returned after the end. -/
def SilentAfterEnd (event : Event φ T W) (earlier : List (Event φ T W)) : Prop :=
  Ended earlier → event.returnedItems = []

/-- Closed and empty. -/
def World.Drained (world : World φ ι T W) : Prop :=
  world.state.closed = true ∧ world.state.buffer = []

structure Ending (world : World φ ι T W) : Prop where
  drained : Ended world.log → world.Drained
  silent : Throughout SilentAfterEnd world.log

lemma ending_start (sender : ι) : Ending (World.start sender : World φ ι T W) where
  drained h := by
    rcases h with ⟨event, hmem, -⟩
    exact absurd hmem List.not_mem_nil
  silent := trivial

/-- A drained stream stays drained and returns nothing, and only a drained stream ends. -/
lemma Ending.record (h : Ending world) (events : List (Event φ T W))
    (hlog : world'.log = events ++ world.log)
    (hdrained : world.Drained → world'.Drained ∧ ∀ event ∈ events, event.returnedItems = [])
    (hends : ∀ event ∈ events, event.endsFor = true → world.Drained) : Ending world' := by
  have hbefore : ∀ part : List (Event φ T W), (∀ event ∈ part, event ∈ events) →
      Ended (part ++ world.log) → world.Drained := by
    rintro part hpart ⟨event, hmem, hend⟩
    rcases List.mem_append.mp hmem with hmem | hmem
    · exact hends event (hpart event hmem) hend
    · exact h.drained ⟨event, hmem, hend⟩
  constructor
  · intro hended
    rw [hlog] at hended
    exact (hdrained (hbefore events (fun _ hmem => hmem) hended)).1
  · rw [hlog]
    refine h.silent.append fun later event earlier heq hended => ?_
    have hmem : ∀ other ∈ event :: earlier, other ∈ events := by
      intro other hother
      rw [heq]
      exact List.mem_append_right later hother
    have hearlier := hbefore earlier (fun other hother => hmem other (List.mem_cons_of_mem _ hother))
    exact (hdrained (hearlier hended)).2 event (hmem event List.mem_cons_self)

/-- A step that only a live sender can make leaves no drained stream behind. -/
lemma Ending.open (h : Ending world) (events : List (Event φ T W))
    (hlog : world'.log = events ++ world.log) (hopen : world.state.closed = false)
    (hends : ∀ event ∈ events, event.endsFor = false) : Ending world' := by
  refine h.record events hlog (fun hdrained => ?_) fun event hmem hend => ?_
  · rw [World.Drained, hopen] at hdrained
    cases hdrained.1
  · rw [hends event hmem] at hend
    cases hend

/-- A step that neither returns nor accepts an item. -/
lemma Ending.quiet (h : Ending world) (events : List (Event φ T W))
    (hlog : world'.log = events ++ world.log)
    (hbuffer : world.state.buffer = [] → world'.state.buffer = [])
    (hclosed : world'.state.closed = world.state.closed)
    (hevents : ∀ event ∈ events, event.returnedItems = [] ∧ event.endsFor = false) :
    Ending world' := by
  refine h.record events hlog (fun hdrained => ?_) fun event hmem hend => ?_
  · exact ⟨⟨hclosed.trans hdrained.1, hbuffer hdrained.2⟩, fun event hmem => (hevents event hmem).1⟩
  · rw [(hevents event hmem).2] at hend
    cases hend

lemma Ending.poll [DecidableEq φ] [TaskWaker W] (h : Ending world) (consumer : Consumer φ)
    (waker : W) : Ending (world.poll consumer waker) := by
  rcases world.poll_cases consumer waker with ⟨item, buffer, hbuffer, heq⟩ |
    ⟨hbuffer, hclosed, heq⟩ | ⟨hbuffer, hclosed, id, next, ids, -, heq⟩ <;> rw [heq]
  · refine h.record [.polled consumer waker (.ready (some item))] rfl (fun hdrained => ?_)
      (by simp [Event.endsFor])
    rw [World.Drained, hbuffer] at hdrained
    cases hdrained.2
  · refine h.record [.polled consumer waker (.ready none)] rfl (fun hdrained => ⟨hdrained, ?_⟩)
      fun _ _ _ => ⟨hclosed, hbuffer⟩
    simp [Event.returnedItems]
  · exact h.open [.polled consumer waker .pending] rfl hclosed (by simp [Event.endsFor])

/-- The answer of `try_next` to an empty buffer is no item. -/
lemma Ending.tryNext (h : Ending world) : Ending world.tryNext := by
  refine h.record [.tried world.state.buffer.head?] rfl (fun hdrained => ?_)
    (by simp [Event.endsFor])
  refine ⟨⟨hdrained.1, ?_⟩, ?_⟩
  · change world.state.buffer.tail = []
    rw [hdrained.2]
    rfl
  · rw [hdrained.2]
    simp [Event.returnedItems]

lemma Ending.enter (h : Ending world) (hopen : world.state.closed = false) (item : T) :
    Ending (world.enter capacity call item) := by
  rcases world.enter_cases capacity call item with ⟨-, -, heq⟩ | ⟨-, heq⟩ | ⟨-, -, heq⟩ <;>
    rw [heq]
  · exact h.open [] rfl hopen (by simp)
  · exact h.open [.refused call item] rfl hopen (by simp [Event.endsFor])
  · exact h.open [.took _ _, .unblocked call item] rfl hopen (by simp [Event.endsFor])

/-- A live sender keeps the stream open. -/
lemma Handles.open_of_mem (h : Handles world) {sender : ι} (hsender : sender ∈ world.senders) :
    world.state.closed = false := by
  rw [← Bool.not_eq_true, h.closed]
  exact Finset.ne_empty_of_mem hsender

variable [DecidableEq φ] [DecidableEq ι] [TaskWaker W]

lemma Ending.step (h : Ending world) (hhandles : Handles world)
    (hstep : World.Step capacity world world') : Ending world' := by
  cases hstep with
  | poll consumer waker => exact h.poll consumer waker
  | dropNext future =>
    unfold World.dropNext
    rw [State.removeWaiter_snd]
    exact h.quiet [.dropped (.next future)] rfl id rfl (by simp [Event.returnedItems, Event.endsFor])
  | tryNext => exact h.tryNext
  | clearBuffer =>
    exact h.quiet [.cleared world.state.buffer] rfl (fun _ => rfl) rfl
      (by simp [Event.returnedItems, Event.endsFor])
  | dropStream =>
    exact h.quiet [.dropped .stream] rfl id rfl (by simp [Event.returnedItems, Event.endsFor])
  | push sender item hsender =>
    exact h.open [.took _ _, .pushed item _] rfl (hhandles.open_of_mem hsender)
      (by simp [Event.endsFor])
  | pushOrBlock sender item hsender =>
    have hcalled : Ending { world with
        producers := world.producers ++ [⟨sender, item, .awake⟩] } :=
      h.quiet [] rfl id rfl (by simp)
    exact hcalled.enter (hhandles.open_of_mem hsender) item
  | awaken call => exact h.quiet [] rfl id rfl (by simp)
  | recheck call producer hcall hprogress =>
    have hsender := hhandles.borrowed producer (List.mem_of_getElem? hcall) fun hfinished => by
      simp [hfinished] at hprogress
    exact h.enter (hhandles.open_of_mem hsender) producer.item
  | notifyOne call => exact h.quiet [] rfl id rfl (by simp)
  | notifyNone => exact h.quiet [] rfl id rfl (by simp)
  | notifyAll => exact h.quiet [] rfl id rfl (by simp)
  | cloneSender => exact h.quiet [] rfl id rfl (by simp)
  | close sender hsender =>
    exact h.open [.took _ _] rfl (hhandles.open_of_mem hsender) (by simp [Event.endsFor])
  | dropSender => exact h.quiet [] rfl id rfl (by simp)
  | wake waking entry =>
    exact h.quiet [.woke waking entry] rfl id rfl (by simp [Event.returnedItems, Event.endsFor])

end Ending

/-! ### The drop that closes -/

section Closings

variable [DecidableEq φ] [DecidableEq ι] [TaskWaker W] {action : Action φ ι T W}

/-- The action, where it sets the flag. -/
def World.closings (capacity : ℕ) (world : World φ ι T W) (action : Action φ ι T W) :
    List (Action φ ι T W) :=
  match world.next capacity action with
  | some world' => if world.state.closed = false ∧ world'.state.closed = true then [action] else []
  | none => []

omit [DecidableEq ι] in
lemma closed_poll (consumer : Consumer φ) (waker : W) :
    (world.poll consumer waker).state.closed = world.state.closed := by
  rcases world.poll_cases consumer waker with ⟨item, buffer, -, heq⟩ | ⟨-, -, heq⟩ |
    ⟨-, -, id, next, ids, -, heq⟩ <;> rw [heq]

omit [DecidableEq φ] [DecidableEq ι] [TaskWaker W] in
lemma closed_enter (item : T) :
    (world.enter capacity call item).state.closed = world.state.closed := by
  rcases world.enter_cases capacity call item with ⟨-, -, heq⟩ | ⟨-, heq⟩ | ⟨-, -, heq⟩ <;>
    rw [heq] <;> rfl

/-- Only the drop of a sender sets the flag, and nothing clears it. -/
lemma closed_of_next (hnext : world.next capacity action = some world') :
    world'.state.closed = world.state.closed ∨
      world'.state.closed = true ∧ ∃ sender, action = .dropSender sender := by
  rcases action with ⟨future | _, waker⟩ | future | _ | _ | _ | ⟨sender, item⟩ | ⟨sender, item⟩ |
    call | call | call | _ | ⟨sender, clone⟩ | sender | waking <;>
    unfold World.next at hnext <;> dsimp only at hnext
  case poll.next =>
    rcases Option.ite_none_left_eq_some.mp hnext with ⟨-, hworld⟩
    exact .inl (Option.some.inj hworld ▸ closed_poll _ waker)
  case poll.stream =>
    rcases Option.ite_none_left_eq_some.mp hnext with ⟨-, hworld⟩
    exact .inl (Option.some.inj hworld ▸ closed_poll _ waker)
  case dropNext =>
    rcases Option.ite_none_left_eq_some.mp hnext with ⟨-, hworld⟩
    rw [← Option.some.inj hworld, World.dropNext, State.removeWaiter_snd]
    exact .inl rfl
  case tryNext =>
    rcases Option.ite_none_left_eq_some.mp hnext with ⟨-, hworld⟩
    exact .inl (Option.some.inj hworld ▸ rfl)
  case clearBuffer =>
    rcases Option.ite_none_left_eq_some.mp hnext with ⟨-, hworld⟩
    exact .inl (Option.some.inj hworld ▸ rfl)
  case dropStream =>
    rcases Option.ite_none_left_eq_some.mp hnext with ⟨-, hworld⟩
    exact .inl (Option.some.inj hworld ▸ rfl)
  case push =>
    rcases Option.ite_none_right_eq_some.mp hnext with ⟨-, hworld⟩
    exact .inl (Option.some.inj hworld ▸ rfl)
  case pushOrBlock =>
    rcases Option.ite_none_right_eq_some.mp hnext with ⟨-, hworld⟩
    exact .inl (Option.some.inj hworld ▸ closed_enter item)
  case awaken =>
    rcases Option.ite_none_right_eq_some.mp hnext with ⟨-, hworld⟩
    exact .inl (Option.some.inj hworld ▸ rfl)
  case recheck =>
    rcases hcall : world.producers[call]? with _ | producer <;> rw [hcall] at hnext
    · cases hnext
    · rcases Option.ite_none_right_eq_some.mp hnext with ⟨-, hworld⟩
      exact .inl (Option.some.inj hworld ▸ closed_enter producer.item)
  case notifyOne =>
    rcases Option.ite_none_left_eq_some.mp hnext with ⟨-, hissue⟩
    rcases call with _ | call <;>
      rcases Option.ite_none_right_eq_some.mp hissue with ⟨-, hworld⟩ <;>
      exact .inl (Option.some.inj hworld ▸ rfl)
  case notifyAll =>
    rcases Option.ite_none_left_eq_some.mp hnext with ⟨-, hworld⟩
    exact .inl (Option.some.inj hworld ▸ rfl)
  case cloneSender =>
    rcases Option.ite_none_right_eq_some.mp hnext with ⟨-, hsome⟩
    rcases Option.map_eq_some_iff.mp hsome with ⟨state, hstate, rfl⟩
    rcases Option.ite_none_right_eq_some.mp hstate with ⟨-, hstate⟩
    exact .inl (Option.some.inj hstate ▸ rfl)
  case dropSender =>
    rcases Option.ite_none_right_eq_some.mp hnext with ⟨-, hdrop⟩
    rcases Option.map_eq_some_iff.mp hdrop with ⟨⟨entries, state⟩, hstate, rfl⟩
    rcases State.dropSender_cases hstate with ⟨-, rfl, rfl⟩ | ⟨-, rfl, rfl⟩
    · exact .inr ⟨rfl, sender, rfl⟩
    · exact .inl rfl
  case wake =>
    split at hnext
    · exact .inl (Option.some.inj hnext ▸ rfl)
    · cases hnext

/-- The flag has been set once, by a drop, or not yet. -/
def ClosedOnce (world : World φ ι T W) (closings : List (Action φ ι T W)) : Prop :=
  if world.state.closed then ∃ sender, closings = [.dropSender sender] else closings = []

lemma ClosedOnce.next {closings : List (Action φ ι T W)} (h : ClosedOnce world closings)
    (hnext : world.next capacity action = some world') :
    ClosedOnce world' (world.closings capacity action ++ closings) := by
  have hclosings : world.closings capacity action =
      if world.state.closed = false ∧ world'.state.closed = true then [action] else [] := by
    rw [World.closings, hnext]
  rw [hclosings]
  unfold ClosedOnce at *
  rcases closed_of_next hnext with hsame | ⟨hclosed, sender, rfl⟩
  · have hkept : ¬(world.state.closed = false ∧ world'.state.closed = true) := by simp [hsame]
    rw [if_neg hkept, hsame]
    exact h
  · rcases hbefore : world.state.closed with _ | _
    · rw [hbefore, if_neg Bool.false_ne_true] at h
      rw [if_pos hclosed, h]
      exact ⟨sender, by simp [hclosed]⟩
    · rw [hbefore, if_pos rfl] at h
      simpa [hclosed] using h

end Closings

/-- How the stream ends, in one world and with the actions that have set its flag. -/
structure EndsExactly [DecidableEq φ] [DecidableEq ι] [TaskWaker W] (capacity : ℕ)
    (world : World φ ι T W) (closings : List (Action φ ι T W)) : Prop where
  count : world.state.senderCount = world.senders.card
  closed : world.state.closed = true ↔ world.senders.card = 0
  /-- The flag is never cleared, and one drop has set it. -/
  final : ∀ action world', world.next capacity action = some world' →
    world.state.closed = true → world'.state.closed = true
  once : ClosedOnce world closings
  /-- A poll yields the end only where every accepted item has left the buffer. -/
  ends : ∀ consumer waker world', world.next capacity (.poll consumer waker) = some world' →
    world'.log = .polled consumer waker (.ready none) :: world.log →
    world.state.closed = true ∧
      total Event.accepted world.log = (total Event.removals world.log).map Prod.snd
  /-- After it no poll and no `try_next` yields an item. -/
  silent : ∀ later consumer waker earlier,
    world.log = later ++ .polled consumer waker (.ready none) :: earlier →
    ∀ event ∈ later, event.returnedItems = []

/-- The end of a stream of any capacity, in every run with any number of senders. -/
theorem stream_ends_exactly [DecidableEq φ] [DecidableEq ι] [TaskWaker W] {capacity : ℕ}
    (hcapacity : 0 < capacity) {creator : ι} {ended : World φ ι T W × List (Action φ ι T W)}
    (h : ((streamSystem φ ι T W capacity creator).recorded (World.closings capacity)).Reachable
      ended) : EndsExactly capacity ended.1 ended.2 := by
  rcases ended with ⟨world, closings⟩
  have hreach : (streamSystem φ ι T W capacity creator).Reachable world := h.of_recorded
  have hinv : Handles world ∧ Ending world :=
    World.invariant_of_step (P := fun world => Handles world ∧ Ending world)
      ⟨handles_start creator, ending_start creator⟩
      (fun _ _ hworld hstep => ⟨hworld.1.step hstep, hworld.2.step hworld.1 hstep⟩) hreach
  have hbalanced : total Event.accepted world.log =
      total Event.removed world.log ++ world.state.buffer :=
    (conserved_of_reachable hcapacity hreach).balanced
  constructor
  case count => exact hinv.1.count
  case closed => rw [hinv.1.closed, Finset.card_eq_zero]
  case final =>
    intro action world' hnext hclosed
    rcases closed_of_next hnext with hsame | ⟨hset, -⟩
    · exact hsame.trans hclosed
    · exact hset
  case once =>
    refine h.invariant (P := fun state => ClosedOnce state.1 state.2) ?_ ?_
    · rintro ⟨first, actions⟩ ⟨hinit, rfl⟩
      change first = World.start creator at hinit
      rw [hinit]
      rfl
    · rintro ⟨before, actions⟩ action ⟨after, actions'⟩ hbefore ⟨hnext, rfl⟩
      exact hbefore.next hnext
  case ends =>
    intro consumer waker world' hnext hlog
    have hpoll : world' = world.poll consumer waker := by
      unfold World.next at hnext
      rcases consumer with future | _ <;>
        exact (Option.some.inj (Option.ite_none_left_eq_some.mp hnext).2).symm
    rw [hpoll] at hlog
    rcases world.poll_cases consumer waker with ⟨item, buffer, -, heq⟩ | ⟨hbuffer, hclosed, -⟩ |
      ⟨-, -, id, next, ids, -, heq⟩
    · rw [heq] at hlog
      cases hlog
    · refine ⟨hclosed, ?_⟩
      rw [hbalanced, hbuffer, List.append_nil, map_total]
      rfl
    · rw [heq] at hlog
      cases hlog
  case silent =>
    intro later consumer waker earlier hlog event hmem
    rcases List.append_of_mem hmem with ⟨after, before, rfl⟩
    have hsilent := hinv.2.silent
    rw [hlog, List.append_assoc] at hsilent
    refine hsilent.of_split ⟨_, List.mem_append_right before List.mem_cons_self, rfl⟩

/-- Two senders, an item and the end of the stream, which the consumer asks for twice. -/
theorem stream_ends_exactly_two_senders :
    let ended := (System.replay (System.recordedNext (World.next 1) (World.closings 1))
      ((World.start 0 : World ℕ ℕ ℕ RawWaker), [])
      [.cloneSender 0 1, .push 1 5, .dropSender 0, .dropSender 1, .poll (.next 0) ⟨1, 1⟩,
        .poll (.next 1) ⟨2, 1⟩, .tryNext, .poll .stream ⟨3, 1⟩]).get rfl
    EndsExactly 1 ended.1 ended.2 :=
  stream_ends_exactly (by decide) (System.reachable_recorded_replay rfl)

end DoomFishUtils.Stream
