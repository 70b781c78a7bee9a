import DoomFishUtils.Stream.Sections
import Mathlib.Data.List.Basic

/-!
# Blocking producers

Every free place of the buffer is matched by a notification on its way: one that is due, or one
that a producer has received and not yet acted on.  So no producer is left in the condition
variable beside a free place or without a consumer.
-/

namespace DoomFishUtils.Stream

set_option autoImplicit false

open DoomFishUtils.Library

variable {φ ι T W : Type}

/-- The calls that were notified and have not yet checked their condition again. -/
def World.notified (world : World φ ι T W) : ℕ :=
  world.producers.countP fun producer => producer.progress = .notified

/-- Some call of `push_or_block` is in the condition variable. -/
def World.SomeWaiting (world : World φ ι T W) : Prop :=
  ∃ producer ∈ world.producers, producer.progress = .waiting

/-- A waiting producer has a `notify_all` coming, or every free place has a notification. -/
def Covered (capacity : ℕ) (world : World φ ι T W) : Prop :=
  world.SomeWaiting → 0 < world.notifyAlls ∨
    (world.state.consumerGone = false ∧
      capacity - world.state.buffer.length ≤ world.notifyOnes + world.notified)

section Counting

variable {capacity : ℕ} {world world' : World φ ι T W} {call : ℕ}

/-- The count of the calls with some progress, when one call moves. -/
lemma countP_modify {α : Type*} {p : α → Bool} {f : α → α} {list : List α} {i : ℕ} {x : α}
    (h : list[i]? = some x) :
    (list.modify i f).countP p + (if p x then 1 else 0) =
      list.countP p + (if p (f x) then 1 else 0) := by
  induction list generalizing i with
  | nil => cases h
  | cons head rest ih =>
    rcases i with _ | i
    · rw [List.getElem?_cons_zero, Option.some.injEq] at h
      rw [List.modify_zero_cons, List.countP_cons, List.countP_cons, h]
      omega
    · rw [List.getElem?_cons_succ] at h
      rw [List.modify_succ_cons, List.countP_cons, List.countP_cons]
      have := ih h
      omega

lemma exists_of_waiting (h : world.progressOf call = .waiting) :
    ∃ producer, world.producers[call]? = some producer ∧ producer.progress = .waiting := by
  unfold World.progressOf at h
  rcases hcall : world.producers[call]? with _ | producer <;> rw [hcall] at h
  · cases h
  · exact ⟨producer, rfl, h⟩

/-- How a move of one call changes the number of notified ones. -/
lemma notified_setProgress {producer : Producer ι T}
    (hcall : world.producers[call]? = some producer) (progress : Progress) :
    (world.setProgress call progress).notified +
        (if producer.progress = .notified then 1 else 0) =
      world.notified + (if progress = .notified then 1 else 0) := by
  have hcount := @countP_modify _ (fun producer : Producer ι T => producer.progress = .notified)
    (fun producer => { producer with progress := progress }) _ _ _ hcall
  unfold World.notified World.setProgress
  simpa only [decide_eq_true_eq] using hcount

/-- A call that is moved elsewhere does not make any other one wait. -/
lemma someWaiting_of_setProgress {progress : Progress} (hprogress : progress ≠ .waiting)
    (h : (world.setProgress call progress).SomeWaiting) : world.SomeWaiting := by
  rcases h with ⟨producer, hmem, hwaiting⟩
  rcases List.mem_iff_getElem?.mp hmem with ⟨place, hplace⟩
  rw [World.setProgress, List.getElem?_modify] at hplace
  rcases Option.map_eq_some_iff.mp hplace with ⟨before, hbefore, rfl⟩
  refine ⟨before, List.mem_of_getElem? hbefore, ?_⟩
  split_ifs at hwaiting with hsame
  · exact absurd hwaiting hprogress
  · exact hwaiting

end Counting

section Steps

variable {capacity : ℕ} {world world' : World φ ι T W} {call : ℕ}

/-- A step that moves no call and makes no room without a notification. -/
lemma Covered.of_le (h : Covered capacity world) (hproducers : world'.producers = world.producers)
    (halls : world.notifyAlls ≤ world'.notifyAlls)
    (hgone : world'.state.consumerGone = world.state.consumerGone)
    (hplaces : capacity - world'.state.buffer.length + world.notifyOnes ≤
      capacity - world.state.buffer.length + world'.notifyOnes) : Covered capacity world' := by
  intro hwaiting
  unfold World.SomeWaiting at hwaiting
  rw [hproducers] at hwaiting
  rcases h hwaiting with hdue | ⟨hlive, hcovered⟩
  · exact .inl (hdue.trans_le halls)
  · refine .inr ⟨hgone.trans hlive, ?_⟩
    have hnotified : world'.notified = world.notified := by
      rw [World.notified, hproducers, World.notified]
    omega

lemma covered_of_notifyAll (h : 0 < world.notifyAlls) : Covered capacity world :=
  fun _ => .inl h

/-- Producers wait only where the buffer is full and the consumer is there. -/
lemma covered_of_full (hgone : world.state.consumerGone = false)
    (hfull : capacity ≤ world.state.buffer.length) : Covered capacity world :=
  fun _ => .inr ⟨hgone, by omega⟩

lemma covered_of_not_waiting (h : ¬world.SomeWaiting) : Covered capacity world :=
  fun hwaiting => absurd hwaiting h

lemma Covered.poll [DecidableEq φ] [TaskWaker W] (h : Covered capacity world)
    (consumer : Consumer φ) (waker : W) : Covered capacity (world.poll consumer waker) := by
  rcases world.poll_cases consumer waker with ⟨item, buffer, hbuffer, heq⟩ | ⟨-, -, heq⟩ |
    ⟨-, -, id, next, ids, -, heq⟩ <;> rw [heq]
  · refine h.of_le (World.setHeld_producers _ _) (World.setHeld_notifyAlls _ _).ge rfl ?_
    simp only [hbuffer, List.length_cons]
    omega
  · refine h.of_le (World.setHeld_producers _ _) (World.setHeld_notifyAlls _ _).ge rfl ?_
    simp
  · refine h.of_le (World.setHeld_producers _ _) (World.setHeld_notifyAlls _ _).ge rfl ?_
    simp

lemma Covered.tryNext (h : Covered capacity world) : Covered capacity world.tryNext := by
  refine h.of_le rfl le_rfl rfl ?_
  unfold World.tryNext State.tryNext
  rcases world.state.buffer with _ | ⟨item, buffer⟩
  · simp
  · simp only [List.head?_cons, List.tail_cons, Option.isSome_some, if_true, List.length_cons]
    omega

lemma Covered.push (h : Covered capacity world) (item : T) :
    Covered capacity (world.push capacity item) := by
  refine h.of_le rfl le_rfl rfl ?_
  unfold World.push
  rcases world.state.push_cases capacity item with ⟨hroom, hpush⟩ | ⟨hfull, hpush⟩ <;>
    simp only [hpush, World.take, List.length_append, List.length_singleton, List.length_tail] <;>
    omega

/-- A section of `push_or_block`: only a full buffer with a consumer makes it wait, and an item
that it appends takes the place for which its notification stood. -/
lemma Covered.enter (h : Covered capacity world) {producer : Producer ι T}
    (hcall : world.producers[call]? = some producer) (item : T) :
    Covered capacity (world.enter capacity call item) := by
  rcases world.enter_cases capacity call item with ⟨hgone, hfull, heq⟩ | ⟨hgone, heq⟩ |
    ⟨hgone, hroom, heq⟩ <;> rw [heq]
  · exact covered_of_full hgone hfull
  · intro hwaiting
    rcases h (someWaiting_of_setProgress (by decide) hwaiting) with hdue | ⟨hlive, -⟩
    · exact .inl hdue
    · cases hgone.symm.trans hlive
  · intro hwaiting
    rcases h (someWaiting_of_setProgress (by decide) hwaiting) with hdue | ⟨hlive, hcovered⟩
    · exact .inl hdue
    · refine .inr ⟨hlive, ?_⟩
      have hnotified := notified_setProgress hcall .finished
      change capacity - (world.state.buffer ++ [item]).length ≤
        world.notifyOnes + (world.setProgress call .finished).notified
      rw [List.length_append, List.length_singleton]
      simp only [reduceCtorEq, if_false] at hnotified
      split_ifs at hnotified <;> omega

lemma Covered.pushOrBlock (h : Covered capacity world) (sender : ι) (item : T) :
    Covered capacity (world.pushOrBlock capacity sender item) := by
  have hcalled : Covered capacity
      { world with producers := world.producers ++ [⟨sender, item, .awake⟩] } := by
    intro hwaiting
    rcases hwaiting with ⟨producer, hmem, hprogress⟩
    have hold : world.SomeWaiting := by
      rcases List.mem_append.mp hmem with hmem | hmem
      · exact ⟨producer, hmem, hprogress⟩
      · rw [List.mem_singleton.mp hmem] at hprogress
        cases hprogress
    simpa [World.notified] using h hold
  exact hcalled.enter List.getElem?_concat_length item

/-- A call leaves the condition variable without a notification. -/
lemma Covered.awaken (h : Covered capacity world) (hwaiting : world.progressOf call = .waiting) :
    Covered capacity (world.setProgress call .awake) := by
  intro hsome
  rcases exists_of_waiting hwaiting with ⟨producer, hcall, hprogress⟩
  have hnotified := notified_setProgress hcall .awake
  rw [hprogress] at hnotified
  rcases h (someWaiting_of_setProgress (by decide) hsome) with hdue | ⟨hlive, hcovered⟩
  · exact .inl hdue
  · refine .inr ⟨hlive, hcovered.trans ?_⟩
    simp only [reduceCtorEq, if_false, Nat.add_zero] at hnotified
    exact (Nat.add_le_add_left hnotified.ge _)

/-- `notify_one` turns a notification that is due into one that a call has received. -/
lemma Covered.notifyOne (h : Covered capacity world) (hdue : 0 < world.notifyOnes)
    (hwaiting : world.progressOf call = .waiting) : Covered capacity
      { world.setProgress call .notified with notifyOnes := world.notifyOnes - 1 } := by
  intro hsome
  rcases exists_of_waiting hwaiting with ⟨producer, hcall, hprogress⟩
  have hnotified := notified_setProgress hcall .notified
  rw [hprogress] at hnotified
  rcases h (someWaiting_of_setProgress (by decide) hsome) with halls | ⟨hlive, hcovered⟩
  · exact .inl halls
  · refine .inr ⟨hlive, ?_⟩
    change capacity - world.state.buffer.length ≤
      world.notifyOnes - 1 + (world.setProgress call .notified).notified
    simp only [reduceCtorEq, if_false, if_true] at hnotified
    omega

lemma not_someWaiting_of_noneWaiting (h : world.noneWaiting = true) : ¬world.SomeWaiting := by
  rintro ⟨producer, hmem, hwaiting⟩
  have hnot := List.all_eq_true.mp h producer hmem
  simp [hwaiting] at hnot

lemma not_someWaiting_notifyAll : ¬world.notifyAll.SomeWaiting := by
  rintro ⟨producer, hmem, hwaiting⟩
  rcases List.mem_map.mp hmem with ⟨before, -, rfl⟩
  split_ifs at hwaiting with hbefore
  exact hbefore hwaiting

lemma covered_start (sender : ι) : Covered capacity (World.start sender : World φ ι T W) := by
  rintro ⟨producer, hmem, -⟩
  cases hmem

variable [DecidableEq φ] [DecidableEq ι] [TaskWaker W]

lemma Covered.step (h : Covered capacity world) (hstep : World.Step capacity world world') :
    Covered capacity world' := by
  cases hstep with
  | poll consumer waker => exact h.poll consumer waker
  | dropNext future =>
    refine h.of_le rfl le_rfl ?_ ?_ <;> simp [World.dropNext, State.removeWaiter_snd]
  | tryNext => exact h.tryNext
  | clearBuffer => exact covered_of_notifyAll (Nat.succ_pos _)
  | dropStream => exact covered_of_notifyAll (Nat.succ_pos _)
  | push sender item => exact h.push item
  | pushOrBlock sender item => exact h.pushOrBlock sender item
  | awaken call hwaiting => exact h.awaken hwaiting
  | recheck call producer hcall => exact h.enter hcall producer.item
  | notifyOne call hdue hwaiting => exact h.notifyOne hdue hwaiting
  | notifyNone _ hnone => exact covered_of_not_waiting (not_someWaiting_of_noneWaiting hnone)
  | notifyAll => exact covered_of_not_waiting not_someWaiting_notifyAll
  | cloneSender => exact h.of_le rfl le_rfl rfl le_rfl
  | close => exact h.of_le rfl le_rfl rfl le_rfl
  | dropSender => exact h.of_le rfl le_rfl rfl le_rfl
  | wake => exact h.of_le rfl le_rfl rfl le_rfl

/-- In every reachable world with a producer in the condition variable, a `notify_all` is due,
or the stream is not dropped and there are no more free places than notifications that are due
or were received by producers that have not checked again.  Where no notification is on its way,
the buffer is full and the consumer is there. -/
theorem producers_not_stranded {creator : ι}
    (h : (streamSystem φ ι T W capacity creator).Reachable world) (hwaiting : world.SomeWaiting) :
    (0 < world.notifyAlls ∨ (world.state.consumerGone = false ∧
      capacity - world.state.buffer.length ≤ world.notifyOnes + world.notified)) ∧
    (world.notifyAlls = 0 → world.notifyOnes = 0 → world.notified = 0 →
      world.state.consumerGone = false ∧ capacity ≤ world.state.buffer.length) := by
  have hcovered := World.invariant_of_step (covered_start creator) (fun _ _ => Covered.step) h
    hwaiting
  refine ⟨hcovered, fun halls hones hnotified => ?_⟩
  rcases hcovered with hdue | ⟨hlive, hplaces⟩
  · omega
  · exact ⟨hlive, by omega⟩

/-- Two producers wait for one place, and a consumer takes an item: one notification is due. -/
theorem producers_not_stranded_two :
    let world := (System.replay (World.next 1) (World.start 0 : World ℕ ℕ ℕ RawWaker)
      [.push 0 5, .pushOrBlock 0 6, .pushOrBlock 0 7, .tryNext]).get rfl
    (0 < world.notifyAlls ∨ (world.state.consumerGone = false ∧
      1 - world.state.buffer.length ≤ world.notifyOnes + world.notified)) ∧
    (world.notifyAlls = 0 → world.notifyOnes = 0 → world.notified = 0 →
      world.state.consumerGone = false ∧ 1 ≤ world.state.buffer.length) :=
  producers_not_stranded (System.reachable_replay rfl) ⟨⟨0, 6, .waiting⟩, List.mem_cons_self, rfl⟩

end Steps

end DoomFishUtils.Stream
