import DoomFishUtils.Library.History
import DoomFishUtils.Stream.Sections

/-!
# Waiting consumers

A consumer whose latest poll returned pending has its entry among the waiters, which then wait
for an empty and open stream, or the entry is in the hands of a call that wakes it.
-/

namespace DoomFishUtils.Stream

set_option autoImplicit false

open DoomFishUtils.Library

variable {φ ι T W : Type} [DecidableEq φ]

section History

def Event.isPollOf (consumer : Consumer φ) : Event φ T W → Bool
  | .polled other _ _ => decide (other = consumer)
  | _ => false

/-- The event neither polls nor drops the consumer. -/
def Event.Spares (consumer : Consumer φ) (event : Event φ T W) : Prop :=
  event.isPollOf consumer = false ∧ event ≠ .dropped consumer

/-- The event polls and drops nobody. -/
def Event.quiet : Event φ T W → Bool
  | .polled _ _ _ => false
  | .dropped _ => false
  | _ => true

/-- The consumer has not been dropped and its latest poll, with this waker, returned pending. -/
def Waiting (log : List (Event φ T W)) (consumer : Consumer φ) (waker : W) : Prop :=
  Latest (Event.isPollOf consumer) log (.polled consumer waker .pending) ∧
    .dropped consumer ∉ log

/-- Since the consumer's latest poll, a call took its entry, with a waker for the same task, and
has called that waker or still has to. -/
def Taken [TaskWaker W] (log : List (Event φ T W)) (wakes : List (List (ℕ × W)))
    (consumer : Consumer φ) (id : ℕ) (waker : W) : Prop :=
  ∃ waking entries pending taken,
    Since (Event.isPollOf consumer) log (.took waking entries) ∧ (id, taken) ∈ entries ∧
      willWake taken waker = true ∧ wakes[waking]? = some pending ∧
      ((id, taken) ∈ pending ∨ .woke waking (id, taken) ∈ log)

variable {log : List (Event φ T W)} {consumer : Consumer φ} {waker other : W}
  {event : Event φ T W}

lemma Event.spares_of_quiet (h : event.quiet = true) (consumer : Consumer φ) :
    event.Spares consumer := by
  rcases event with _ | _ | _ | _ | _ | _ | _ | _ | _
  · cases h
  · cases h
  all_goals exact ⟨rfl, nofun⟩

lemma Event.Spares.waiting_cons (h : event.Spares consumer) :
    Waiting (event :: log) consumer waker ↔ Waiting log consumer waker := by
  unfold Waiting
  rw [latest_cons_of_neg h.1, List.mem_cons, not_or]
  exact ⟨fun hwaiting => ⟨hwaiting.1, hwaiting.2.2⟩,
    fun hwaiting => ⟨hwaiting.1, Ne.symm h.2, hwaiting.2⟩⟩

lemma waiting_cons_polled {answer : Poll (Option T)} :
    Waiting (.polled consumer waker answer :: log) consumer other ↔
      answer = .pending ∧ waker = other ∧ .dropped consumer ∉ log := by
  unfold Waiting
  rw [latest_cons_of_pos (by simp [Event.isPollOf]), List.mem_cons, not_or]
  constructor
  · rintro ⟨heq, -, hdrop⟩
    injection heq with _ hwaker hanswer
    exact ⟨hanswer, hwaker, hdrop⟩
  · rintro ⟨rfl, rfl, hdrop⟩
    exact ⟨rfl, nofun, hdrop⟩

lemma not_waiting_cons_dropped : ¬Waiting (.dropped consumer :: log) consumer waker :=
  fun h => h.2 List.mem_cons_self

lemma Waiting.waker_eq (h : Waiting log consumer waker) (h' : Waiting log consumer other) :
    waker = other := by
  have heq := h.1.eq h'.1
  injection heq

variable [TaskWaker W] {wakes : List (List (ℕ × W))} {id : ℕ}

lemma Taken.cons (h : Taken log wakes consumer id waker) (hevent : event.Spares consumer) :
    Taken (event :: log) wakes consumer id waker := by
  rcases h with ⟨waking, entries, pending, taken, hsince, hmem, hwakes, hpending, hcalled⟩
  exact ⟨waking, entries, pending, taken, hsince.cons hevent.1, hmem, hwakes, hpending,
    hcalled.imp_right (List.mem_cons_of_mem _)⟩

/-- More calls that wake do not touch the lists of the earlier ones. -/
lemma Taken.append (h : Taken log wakes consumer id waker) (more : List (List (ℕ × W))) :
    Taken log (wakes ++ more) consumer id waker := by
  rcases h with ⟨waking, entries, pending, taken, hsince, hmem, hwakes, hpending, hcalled⟩
  refine ⟨waking, entries, pending, taken, hsince, hmem, hwakes, ?_, hcalled⟩
  rw [List.getElem?_append_left (List.getElem?_eq_some_iff.mp hpending).1, hpending]

/-- A call wakes the next entry of its list. -/
lemma Taken.wake (h : Taken log wakes consumer id waker) {waking : ℕ} {entry : ℕ × W}
    {entries : List (ℕ × W)} (hwakes : wakes[waking]? = some (entry :: entries)) :
    Taken (.woke waking entry :: log) (wakes.set waking entries) consumer id waker := by
  have hspares := (Event.woke waking entry : Event φ T W).spares_of_quiet rfl consumer
  rcases h with ⟨call, taken, pending, stored, hsince, hmem, hwake, hpending, hcalled⟩
  by_cases heq : call = waking
  · subst heq
    rw [hwakes, Option.some.injEq] at hpending
    subst hpending
    have hlt := (List.getElem?_eq_some_iff.mp hwakes).1
    refine ⟨call, taken, entries, stored, hsince.cons hspares.1, hmem, hwake,
      by rw [List.getElem?_set_self hlt], ?_⟩
    rcases hcalled with hpending | hcalled
    · rcases List.mem_cons.mp hpending with rfl | hpending
      · exact .inr List.mem_cons_self
      · exact .inl hpending
    · exact .inr (List.mem_cons_of_mem _ hcalled)
  · refine ⟨call, taken, pending, stored, hsince.cons hspares.1, hmem, hwake,
      by rw [List.getElem?_set_ne (Ne.symm heq), hpending], ?_⟩
    exact hcalled.imp_right (List.mem_cons_of_mem _)

end History

section Enrolled

/-- The entries against the history: each belongs to a waiting consumer, and every waiting
consumer has an entry or had it taken. -/
structure Enrolled [TaskWaker W] (held : Consumer φ → Option ℕ) (waiters : List (ℕ × W))
    (log : List (Event φ T W)) (wakes : List (List (ℕ × W))) : Prop where
  unique : UniqueKeys waiters
  owned : ∀ {id stored}, (id, stored) ∈ waiters → ∃ consumer waker,
    held consumer = some id ∧ Waiting log consumer waker ∧ willWake stored waker = true
  served : ∀ {consumer waker}, Waiting log consumer waker → ∃ id, held consumer = some id ∧
    ((∃ stored, (id, stored) ∈ waiters) ∨ Taken log wakes consumer id waker)

namespace Enrolled

variable [TaskWaker W] {held held' : Consumer φ → Option ℕ} {waiters : List (ℕ × W)}
  {log : List (Event φ T W)} {wakes : List (List (ℕ × W))} {event : Event φ T W}
  {consumer : Consumer φ} {waker : W} {id : ℕ}

lemma nil : Enrolled held ([] : List (ℕ × W)) ([] : List (Event φ T W)) [] where
  unique := List.nodup_nil
  owned hmem := absurd hmem List.not_mem_nil
  served hwaiting := by simp [Waiting, Latest] at hwaiting

/-- An event that polls and drops nobody. -/
lemma cons (h : Enrolled held waiters log wakes) (hevent : event.quiet = true) :
    Enrolled held waiters (event :: log) wakes where
  unique := h.unique
  owned hmem := by
    rcases h.owned hmem with ⟨consumer, waker, hheld, hwaiting, hwake⟩
    have hspares := event.spares_of_quiet hevent consumer
    exact ⟨consumer, waker, hheld, hspares.waiting_cons.mpr hwaiting, hwake⟩
  served {consumer _} hwaiting := by
    have hspares := event.spares_of_quiet hevent consumer
    rcases h.served (hspares.waiting_cons.mp hwaiting) with ⟨id, hheld, hserved⟩
    exact ⟨id, hheld, hserved.imp_right fun htaken => htaken.cons hspares⟩

lemma wake (h : Enrolled held waiters log wakes) {waking : ℕ} {entry : ℕ × W}
    {entries : List (ℕ × W)} (hwakes : wakes[waking]? = some (entry :: entries)) :
    Enrolled held waiters (.woke waking entry :: log) (wakes.set waking entries) := by
  refine ⟨h.unique, (h.cons rfl).owned, fun hwaiting => ?_⟩
  have hspares := fun consumer =>
    (Event.woke waking entry : Event φ T W).spares_of_quiet rfl consumer
  rcases h.served ((hspares _).waiting_cons.mp hwaiting) with ⟨id, hheld, hserved⟩
  exact ⟨id, hheld, hserved.imp_right fun htaken => htaken.wake hwakes⟩

/-- A call takes all entries at once. -/
lemma take (h : Enrolled held waiters log wakes)
    (hinjective : ∀ {first second id}, held first = some id → held second = some id →
      first = second) :
    Enrolled held [] (.took wakes.length waiters :: log) (wakes ++ [waiters]) := by
  have hspares := fun consumer =>
    (Event.took wakes.length waiters : Event φ T W).spares_of_quiet rfl consumer
  refine ⟨List.nodup_nil, fun hmem => absurd hmem List.not_mem_nil, fun hwaiting => ?_⟩
  rw [(hspares _).waiting_cons] at hwaiting
  rcases h.served hwaiting with ⟨id, hheld, ⟨stored, hstored⟩ | htaken⟩
  · rcases h.owned hstored with ⟨owner, waker, howner, howns, hwake⟩
    have hsame := hinjective howner hheld
    subst hsame
    rw [howns.waker_eq hwaiting] at hwake
    refine ⟨id, hheld, .inr ⟨wakes.length, waiters, waiters, stored, since_cons_self rfl, hstored,
      hwake, ?_, .inl hstored⟩⟩
    rw [List.getElem?_append_right le_rfl, Nat.sub_self]
    rfl
  · exact ⟨id, hheld, .inr ((htaken.cons (hspares _)).append _)⟩

/-- A consumer that completes or is dropped leaves with its own entry only. -/
lemma leave (h : Enrolled held waiters log wakes)
    (hinjective : ∀ {first second id}, held first = some id → held second = some id →
      first = second)
    (hevent : ∀ other, other ≠ consumer → event.Spares other)
    (hheld : ∀ other, other ≠ consumer → held' other = held other)
    (hwaiting : ∀ waker, ¬Waiting (event :: log) consumer waker) :
    Enrolled held' (Stream.leave (held consumer) waiters) (event :: log) wakes := by
  have hmem : ∀ {id stored}, (id, stored) ∈ Stream.leave (held consumer) waiters ↔
      held consumer ≠ some id ∧ (id, stored) ∈ waiters := by
    intro id stored
    unfold Stream.leave
    rcases held consumer with _ | own
    · simp
    · simp only [Option.elim, mem_swapRemoveEntry h.unique, ne_eq, Option.some.injEq, eq_comm]
  constructor
  case unique =>
    unfold Stream.leave
    rcases held consumer with _ | own
    · exact h.unique
    · exact h.unique.swapRemoveEntry
  case owned =>
    intro id stored hstored
    rcases hmem.mp hstored with ⟨hnot, hold⟩
    rcases h.owned hold with ⟨other, waker, hother, hwaits, hwake⟩
    have hne : other ≠ consumer := fun heq => hnot (heq ▸ hother)
    exact ⟨other, waker, (hheld other hne).trans hother,
      (hevent other hne).waiting_cons.mpr hwaits, hwake⟩
  case served =>
    intro other waker hwaits
    have hne : other ≠ consumer := fun heq => hwaiting waker (heq ▸ hwaits)
    rcases h.served ((hevent other hne).waiting_cons.mp hwaits) with ⟨id, hother, hserved⟩
    refine ⟨id, (hheld other hne).trans hother, ?_⟩
    rcases hserved with ⟨stored, hstored⟩ | htaken
    · exact .inl ⟨stored, hmem.mpr ⟨fun hown => hne (hinjective hother hown), hstored⟩⟩
    · exact .inr (htaken.cons (hevent other hne))

/-- Enrolling leaves one entry under the number, with a waker for the same task, and the entries
under other numbers. -/
lemma mem_enroll (h : UniqueKeys waiters) (id : ℕ) (waker : W) :
    UniqueKeys (Stream.enroll id waker waiters) ∧ ∃ stored, willWake stored waker = true ∧
      ∀ k v, (k, v) ∈ Stream.enroll id waker waiters ↔
        (k = id ∧ v = stored) ∨ (k ≠ id ∧ (k, v) ∈ waiters) := by
  unfold Stream.enroll
  rcases hlookup : waiters.lookup id with _ | existing
  · have hfresh := lookup_eq_none.mp hlookup
    refine ⟨h.append hfresh, waker, willWake_self waker, fun k v => ?_⟩
    rw [List.mem_append, List.mem_singleton, Prod.mk.injEq]
    constructor
    · rintro (hold | hnew)
      · exact .inr ⟨fun heq => hfresh v (heq ▸ hold), hold⟩
      · exact .inl hnew
    · rintro (hnew | ⟨-, hold⟩)
      · exact .inr hnew
      · exact .inl hold
  · have hexisting := h.lookup_eq_some.mp hlookup
    by_cases hwake : willWake existing waker = true
    · simp only [hwake, if_true]
      refine ⟨h, existing, hwake, fun k v => ⟨fun hmem => ?_, ?_⟩⟩
      · by_cases heq : k = id
        · exact .inl ⟨heq, h.eq (heq ▸ hmem) hexisting⟩
        · exact .inr ⟨heq, hmem⟩
      · rintro (⟨rfl, rfl⟩ | ⟨-, hold⟩)
        · exact hexisting
        · exact hold
    · simp only [hwake]
      exact ⟨h.setEntry, waker, willWake_self waker, fun k v => mem_setEntry h hexisting⟩

/-- A pending poll leaves the consumer with an entry for its waker, under the number that it
holds or a new one. -/
lemma enroll (h : Enrolled held waiters log wakes)
    (hown : ∀ other, other ≠ consumer → held other ≠ some id)
    (hsame : ∀ k, held consumer = some k → k = id) (hself : held' consumer = some id)
    (hheld : ∀ other, other ≠ consumer → held' other = held other)
    (hlive : .dropped consumer ∉ log) :
    Enrolled held' (Stream.enroll id waker waiters) (.polled consumer waker .pending :: log)
      wakes := by
  have hspares : ∀ other, other ≠ consumer →
      (Event.polled consumer waker .pending : Event φ T W).Spares other := by
    intro other hne
    exact ⟨by simp [Event.isPollOf, hne.symm], fun heq => by cases heq⟩
  rcases mem_enroll h.unique id waker with ⟨hunique, stored, hwake, hmem⟩
  constructor
  case unique => exact hunique
  case owned =>
    intro k v hentry
    rcases (hmem k v).mp hentry with ⟨rfl, rfl⟩ | ⟨hne, hold⟩
    · exact ⟨consumer, waker, hself, waiting_cons_polled.mpr ⟨rfl, rfl, hlive⟩, hwake⟩
    · rcases h.owned hold with ⟨other, waker', hother, hwaits, hwake'⟩
      by_cases heq : other = consumer
      · exact absurd (hsame k (heq ▸ hother)) hne
      · exact ⟨other, waker', (hheld other heq).trans hother,
          (hspares other heq).waiting_cons.mpr hwaits, hwake'⟩
  case served =>
    intro other waker' hwaits
    by_cases heq : other = consumer
    · subst heq
      exact ⟨id, hself, .inl ⟨stored, (hmem id stored).mpr (.inl ⟨rfl, rfl⟩)⟩⟩
    · rcases h.served ((hspares other heq).waiting_cons.mp hwaits) with ⟨k, hother, hserved⟩
      refine ⟨k, (hheld other heq).trans hother, ?_⟩
      rcases hserved with ⟨v, hold⟩ | htaken
      · refine .inl ⟨v, (hmem k v).mpr (.inr ⟨fun hk => ?_, hold⟩)⟩
        exact hown other heq (hk ▸ hother)
      · exact .inr (htaken.cons (hspares other heq))

end Enrolled

end Enrolled

section Numbers

/-- The numbers of the futures, as long as none was given out twice. -/
structure Numbered (waiter : φ → Option ℕ) (nextWaiter ids : ℕ) : Prop where
  range : ∀ {future id}, waiter future = some id → 1 ≤ id ∧ id ≤ ids
  injective : ∀ {first second id}, waiter first = some id → waiter second = some id →
    first = second
  next : ids + 1 < 2 ^ 64 → nextWaiter = ids + 1

variable {waiter : φ → Option ℕ} {nextWaiter ids : ℕ} {future : φ}

lemma Numbered.leave (h : Numbered waiter nextWaiter ids) :
    Numbered (Function.update waiter future none) nextWaiter ids := by
  have hold : ∀ {other id}, Function.update waiter future none other = some id →
      waiter other = some id := by
    intro other id hsome
    by_cases heq : other = future
    · simp [heq] at hsome
    · rwa [Function.update_of_ne heq] at hsome
  exact ⟨fun hsome => h.range (hold hsome),
    fun hfirst hsecond => h.injective (hold hfirst) (hold hsecond), h.next⟩

/-- A poll that keeps the number of its future. -/
lemma Numbered.keep (h : Numbered waiter nextWaiter ids) {id : ℕ} (hid : waiter future = some id) :
    Numbered (Function.update waiter future (some id)) nextWaiter ids := by
  rw [← hid, Function.update_eq_self]
  exact h

/-- A poll that takes the next number, which nobody holds. -/
lemma Numbered.give (h : Numbered waiter nextWaiter ids) (hids : ids + 1 < 2 ^ 64) :
    Numbered (Function.update waiter future (some nextWaiter))
      (State.followingWaiter nextWaiter) (ids + 1) := by
  have hnext := h.next hids
  have hcases : ∀ {other id}, Function.update waiter future (some nextWaiter) other = some id →
      (other = future ∧ id = nextWaiter) ∨ (other ≠ future ∧ waiter other = some id) := by
    intro other id hsome
    by_cases heq : other = future
    · rw [heq, Function.update_self, Option.some.injEq] at hsome
      exact .inl ⟨heq, hsome.symm⟩
    · rw [Function.update_of_ne heq] at hsome
      exact .inr ⟨heq, hsome⟩
  constructor
  case range =>
    intro other id hsome
    rcases hcases hsome with ⟨-, rfl⟩ | ⟨-, hold⟩
    · omega
    · have := h.range hold
      omega
  case injective =>
    intro first second id hfirst hsecond
    rcases hcases hfirst with ⟨rfl, hid⟩ | ⟨-, hold⟩ <;>
      rcases hcases hsecond with ⟨rfl, hid'⟩ | ⟨-, hold'⟩
    · rfl
    · have := h.range hold'
      omega
    · have := h.range hold
      omega
    · exact h.injective hold hold'
  case next =>
    intro hmore
    unfold State.followingWaiter
    rw [hnext, Nat.mod_eq_of_lt hmore]
    exact max_eq_left (by omega)

omit [DecidableEq φ] in
/-- Different consumers never hold one number. -/
lemma Numbered.held_injective {world : World φ ι T W}
    (h : Numbered world.waiter nextWaiter ids) {first second : Consumer φ} {id : ℕ}
    (hfirst : world.held first = some id) (hsecond : world.held second = some id) :
    first = second := by
  have hzero : ∀ {future : φ}, world.waiter future = some id → some streamWaiter ≠ some id := by
    intro future hsome heq
    rw [← Option.some.inj heq] at hsome
    exact absurd (h.range hsome).1 (by decide)
  rcases first with first | _ <;> rcases second with second | _
  · exact congrArg Consumer.next (h.injective hfirst hsecond)
  · exact absurd hsecond (hzero hfirst)
  · exact absurd hfirst (hzero hsecond)
  · rfl

end Numbers

section Living

/-- Which futures were dropped, whether the stream was, and that only live futures wait. -/
structure Living (dropped : φ → Bool) (gone : Bool) (live : Finset φ)
    (log : List (Event φ T W)) : Prop where
  undropped : ∀ {future}, dropped future = false → .dropped (.next future) ∉ log
  present : gone = false → .dropped .stream ∉ log
  alive : ∀ {future waker}, Waiting log (.next future) waker → future ∈ live

variable {dropped : φ → Bool} {gone : Bool} {live : Finset φ} {log : List (Event φ T W)}
  {event : Event φ T W}

lemma Living.cons (h : Living dropped gone live log)
    (hevent : event.quiet = true) : Living dropped gone live (event :: log) where
  undropped hdropped hmem := by
    rcases List.mem_cons.mp hmem with heq | hmem
    · exact (event.spares_of_quiet hevent _).2 heq.symm
    · exact h.undropped hdropped hmem
  present hgone hmem := by
    rcases List.mem_cons.mp hmem with heq | hmem
    · exact (event.spares_of_quiet hevent _).2 heq.symm
    · exact h.present hgone hmem
  alive hwaiting := h.alive ((event.spares_of_quiet hevent _).waiting_cons.mp hwaiting)

lemma Living.polled (h : Living dropped gone live log) {live' : Finset φ} (hlive : live ⊆ live')
    (consumer : Consumer φ) (waker : W) (answer : Poll (Option T))
    (hnew : ∀ future, consumer = .next future → future ∈ live') :
    Living dropped gone live' (.polled consumer waker answer :: log) where
  undropped hdropped hmem := by
    rcases List.mem_cons.mp hmem with heq | hmem
    · cases heq
    · exact h.undropped hdropped hmem
  present hgone hmem := by
    rcases List.mem_cons.mp hmem with heq | hmem
    · cases heq
    · exact h.present hgone hmem
  alive {future waker'} hwaiting := by
    by_cases heq : consumer = .next future
    · exact hnew future heq
    · have hspares : (Event.polled consumer waker answer : Event φ T W).Spares (.next future) :=
        ⟨by simp [Event.isPollOf, heq], nofun⟩
      exact hlive (h.alive (hspares.waiting_cons.mp hwaiting))

end Living

section Steps

lemma held_setHeld_of_ne {world : World φ ι T W} {consumer other : Consumer φ} (hne : other ≠ consumer)
    (waiter : Option ℕ) : (world.setHeld consumer waiter).held other = world.held other := by
  rcases consumer with future | _
  · rcases other with other | _
    · have hfuture : other ≠ future := fun heq => hne (congrArg _ heq)
      exact Function.update_of_ne hfuture ..
    · rfl
  · rfl

omit [DecidableEq φ] in
lemma leave_nil (waiter : Option ℕ) : leave waiter ([] : List (ℕ × W)) = [] := by
  rcases waiter with _ | id <;> rfl

structure Consistent [TaskWaker W] (world : World φ ι T W) : Prop where
  numbered : Numbered world.waiter world.state.nextWaiter world.ids
  idle : world.state.waiters ≠ [] → world.state.buffer = [] ∧ world.state.closed = false
  living : Living world.dropped world.state.consumerGone world.live world.log
  enrolled : Enrolled world.held world.state.waiters world.log world.wakes

/-- A poll brings its future to life. -/
lemma Living.setHeld {world : World φ ι T W} {gone : Bool}
    (h : Living world.dropped gone world.live world.log)
    (consumer : Consumer φ) (waker : W) (answer : Poll (Option T)) (waiter : Option ℕ) :
    Living (world.setHeld consumer waiter).dropped gone (world.setHeld consumer waiter).live
      (.polled consumer waker answer :: world.log) := by
  rcases consumer with future | _
  · refine h.polled (Finset.subset_insert _ _) _ _ _ fun other heq => ?_
    injection heq with heq
    exact heq ▸ Finset.mem_insert_self _ _
  · exact h.polled subset_rfl _ _ _ nofun

variable [TaskWaker W] {world world' : World φ ι T W} {capacity : ℕ}

lemma consistent_start (sender : ι) : Consistent (World.start sender : World φ ι T W) where
  numbered := ⟨nofun, nofun, fun _ => rfl⟩
  idle h := absurd rfl h
  living := ⟨fun _ => List.not_mem_nil, fun _ => List.not_mem_nil,
    fun hwaiting => by simp [World.start, Waiting, Latest] at hwaiting⟩
  enrolled := .nil

/-- A poll that completes. -/
lemma Consistent.complete (h : Consistent world) (consumer : Consumer φ) (waker : W)
    {item : Option T} {state : State T W}
    (hstate : state.nextWaiter = world.state.nextWaiter)
    (hgone : state.consumerGone = world.state.consumerGone)
    (hwaiters : state.waiters = leave (world.held consumer) world.state.waiters)
    (hidle : state.waiters ≠ [] → state.buffer = [] ∧ state.closed = false) {notifyOnes : ℕ} :
    Consistent { world.setHeld consumer none with
      state := state
      notifyOnes := notifyOnes
      log := .polled consumer waker (.ready item) :: world.log } := by
  constructor
  case numbered =>
    rw [hstate]
    rcases consumer with future | _
    · exact h.numbered.leave
    · exact h.numbered
  case idle => exact hidle
  case living =>
    rw [hgone]
    exact h.living.setHeld consumer waker (.ready item) none
  case enrolled =>
    have hspares : ∀ other, other ≠ consumer →
        (Event.polled consumer waker (.ready item) : Event φ T W).Spares other := by
      intro other hne
      exact ⟨by simp [Event.isPollOf, hne.symm], nofun⟩
    rw [hwaiters]
    simp only [World.setHeld_wakes]
    exact h.enrolled.leave h.numbered.held_injective hspares
      (fun other hne => held_setHeld_of_ne hne none)
      fun waker' hwaiting => by cases (waiting_cons_polled.mp hwaiting).1

/-- A poll that registers. -/
lemma Consistent.wait (h : Consistent world) {consumer : Consumer φ} {waker : W}
    (hgone : world.state.consumerGone = false)
    (hlive : ∀ future, consumer = .next future → world.dropped future = false)
    (hbuffer : world.state.buffer = []) (hclosed : world.state.closed = false) {id next ids : ℕ}
    (hid : (world.held consumer = some id ∧ next = world.state.nextWaiter ∧ ids = world.ids) ∨
      (world.held consumer = none ∧ id = world.state.nextWaiter ∧
        next = State.followingWaiter world.state.nextWaiter ∧ ids = world.ids + 1))
    (hids : ids < 2 ^ 64) :
    Consistent { world.setHeld consumer (some id) with
      state := { world.state with
        nextWaiter := next
        waiters := enroll id waker world.state.waiters }
      ids := ids
      log := .polled consumer waker .pending :: world.log } := by
  have hundropped : .dropped consumer ∉ world.log := by
    rcases consumer with future | _
    · exact h.living.undropped (hlive future rfl)
    · exact h.living.present hgone
  constructor
  case numbered =>
    rcases hid with ⟨hheld, rfl, rfl⟩ | ⟨hheld, rfl, rfl, rfl⟩
    · rcases consumer with future | _
      · exact h.numbered.keep hheld
      · exact h.numbered
    · rcases consumer with future | _
      · exact h.numbered.give hids
      · cases hheld
  case idle => exact fun _ => ⟨hbuffer, hclosed⟩
  case living => exact h.living.setHeld consumer waker .pending (some id)
  case enrolled =>
    simp only [World.setHeld_wakes]
    refine h.enrolled.enroll (fun other hne hother => ?_) (fun k hk => ?_) ?_
      (fun other hne => held_setHeld_of_ne hne (some id)) hundropped
    · rcases hid with ⟨hheld, -, -⟩ | ⟨-, rfl, -, rfl⟩
      · exact hne (h.numbered.held_injective hother hheld)
      · -- The next number is above every number in use.
        have hnext := h.numbered.next hids
        rcases other with other | _
        · have := h.numbered.range hother
          omega
        · rw [hnext] at hother
          cases hother
    · rcases hid with ⟨hheld, -, -⟩ | ⟨hheld, -, -, -⟩
      · exact Option.some.inj (hk.symm.trans hheld)
      · cases hheld.symm.trans hk
    · rcases consumer with future | _
      · exact Function.update_self ..
      · rcases hid with ⟨hheld, -, -⟩ | ⟨hheld, -, -, -⟩
        · exact hheld
        · cases hheld

lemma Consistent.poll (h : Consistent world) {consumer : Consumer φ} {waker : W}
    (hgone : world.state.consumerGone = false)
    (hlive : ∀ future, consumer = .next future → world.dropped future = false)
    (hids : (world.poll consumer waker).ids < 2 ^ 64) :
    Consistent (world.poll consumer waker) := by
  have hnone : ¬(world.state.buffer = [] ∧ world.state.closed = false) →
      leave (world.held consumer) world.state.waiters = [] := by
    intro hbusy
    rw [not_imp_comm.mp h.idle hbusy, leave_nil]
  rcases world.poll_cases consumer waker with ⟨item, buffer, hbuffer, heq⟩ |
    ⟨hbuffer, hclosed, heq⟩ | ⟨hbuffer, hclosed, id, next, ids, hid, heq⟩
  · rw [heq]
    apply h.complete consumer waker
    · rfl
    · rfl
    · rfl
    · exact absurd (hnone (by simp [hbuffer]))
  · rw [heq]
    apply h.complete consumer waker
    · rfl
    · rfl
    · rfl
    · exact absurd (hnone (by simp [hclosed]))
  · rw [heq] at hids ⊢
    exact h.wait hgone hlive hbuffer hclosed hid hids

lemma Consistent.dropNext (h : Consistent world) (future : φ) :
    Consistent (world.dropNext future) := by
  have hspares : ∀ other : Consumer φ, other ≠ .next future →
      (Event.dropped (.next future) : Event φ T W).Spares other :=
    fun other hne => ⟨rfl, fun heq => by injection heq with heq; exact hne heq.symm⟩
  unfold World.dropNext
  rw [State.removeWaiter_snd]
  constructor
  case numbered => exact h.numbered.leave
  case idle =>
    intro hsome
    refine h.idle fun hnil => hsome ?_
    change leave (world.waiter future) world.state.waiters = []
    rw [hnil, leave_nil]
  case living =>
    constructor
    · intro other hother hmem
      have hne : other ≠ future := by
        rintro rfl
        simp at hother
      have hold : world.dropped other = false := by
        simpa [Function.update_of_ne hne] using hother
      rcases List.mem_cons.mp hmem with heq | hmem
      · injection heq with heq
        injection heq with heq
        exact hne heq
      · exact h.living.undropped hold hmem
    · intro hgone hmem
      rcases List.mem_cons.mp hmem with heq | hmem
      · injection heq with heq
        cases heq
      · exact h.living.present hgone hmem
    · intro other waker hwaiting
      have hne : other ≠ future := by
        rintro rfl
        exact not_waiting_cons_dropped hwaiting
      have hold := (hspares (.next other) (by simpa using hne)).waiting_cons.mp hwaiting
      exact Finset.mem_erase.mpr ⟨hne, h.living.alive hold⟩
  case enrolled =>
    refine h.enrolled.leave h.numbered.held_injective hspares (fun other hne => ?_)
      fun waker => not_waiting_cons_dropped
    rcases other with other | _
    · have hfuture : other ≠ future := fun heq => hne (congrArg _ heq)
      exact Function.update_of_ne hfuture ..
    · rfl

lemma Consistent.dropStream (h : Consistent world) (hlive : world.live = ∅) :
    Consistent world.dropStream := by
  have hspares : ∀ future : φ, (Event.dropped .stream : Event φ T W).Spares (.next future) :=
    fun future => ⟨rfl, fun heq => by injection heq with heq; cases heq⟩
  constructor
  case numbered => exact h.numbered
  case idle => exact absurd rfl
  case living =>
    constructor
    · intro future hdropped hmem
      rcases List.mem_cons.mp hmem with heq | hmem
      · exact (hspares future).2 heq.symm
      · exact h.living.undropped hdropped hmem
    · nofun
    · exact fun hwaiting => h.living.alive ((hspares _).waiting_cons.mp hwaiting)
  case enrolled =>
    refine ⟨List.nodup_nil, fun hmem => absurd hmem List.not_mem_nil, ?_⟩
    intro consumer waker hwaiting
    rcases consumer with future | _
    · have hmem := h.living.alive ((hspares future).waiting_cons.mp hwaiting)
      rw [hlive] at hmem
      cases hmem
    · exact absurd hwaiting not_waiting_cons_dropped

/-- A call appends an item, or closes the stream, and takes all entries. -/
lemma Consistent.take (h : Consistent world) {event : Event φ T W} {state : State T W}
    (hevent : event.quiet = true) (hnext : state.nextWaiter = world.state.nextWaiter)
    (hgone : state.consumerGone = world.state.consumerGone) (hwaiters : state.waiters = [])
    {senders : Finset ι} {producers : List (Producer ι T)} :
    Consistent { world with
      state := state
      senders := senders
      producers := producers
      wakes := world.wakes ++ [world.state.waiters]
      log := .took world.wakes.length world.state.waiters :: event :: world.log } where
  numbered := by
    rw [hnext]
    exact h.numbered
  idle := absurd hwaiters
  living := by
    rw [hgone]
    exact (h.living.cons hevent).cons rfl
  enrolled := by
    rw [hwaiters]
    exact (h.enrolled.cons hevent).take h.numbered.held_injective

lemma Consistent.enter (h : Consistent world) (call : ℕ) (item : T) :
    Consistent (world.enter capacity call item) := by
  rcases world.enter_cases capacity call item with ⟨-, -, heq⟩ | ⟨-, heq⟩ | ⟨-, -, heq⟩ <;>
    rw [heq]
  · exact ⟨h.numbered, h.idle, h.living, h.enrolled⟩
  · exact ⟨h.numbered, h.idle, h.living.cons rfl, h.enrolled.cons rfl⟩
  · apply h.take <;> rfl

variable [DecidableEq ι]

lemma Consistent.step (h : Consistent world) (hids : world'.ids < 2 ^ 64)
    (hstep : World.Step capacity world world') : Consistent world' := by
  cases hstep with
  | poll consumer waker hgone hlive => exact h.poll hgone hlive hids
  | dropNext future => exact h.dropNext future
  | tryNext =>
    refine ⟨h.numbered, fun hsome => ?_, h.living.cons rfl, h.enrolled.cons rfl⟩
    have hidle := h.idle hsome
    exact ⟨by simp [World.tryNext, State.tryNext, hidle.1], hidle.2⟩
  | clearBuffer =>
    exact ⟨h.numbered, fun hsome => ⟨rfl, (h.idle hsome).2⟩, h.living.cons rfl,
      h.enrolled.cons rfl⟩
  | dropStream _ hlive => exact h.dropStream hlive
  | push sender item =>
    unfold World.push
    rcases world.state.push_cases capacity item with ⟨-, hpush⟩ | ⟨-, hpush⟩ <;> rw [hpush] <;>
      apply h.take <;> rfl
  | pushOrBlock sender item =>
    have hcalled : Consistent
        { world with producers := world.producers ++ [⟨sender, item, .awake⟩] } :=
      ⟨h.numbered, h.idle, h.living, h.enrolled⟩
    exact hcalled.enter _ item
  | awaken => exact ⟨h.numbered, h.idle, h.living, h.enrolled⟩
  | recheck call producer => exact h.enter call producer.item
  | notifyOne => exact ⟨h.numbered, h.idle, h.living, h.enrolled⟩
  | notifyNone => exact ⟨h.numbered, h.idle, h.living, h.enrolled⟩
  | notifyAll => exact ⟨h.numbered, h.idle, h.living, h.enrolled⟩
  | cloneSender => exact ⟨h.numbered, h.idle, h.living, h.enrolled⟩
  | close =>
    refine ⟨h.numbered, absurd rfl, h.living.cons rfl, ?_⟩
    exact h.enrolled.take h.numbered.held_injective
  | dropSender => exact ⟨h.numbered, h.idle, h.living, h.enrolled⟩
  | wake waking entry entries hwakes =>
    exact ⟨h.numbered, h.idle, h.living.cons rfl,
      h.enrolled.wake hwakes⟩

omit [DecidableEq φ] [TaskWaker W] [DecidableEq ι] in
lemma enter_ids (call : ℕ) (item : T) : (world.enter capacity call item).ids = world.ids := by
  rcases world.enter_cases capacity call item with ⟨-, -, heq⟩ | ⟨-, heq⟩ | ⟨-, -, heq⟩ <;>
    rw [heq] <;> rfl

/-- Steps give out numbers and never take one back. -/
lemma ids_le_of_step (hstep : World.Step capacity world world') : world.ids ≤ world'.ids := by
  cases hstep with
  | poll consumer waker =>
    rcases world.poll_cases consumer waker with ⟨item, buffer, -, heq⟩ | ⟨-, -, heq⟩ |
      ⟨-, -, id, next, ids, hid, heq⟩ <;> rw [heq]
    · exact (World.setHeld_ids _ _).ge
    · exact (World.setHeld_ids _ _).ge
    · change world.ids ≤ ids
      rcases hid with ⟨-, -, hids⟩ | ⟨-, -, -, hids⟩ <;> omega
  | pushOrBlock sender item =>
    let called : World φ ι T W :=
      { world with producers := world.producers ++ [⟨sender, item, .awake⟩] }
    have hids := @enter_ids φ ι T W called capacity world.producers.length item
    exact hids.ge
  | recheck call producer => exact (enter_ids call _).ge
  | _ => exact le_rfl

theorem consistent_of_reachable {creator : ι}
    (h : (streamSystem φ ι T W capacity creator).Reachable world) (hids : world.ids < 2 ^ 64) :
    Consistent world := by
  have hinvariant := World.invariant_of_step (P := fun world => world.ids < 2 ^ 64 →
    Consistent world) (fun _ => consistent_start creator)
    (fun world world' hworld hstep hids =>
      (hworld ((ids_le_of_step hstep).trans_lt hids)).step hids hstep) h
  exact hinvariant hids

omit [DecidableEq φ] [TaskWaker W] [DecidableEq ι] in
lemma leave_perm {waiters : List (ℕ × W)} (h : UniqueKeys waiters) (waiter : Option ℕ) :
    (leave waiter waiters).Perm (waiters.filter fun entry => waiter ≠ some entry.1) := by
  rcases waiter with _ | id
  · simp [leave]
  · simpa [leave, eq_comm] using swapRemoveEntry_perm id h

end Steps

/-- What it means in one world that no consumer misses its wakeup. -/
structure NoLostWakeup [TaskWaker W] [DecidableEq ι] (capacity : ℕ) (world : World φ ι T W) :
    Prop where
  /-- A waiting consumer has one entry, for its latest waker, beside an empty buffer of an open
  stream; or the entry was taken by a call that has called its waker or still has to. -/
  registered_or_taken : ∀ consumer waker, Waiting world.log consumer waker →
    ∃ id, world.held consumer = some id ∧
      ((∃ stored, (world.state.waiters.filter fun entry => entry.1 = id) = [(id, stored)] ∧
        willWake stored waker = true ∧ world.state.buffer = [] ∧ world.state.closed = false) ∨
      Taken world.log world.wakes consumer id waker)
  drops_own : ∀ future world', world.next capacity (.dropNext future) = some world' →
    world'.state.waiters.Perm
      (world.state.waiters.filter fun entry => world.waiter future ≠ some entry.1)
  completes_own : ∀ consumer waker item world',
    world.next capacity (.poll consumer waker) = some world' →
    world'.log = .polled consumer waker (.ready item) :: world.log →
    world'.state.waiters.Perm
      (world.state.waiters.filter fun entry => world.held consumer ≠ some entry.1)

/-- No wakeup of a consumer is lost in any reachable world, as long as no waiter number has been
given out twice. -/
theorem stream_loses_no_wakeup [TaskWaker W] [DecidableEq ι] {capacity : ℕ} {creator : ι}
    {world : World φ ι T W} (h : (streamSystem φ ι T W capacity creator).Reachable world)
    (hids : world.ids < 2 ^ 64) : NoLostWakeup capacity world := by
  have hworld := consistent_of_reachable h hids
  have hunique := hworld.enrolled.unique
  constructor
  case registered_or_taken =>
    intro consumer waker hwaiting
    rcases hworld.enrolled.served hwaiting with ⟨id, hheld, ⟨stored, hstored⟩ | htaken⟩
    · rcases hworld.enrolled.owned hstored with ⟨owner, waker', howner, howns, hwake⟩
      have hsame := hworld.numbered.held_injective howner hheld
      subst hsame
      rw [howns.waker_eq hwaiting] at hwake
      have hidle := hworld.idle (List.ne_nil_of_mem hstored)
      exact ⟨id, hheld, .inl ⟨stored, hunique.filter_eq_singleton hstored, hwake, hidle⟩⟩
    · exact ⟨id, hheld, .inr htaken⟩
  case drops_own =>
    intro future world' hnext
    rcases Option.ite_none_left_eq_some.mp hnext with ⟨-, hsome⟩
    rw [← Option.some.inj hsome]
    unfold World.dropNext
    rw [State.removeWaiter_snd]
    exact leave_perm hunique _
  case completes_own =>
    intro consumer waker item world' hnext hlog
    have hpolled : world' = world.poll consumer waker := by
      rcases consumer with future | _
      · exact (Option.some.inj (Option.ite_none_left_eq_some.mp hnext).2).symm
      · exact (Option.some.inj (Option.ite_none_left_eq_some.mp hnext).2).symm
    rcases world.poll_cases consumer waker with ⟨item', buffer, -, heq⟩ | ⟨-, -, heq⟩ |
      ⟨-, -, id, next, ids, -, heq⟩ <;> rw [hpolled, heq] at hlog ⊢
    · exact leave_perm hunique _
    · exact leave_perm hunique _
    · injection hlog with hevent
      injection hevent with _ _ hanswer
      cases hanswer

/-- Two futures wait, the second with a new waker; a push has their entries and wakes the
first. -/
theorem stream_loses_no_wakeup_two :
    let world := (System.replay (World.next 1) (World.start 0 : World ℕ ℕ ℕ RawWaker)
      [.poll (.next 0) ⟨1, 1⟩, .poll (.next 1) ⟨2, 1⟩, .poll (.next 1) ⟨3, 1⟩, .push 0 5,
        .wake 0]).get rfl
    NoLostWakeup 1 world :=
  stream_loses_no_wakeup (System.reachable_replay rfl) (by decide)

end DoomFishUtils.Stream
