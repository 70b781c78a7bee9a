import DoomFishUtils.JoinAll.Model
import Mathlib.Data.List.Basic

/-!
# The outputs of joined futures

Each poll of the joined future polls those that have not finished, in input order, and leaves each
slot with the state of its future after these polls or with its output.
-/

namespace DoomFishUtils.JoinAll

set_option autoImplicit false

open Library

variable {F E α : Type} {impl : Future F E α}

/-! ### One scan of the slots -/

section Scans

/-- What the loop does with the slot at an index, and the polls that it makes there. -/
inductive Slot.Step (impl : Future F E α) (index : ℕ) :
    Slot F α → List (FuturePoll E α) → Slot F α → Prop
  | done (output : α) : Step impl index (.done output) [] (.done output)
  | ready {future future' : F} {env env' : E} {output : α}
      (hpoll : impl.poll future env = (.ready output, future', env')) :
      Step impl index (.pending future) [⟨index, env, .ready output⟩] (.done output)
  | pending {future future' : F} {env env' : E}
      (hpoll : impl.poll future env = (.pending, future', env')) :
      Step impl index (.pending future) [⟨index, env, .pending⟩] (.pending future')

variable {slots : List (Slot F α)} {index : ℕ} {env : E} {done : Bool}

/-- One round of the loop, and the rest of it. -/
lemma pollLoop_cons (impl : Future F E α) (slot : Slot F α) (slots : List (Slot F α)) (index : ℕ)
    (env : E) (done : Bool) :
    ∃ (made : List (FuturePoll E α)) (slot' : Slot F α) (env' : E) (done' : Bool),
      slot.Step impl index made slot' ∧
      (done' = true ↔ done = true ∧ slot'.output.isSome = true) ∧
      pollLoop impl index (slot :: slots) env done =
        { pollLoop impl (index + 1) slots env' done' with
          slots := slot' :: (pollLoop impl (index + 1) slots env' done').slots
          polls := made ++ (pollLoop impl (index + 1) slots env' done').polls } := by
  rcases slot with future | output
  · rcases hpoll : impl.poll future env with ⟨output | _, future', env'⟩
    · refine ⟨_, _, impl.drop future' env', done, .ready hpoll, by simp [Slot.output], ?_⟩
      rw [pollLoop, hpoll]
      rfl
    · refine ⟨_, _, env', false, .pending hpoll, by simp [Slot.output], ?_⟩
      rw [pollLoop, hpoll]
      rfl
  · exact ⟨_, _, env, done, .done output, by simp [Slot.output], rfl⟩

lemma Slot.Step.map_index {slot slot' : Slot F α} {made : List (FuturePoll E α)}
    (h : slot.Step impl index made slot') :
    made.map FuturePoll.index = if slot.output.isNone then [index] else [] := by
  cases h <;> rfl

lemma Slot.Step.index_eq {slot slot' : Slot F α} {made : List (FuturePoll E α)}
    (h : slot.Step impl index made slot') {poll : FuturePoll E α} (hmem : poll ∈ made) :
    poll.index = index := by
  cases h with
  | done => cases hmem
  | ready => rw [List.mem_singleton.mp hmem]
  | pending => rw [List.mem_singleton.mp hmem]

lemma length_pollLoop : (pollLoop impl index slots env done).slots.length = slots.length := by
  induction slots generalizing index env done with
  | nil => rfl
  | cons slot slots ih =>
    obtain ⟨made, slot', env', done', -, -, heq⟩ :=
      pollLoop_cons impl slot slots index env done
    rw [heq, List.length_cons, List.length_cons, ih]

/-- The loop polls the futures that are pending, in order. -/
lemma map_index_pollLoop {p : ℕ → Bool}
    (hp : ∀ (j : ℕ) (slot : Slot F α), slots[j]? = some slot → p (index + j) = slot.output.isNone) :
    (pollLoop impl index slots env done).polls.map FuturePoll.index =
      (List.range' index slots.length).filter p := by
  induction slots generalizing index env done with
  | nil => rfl
  | cons slot slots ih =>
    obtain ⟨made, slot', env', done', hstep, -, heq⟩ :=
      pollLoop_cons impl slot slots index env done
    -- `p` is about the head at the start index and about the rest beyond it.
    have hhead : p index = slot.output.isNone := hp 0 slot rfl
    have hrest := @ih (index + 1) env' done' fun j other hj => by
      have hnext := hp (j + 1) other hj
      rwa [Nat.add_comm j, ← Nat.add_assoc] at hnext
    rw [heq, List.map_append, hrest, hstep.map_index, List.length_cons, List.range'_succ,
      List.filter_cons, hhead]
    split_ifs <;> rfl

lemma done_pollLoop : (pollLoop impl index slots env done).done = true ↔
    done = true ∧ ∀ slot ∈ (pollLoop impl index slots env done).slots,
      slot.output.isSome = true := by
  induction slots generalizing index env done with
  | nil => simp [pollLoop]
  | cons slot slots ih =>
    obtain ⟨made, slot', env', done', -, hdone, heq⟩ :=
      pollLoop_cons impl slot slots index env done
    rw [heq]
    dsimp only
    rw [ih, hdone, List.forall_mem_cons, and_assoc]

lemma le_index_of_mem_pollLoop {poll : FuturePoll E α}
    (hmem : poll ∈ (pollLoop impl index slots env done).polls) : index ≤ poll.index := by
  induction slots generalizing index env done with
  | nil => cases hmem
  | cons slot slots ih =>
    obtain ⟨made, slot', env', done', hstep, -, heq⟩ :=
      pollLoop_cons impl slot slots index env done
    rw [heq] at hmem
    rcases List.mem_append.mp hmem with hmade | hlater
    · exact Nat.le_of_eq (hstep.index_eq hmade).symm
    · exact Nat.le_of_succ_le (ih hlater)

/-- The loop goes through each slot once. -/
lemma pollLoop_slot (impl : Future F E α) (index : ℕ) (env : E) (done : Bool) {j : ℕ}
    {slot : Slot F α} (hj : slots[j]? = some slot) :
    ∃ slot', (pollLoop impl index slots env done).slots[j]? = some slot' ∧
      slot.Step impl (index + j) ((pollLoop impl index slots env done).polls.filter
        fun poll => poll.index == index + j) slot' := by
  induction slots generalizing index env done j with
  | nil => simp at hj
  | cons head slots ih =>
    obtain ⟨made, head', env', done', hstep, -, heq⟩ :=
      pollLoop_cons impl head slots index env done
    rw [heq]
    dsimp only
    rw [List.filter_append]
    cases j with
    | zero =>
      rw [List.getElem?_cons_zero, Option.some.injEq] at hj
      obtain rfl := hj
      refine ⟨head', rfl, ?_⟩
      have hmade : (made.filter fun poll => poll.index == index + 0) = made := by
        refine List.filter_eq_self.mpr fun poll hmem => ?_
        rw [hstep.index_eq hmem]
        exact beq_self_eq_true _
      -- The polls of the other slots have greater indices.
      have hlater : ((pollLoop impl (index + 1) slots env' done').polls.filter
          fun poll => poll.index == index + 0) = [] := by
        refine List.filter_eq_nil_iff.mpr fun poll hmem => ?_
        have hle := le_index_of_mem_pollLoop hmem
        rw [beq_iff_eq]
        omega
      rw [hmade, hlater, List.append_nil]
      exact hstep
    | succ j =>
      rw [List.getElem?_cons_succ] at hj
      obtain ⟨slot', hslot', hrest⟩ := ih (index + 1) env' done' hj
      refine ⟨slot', hslot', ?_⟩
      have hmade : (made.filter fun poll => poll.index == index + (j + 1)) = [] := by
        refine List.filter_eq_nil_iff.mpr fun poll hmem => ?_
        have heq' := hstep.index_eq hmem
        rw [beq_iff_eq]
        omega
      rw [hmade, List.nil_append]
      rwa [Nat.add_assoc, Nat.add_comm 1 j] at hrest

end Scans

/-! ### What a slot says about its future -/

section Tracking

/-- A slot after some polls of its future: the future as these leave it with no output yet, or the
output of one of them. -/
structure Tracks (impl : Future F E α) (future : F) (polls : List (FuturePoll E α))
    (slot : Slot F α) : Prop where
  answers : polls.map FuturePoll.answer = impl.answers future (polls.map FuturePoll.env)
  output : polls.findSome? FuturePoll.output = slot.output
  state : ∀ current, slot = .pending current →
    current = impl.after future (polls.map FuturePoll.env)

variable {future : F} {polls made : List (FuturePoll E α)} {slot slot' : Slot F α} {index : ℕ}

lemma tracks_nil (impl : Future F E α) (future : F) : Tracks impl future [] (.pending future) where
  answers := rfl
  output := rfl
  state current hcurrent := by
    cases hcurrent
    rfl

/-- One more poll of a future, in the state that the others have left. -/
lemma answers_snoc {poll : FuturePoll E α}
    (h : polls.map FuturePoll.answer = impl.answers future (polls.map FuturePoll.env))
    (hpoll : (impl.poll (impl.after future (polls.map FuturePoll.env)) poll.env).1 = poll.answer) :
    (polls ++ [poll]).map FuturePoll.answer =
      impl.answers future ((polls ++ [poll]).map FuturePoll.env) := by
  rw [List.map_append, List.map_append, Future.answers_append, h, List.map_singleton,
    List.map_singleton, Future.answers, hpoll]
  rfl

lemma Tracks.step (h : Tracks impl future polls slot) (hstep : slot.Step impl index made slot') :
    Tracks impl future (polls ++ made) slot' := by
  obtain ⟨hanswers, houtput, hstate⟩ := h
  cases hstep with
  | done output =>
    rw [List.append_nil]
    exact ⟨hanswers, houtput, hstate⟩
  | @ready current _ env _ output hpoll =>
    have hcurrent := hstate current rfl
    refine ⟨answers_snoc hanswers ?_, ?_, fun other hother => by cases hother⟩
    · rw [← hcurrent, hpoll]
    · rw [List.findSome?_append, houtput]
      rfl
  | @pending current _ env _ hpoll =>
    have hcurrent := hstate current rfl
    refine ⟨answers_snoc hanswers ?_, ?_, fun other hother => ?_⟩
    · rw [← hcurrent, hpoll]
    · rw [List.findSome?_append, houtput]
      rfl
    · cases hother
      rw [List.map_append, Future.after_append, ← hcurrent]
      simp [Future.after, hpoll]

end Tracking

/-! ### The polls of a joined future -/

/-- What a poll of the joined future does after the earlier ones: it polls once, in input order, the
futures that have no output yet.  It is the first to be ready, and it is ready exactly when every
future has an output, with the outputs in input order. -/
structure Collects (futures : List F) (round : Round E α) (earlier : List (Round E α)) : Prop where
  polled : round.polls.map FuturePoll.index =
    (List.range futures.length).filter fun i => (outputOf earlier i).isNone
  first : ∀ before ∈ earlier, before.answer = .pending
  ready_iff : (∃ outputs, round.answer = .ready outputs) ↔
    ∀ i < futures.length, (outputOf (round :: earlier) i).isSome = true
  outputs : ∀ outputs, round.answer = .ready outputs → outputs.length = futures.length ∧
    ∀ i < futures.length, outputs[i]? = outputOf (round :: earlier) i

section Runs

variable {futures : List F} {world world' : World F E α} {slots : List (Slot F α)}

lemma pollsOf_cons (round : Round E α) (rounds : List (Round E α)) (i : ℕ) :
    pollsOf (round :: rounds) i =
      pollsOf rounds i ++ round.polls.filter fun poll => poll.index == i := by
  unfold pollsOf
  rw [List.reverse_cons, List.flatMap_append, List.filter_append, List.flatMap_singleton]

/-- The filter at the end drops nothing when every slot has its output. -/
lemma getElem?_filterMap_output (h : ∀ slot ∈ slots, slot.output.isSome = true) (i : ℕ) :
    (slots.filterMap Slot.output)[i]? = slots[i]?.bind Slot.output := by
  induction slots generalizing i with
  | nil => rfl
  | cons slot slots ih =>
    rw [List.forall_mem_cons] at h
    obtain ⟨output, houtput⟩ := Option.isSome_iff_exists.mp h.1
    rw [List.filterMap_cons, houtput]
    cases i with
    | zero => exact houtput.symm
    | succ i => exact ih h.2 i

lemma length_filterMap_output (h : ∀ slot ∈ slots, slot.output.isSome = true) :
    (slots.filterMap Slot.output).length = slots.length := by
  rw [List.length_filterMap_eq_countP]
  exact List.countP_eq_length.mpr h

/-- Between two polls each slot stands for its future. -/
structure Represents (impl : Future F E α) (futures : List F) (slots : List (Slot F α))
    (rounds : List (Round E α)) : Prop where
  length_eq : slots.length = futures.length
  tracks : ∀ (i : ℕ) (future : F), futures[i]? = some future →
    ∃ slot, slots[i]? = some slot ∧ Tracks impl future (pollsOf rounds i) slot

structure Inv (impl : Future F E α) (futures : List F) (world : World F E α) : Prop where
  collects : Throughout (Collects futures) world.rounds
  answers : ∀ (i : ℕ) (future : F), futures[i]? = some future →
    (pollsOf world.rounds i).map FuturePoll.answer =
      impl.answers future ((pollsOf world.rounds i).map FuturePoll.env)
  represents : world.rounds.any Round.isReady = false →
    Represents impl futures world.join.slots world.rounds

section Rounds

variable {rounds : List (Round E α)}

/-- After a scan each slot stands for its future again. -/
lemma Represents.after_scan (h : Represents impl futures slots rounds) (env : E)
    (answer : Poll (List α)) :
    Represents impl futures (scan impl slots env).slots
      (⟨(scan impl slots env).polls, answer⟩ :: rounds) where
  length_eq := length_pollLoop.trans h.length_eq
  tracks i future hi := by
    obtain ⟨slot, hslot, htracks⟩ := h.tracks i future hi
    obtain ⟨slot', hslot', hstep⟩ := pollLoop_slot impl 0 env true hslot
    rw [Nat.zero_add] at hstep
    refine ⟨slot', hslot', ?_⟩
    rw [pollsOf_cons]
    exact htracks.step hstep

/-- The slots hold the outputs of the futures. -/
lemma Represents.output (h : Represents impl futures slots rounds) {i : ℕ}
    (hi : i < futures.length) : slots[i]?.bind Slot.output = outputOf rounds i := by
  obtain ⟨slot, hslot, htracks⟩ := h.tracks i _ (List.getElem?_eq_getElem hi)
  rw [hslot]
  exact htracks.output.symm

lemma Represents.lt_length (h : Represents impl futures slots rounds) {i : ℕ} {slot : Slot F α}
    (hi : slots[i]? = some slot) : i < futures.length := by
  rw [← h.length_eq]
  exact (List.getElem?_eq_some_iff.mp hi).1

lemma Represents.all_output (h : Represents impl futures slots rounds) :
    (∀ slot ∈ slots, slot.output.isSome = true) ↔
      ∀ i < futures.length, (outputOf rounds i).isSome = true := by
  constructor
  · intro hall i hi
    have hlt : i < slots.length := h.length_eq ▸ hi
    rw [← h.output hi, List.getElem?_eq_getElem hlt]
    exact hall _ (List.getElem_mem hlt)
  · intro hall slot hmem
    obtain ⟨i, hi⟩ := List.getElem?_of_mem hmem
    have houtput := hall i (h.lt_length hi)
    rwa [← h.output (h.lt_length hi), hi] at houtput

/-- A scan polls the futures that have no output. -/
lemma Represents.polled (h : Represents impl futures slots rounds) (env : E) :
    (scan impl slots env).polls.map FuturePoll.index =
      (List.range futures.length).filter fun i => (outputOf rounds i).isNone := by
  unfold scan
  rw [map_index_pollLoop (p := fun i => (outputOf rounds i).isNone), h.length_eq,
    List.range_eq_range']
  intro i slot hi
  rw [Nat.zero_add, ← h.output (h.lt_length hi), hi]
  rfl

/-- What a scan leads to: an answer that is pending as long as a slot is. -/
lemma Represents.collects (h : Represents impl futures slots rounds)
    (hfirst : ∀ before ∈ rounds, before.answer = .pending) (env : E) {answer : Poll (List α)}
    (hanswer : answer = if (scan impl slots env).done then
      .ready ((scan impl slots env).slots.filterMap Slot.output) else .pending) :
    Collects futures ⟨(scan impl slots env).polls, answer⟩ rounds := by
  have hafter := h.after_scan env answer
  have hdone : (scan impl slots env).done = true ↔
      ∀ slot ∈ (scan impl slots env).slots, slot.output.isSome = true :=
    done_pollLoop.trans (and_iff_right rfl)
  constructor
  case polled => exact h.polled env
  case first => exact hfirst
  case ready_iff =>
    rw [← hafter.all_output, ← hdone, hanswer]
    split_ifs with hall
    · exact iff_of_true ⟨_, rfl⟩ hall
    · exact iff_of_false (by rintro ⟨_, ⟨⟩⟩) hall
  case outputs =>
    intro outputs houtputs
    rw [hanswer] at houtputs
    split_ifs at houtputs with hall
    cases houtputs
    rw [hdone] at hall
    refine ⟨(length_filterMap_output hall).trans hafter.length_eq, fun i hi => ?_⟩
    rw [getElem?_filterMap_output hall]
    exact hafter.output hi

end Rounds

/-- The polls and the answer that `next` adds to the history. -/
lemma next_eq_some {env : E} (h : next impl world env = some world') :
    world.rounds.any Round.isReady = false ∧ ∃ answer : Poll (List α),
      (answer = if (scan impl world.join.slots env).done then
        .ready ((scan impl world.join.slots env).slots.filterMap Slot.output) else .pending) ∧
      world'.rounds = ⟨(scan impl world.join.slots env).polls, answer⟩ :: world.rounds ∧
      (answer = .pending → world'.join.slots = (scan impl world.join.slots env).slots) := by
  unfold next at h
  split_ifs at h with hready
  refine ⟨Bool.eq_false_iff.mpr hready, ?_⟩
  unfold poll at h
  cases h
  dsimp only
  rcases (scan impl world.join.slots env).done with _ | _
  · exact ⟨_, rfl, rfl, fun _ => rfl⟩
  · exact ⟨_, rfl, rfl, fun hpending => by cases hpending⟩

lemma Round.isReady_eq_false {round : Round E α} :
    round.isReady = false ↔ round.answer = .pending := by
  unfold Round.isReady
  rcases round.answer with outputs | _ <;> simp

/-- A poll of the joined future that finds none of the earlier ones ready. -/
lemma Inv.step (h : Inv impl futures world) {env : E} (hstep : next impl world env = some world') :
    Inv impl futures world' := by
  obtain ⟨hready, answer, hanswer, hrounds, hslots⟩ := next_eq_some hstep
  have hbefore := h.represents hready
  have hafter := hbefore.after_scan env answer
  have hfirst : ∀ before ∈ world.rounds, before.answer = .pending := fun before hmem =>
    Round.isReady_eq_false.mp (Bool.eq_false_iff.mpr (List.any_eq_false.mp hready before hmem))
  refine ⟨?_, ?_, ?_⟩ <;> rw [hrounds]
  · exact ⟨hbefore.collects hfirst env hanswer, h.collects⟩
  · intro i future hi
    obtain ⟨slot, -, htracks⟩ := hafter.tracks i future hi
    exact htracks.answers
  · intro hpending
    rw [List.any_cons, Bool.or_eq_false_iff] at hpending
    rw [hslots (Round.isReady_eq_false.mp hpending.1)]
    exact hafter

lemma inv_of_reachable (h : (joinSystem impl futures).Reachable world) :
    Inv impl futures world := by
  refine h.invariant ?_ fun world env world' hinv hstep => hinv.step hstep
  rintro world rfl
  refine ⟨trivial, fun i future _ => rfl, fun _ => ⟨List.length_map _, fun i future hi => ?_⟩⟩
  refine ⟨.pending future, ?_, tracks_nil impl future⟩
  change (futures.map Slot.pending)[i]? = _
  rw [List.getElem?_map, hi]
  rfl

end Runs

/-- However often and in whatever order the futures finish, each poll of the joined future polls
those that have not, once and in input order, and the first after which all have finished returns
their outputs in input order.  What each future has answered is what it answers to these polls. -/
theorem joinAll_collects (impl : Future F E α) (futures : List F) {world : World F E α}
    (hreach : (joinSystem impl futures).Reachable world) :
    (∀ (later earlier : List (Round E α)) (round : Round E α),
      world.rounds = later ++ round :: earlier → Collects futures round earlier) ∧
    ∀ (i : ℕ) (future : F), futures[i]? = some future →
      (pollsOf world.rounds i).map FuturePoll.answer =
        impl.answers future ((pollsOf world.rounds i).map FuturePoll.env) := by
  have h := inv_of_reachable hreach
  refine ⟨fun later earlier round hsplit => ?_, h.answers⟩
  have hcollects := h.collects
  rw [hsplit] at hcollects
  exact hcollects.of_split

/-- Futures that are pending a number of times and then return a value. -/
def countdown : Future (ℕ × Bool) ℕ Bool where
  poll future env :=
    match future with
    | (0, output) => (.ready output, (0, output), env + 1)
    | (n + 1, output) => (.pending, (n, output), env + 1)
  drop _ env := env

/-- The second future finishes first and the first one last. -/
theorem joinAll_collects_countdown :
    Collects [(2, true), (0, false), (1, true)]
      (⟨[⟨0, 20, .ready true⟩], .ready [true, false, true]⟩ : Round ℕ Bool)
      [⟨[⟨0, 10, .pending⟩, ⟨2, 11, .ready true⟩], .pending⟩,
        ⟨[⟨0, 0, .pending⟩, ⟨1, 1, .ready false⟩, ⟨2, 2, .pending⟩], .pending⟩] := by
  have hreplay : System.replay (next countdown)
      ⟨joinAll [(2, true), (0, false), (1, true)], []⟩ [0, 10, 20] =
      some ⟨⟨[]⟩, [⟨[⟨0, 20, .ready true⟩], .ready [true, false, true]⟩,
        ⟨[⟨0, 10, .pending⟩, ⟨2, 11, .ready true⟩], .pending⟩,
        ⟨[⟨0, 0, .pending⟩, ⟨1, 1, .ready false⟩, ⟨2, 2, .pending⟩], .pending⟩]⟩ := rfl
  exact (joinAll_collects countdown [(2, true), (0, false), (1, true)]
    (System.reachable_of_replay hreplay)).1 [] _ _ rfl

end DoomFishUtils.JoinAll
