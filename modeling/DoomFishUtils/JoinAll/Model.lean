import DoomFishUtils.Library.History
import DoomFishUtils.Library.Transition
import DoomFishUtils.Waker

/-!
# Joining futures

The source's `join_all` and the future it returns.  The futures it joins are any state machines;
every poll of one of them is logged with what it answered.
-/

namespace DoomFishUtils

set_option autoImplicit false

/-- An implementation of `Future`.  `E` is what a poll can see and change beside the future: its
context and whatever else the future can reach. -/
structure Future (F E α : Type) where
  poll : F → E → Poll α × F × E
  drop : F → E → E

namespace Future

variable {F E α : Type}

/-- What a future answers when it is polled time and again. -/
def answers (impl : Future F E α) : F → List E → List (Poll α)
  | _, [] => []
  | future, env :: envs => (impl.poll future env).1 :: impl.answers (impl.poll future env).2.1 envs

/-- The state in which these polls leave the future. -/
def after (impl : Future F E α) : F → List E → F
  | future, [] => future
  | future, env :: envs => impl.after (impl.poll future env).2.1 envs

variable (impl : Future F E α)

lemma answers_append (future : F) (first second : List E) :
    impl.answers future (first ++ second) =
      impl.answers future first ++ impl.answers (impl.after future first) second := by
  induction first generalizing future with
  | nil => rfl
  | cons env first ih => exact congrArg (_ :: ·) (ih _)

lemma after_append (future : F) (first second : List E) :
    impl.after future (first ++ second) = impl.after (impl.after future first) second := by
  induction first generalizing future with
  | nil => rfl
  | cons env first ih => exact ih _

end Future

namespace JoinAll

inductive Slot (F α : Type) where
  | pending (future : F)
  | done (output : α)

/-- A poll of the future at an index. -/
structure FuturePoll (E α : Type) where
  index : ℕ
  env : E
  answer : Poll α

/-- What the loop of `poll` leaves: the slots, `done`, and the polls it has made, in order. -/
structure Scan (F E α : Type) where
  slots : List (Slot F α)
  env : E
  done : Bool
  polls : List (FuturePoll E α)

end JoinAll

/-- The source's future; `slots` is its vector. -/
structure JoinAll (F α : Type) where
  slots : List (JoinAll.Slot F α)

def joinAll {F α : Type} (futures : List F) : JoinAll F α where
  slots := futures.map .pending

namespace JoinAll

variable {F E α : Type}

/-- The loop of `poll` from the slot at an index on. -/
def pollLoop (impl : Future F E α) : ℕ → List (Slot F α) → E → Bool → Scan F E α
  | _, [], env, done => ⟨[], env, done, []⟩
  | index, .pending future :: slots, env, done =>
    match impl.poll future env with
    | (.ready output, future, env') =>
      -- the future is dropped when its slot is overwritten
      let rest := pollLoop impl (index + 1) slots (impl.drop future env') done
      { rest with
        slots := .done output :: rest.slots
        polls := ⟨index, env, .ready output⟩ :: rest.polls }
    | (.pending, future, env') =>
      let rest := pollLoop impl (index + 1) slots env' false
      { rest with
        slots := .pending future :: rest.slots
        polls := ⟨index, env, .pending⟩ :: rest.polls }
  | index, .done output :: slots, env, done =>
    let rest := pollLoop impl (index + 1) slots env done
    { rest with slots := .done output :: rest.slots }

/-- The loop over all slots, with `done` set at its start. -/
def scan (impl : Future F E α) (slots : List (Slot F α)) (env : E) : Scan F E α :=
  pollLoop impl 0 slots env true

def Slot.output : Slot F α → Option α
  | .done output => some output
  | .pending _ => none

/-- What `poll` answers, the future and the environment it leaves, and the polls it makes. -/
def poll (impl : Future F E α) (join : JoinAll F α) (env : E) :
    Poll (List α) × JoinAll F α × E × List (FuturePoll E α) :=
  let last := scan impl join.slots env
  if !last.done then (.pending, ⟨last.slots⟩, last.env, last.polls)
  else (.ready (last.slots.filterMap Slot.output), ⟨[]⟩, last.env, last.polls)

/-! ### Polling until it is ready -/

/-- A poll of the joined future. -/
structure Round (E α : Type) where
  polls : List (FuturePoll E α)
  answer : Poll (List α)

/-- The joined future and its polls so far, latest first. -/
structure World (F E α : Type) where
  join : JoinAll F α
  rounds : List (Round E α)

def Round.isReady (round : Round E α) : Bool :=
  match round.answer with
  | .ready _ => true
  | .pending => false

/-- A poll in any environment, unless an earlier one was ready. -/
def next (impl : Future F E α) (world : World F E α) (env : E) : Option (World F E α) :=
  if world.rounds.any Round.isReady then none
  else
    let result := world.join.poll impl env
    some ⟨result.2.1, ⟨result.2.2.2, result.1⟩ :: world.rounds⟩

/-- The polls of the future that joins these. -/
def joinSystem (impl : Future F E α) (futures : List F) :
    Library.System (World F E α) E :=
  .ofNext ⟨joinAll futures, []⟩ (next impl)

/-- The polls of the future at an index, oldest first. -/
def pollsOf (rounds : List (Round E α)) (index : ℕ) : List (FuturePoll E α) :=
  (rounds.reverse.flatMap Round.polls).filter fun poll => poll.index == index

def FuturePoll.output (poll : FuturePoll E α) : Option α :=
  match poll.answer with
  | .ready output => some output
  | .pending => none

/-- The output of the future at an index, once one of its polls was ready. -/
def outputOf (rounds : List (Round E α)) (index : ℕ) : Option α :=
  (pollsOf rounds index).findSome? FuturePoll.output

end JoinAll

end DoomFishUtils
