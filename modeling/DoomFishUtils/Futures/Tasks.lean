import DoomFishUtils.Futures.Contract

/-!
# Tasks around futures

Every run of a task around a future that is built from leaves keeps each leaf in one place, uses none
after its end, and waits for its leaves with the waker of its latest poll.
-/

namespace DoomFishUtils.Futures

set_option autoImplicit false

open Library JoinAll

variable {ι W E F G S V α β : Type}

/-- The futures that are built from leaves, with the drops of their outputs and the leaves in them, as
in `Keeps`. -/
inductive Built : {F α : Type} → Impl ι W E F α → Glue ι W E α → (F → List ι) → (F → List ι) →
    (α → List ι) → Prop
  | leaf {S V : Type} (machine : Machine ι W E S V) :
      Built (leaf machine) plain (fun future => [future.id]) (fun future => [future.id]) fun _ => []
  | boxed {κ α : Type} {types : κ → Type} {impls : ∀ kind, Impl ι W E (types kind) α}
      {outputs : Glue ι W E α} {held active : ∀ kind, types kind → List ι} {given : α → List ι}
      [Nonempty κ] : (∀ kind, Built (impls kind) outputs (held kind) (active kind) given) →
      Built (boxed impls) outputs (fun box => held box.kind box.future)
        (fun box => active box.kind box.future) given
  | select {F G α β : Type} {A : Impl ι W E F α} {B : Impl ι W E G β} {outputsA : Glue ι W E α}
      {outputsB : Glue ι W E β} {heldA activeA : F → List ι} {heldB activeB : G → List ι}
      {givenA : α → List ι} {givenB : β → List ι} :
      Built A outputsA heldA activeA givenA → Built B outputsB heldB activeB givenB →
      Built (Select.impl A B) (Select.dropOutput A B outputsA outputsB) (Select.both heldA heldB)
        (Select.both activeA activeB) (Select.given heldA heldB givenA givenB)
  | joinAll {F α : Type} {A : Impl ι W E F α} {outputs : Glue ι W E α} {held active : F → List ι}
      {given : α → List ι} :
      Built A outputs held active given →
      Built (Join.impl A outputs) (Join.dropAll outputs)
        (fun join => join.slots.flatMap (Join.slotHeld held given))
        (fun join => join.slots.flatMap (Join.slotActive active)) fun items => items.flatMap given

variable {A : Impl ι W E F α} {B : Impl ι W E G β} {outputs : Glue ι W E α}
  {held active : F → List ι} {given : α → List ι}

lemma Built.keeps (h : Built A outputs held active given) :
    Keeps A held active given ∧ Drops outputs given := by
  induction h with
  | leaf machine => exact ⟨keeps_leaf machine, drops_plain⟩
  | @boxed κ _ _ _ _ _ _ _ _ _ ih =>
    exact ⟨keeps_boxed fun kind => (ih kind).1, (ih (Classical.arbitrary κ)).2⟩
  | select _ _ ihA ihB =>
    exact ⟨Select.keeps_impl ihA.1 ihB.1,
      Select.drops_dropOutput ihA.1.drop ihB.1.drop ihA.2 ihB.2⟩
  | joinAll _ ih => exact ⟨Join.keeps_impl ih.1 ih.2, Join.drops_dropAll ih.2⟩

/-- `now_or_never` drops every leaf that is not in the output. -/
lemma nowOrNever_phase (hA : Keeps A held active given) (noop : W) (future : F)
    (world : World ι W E) (hnodup : (held future).Nodup) :
    ∃ events, (nowOrNever A noop future world).2.log = events ++ world.log ∧
      custody.Phase (held future) events
        ((nowOrNever A noop future world).1.join.toList.flatMap given) [] := by
  rcases hA.poll future noop world hnodup with
    ⟨answer, after, world', events, hpoll, hlog, hturn⟩
  rcases hA.drop after world' with ⟨gone, hgone, hreleases⟩
  unfold nowOrNever
  rw [hpoll]
  refine ⟨gone ++ events, ?_, ?_⟩ <;> cases answer <;> dsimp only
  case refine_1.ready | refine_1.pending | refine_1.panicked =>
    rw [hgone, hlog, List.append_assoc]
  case refine_2.ready output =>
    rw [Option.join_some, Option.toList_some, List.flatMap_singleton]
    exact hturn.release hreleases
  case refine_2.pending => exact hturn.1.trans (hreleases.phase hturn.1.nodup_kept)
  case refine_2.panicked => exact hturn.trans (hreleases.phase hturn.nodup_kept)

/-- The leaves in a task. -/
def Stage.leaves (held : F → List ι) (given : α → List ι) : Stage W F α → List ι
  | .running future _ => held future
  | .ready output => given output
  | .dropped => []

structure Task.Inv (held active : F → List ι) (given : α → List ι) (before : List ι)
    (task : Task ι W E F α) : Prop where
  phase : custody.Phase before task.world.log (task.stage.leaves held given) []
  waits : ∀ future waker, task.stage = .running future (some waker) →
    active future ≠ [] ∧ Waits waker (active future) task.world.log

section Steps

variable {before : List ι} {task : Task ι W E F α}

lemma Task.Inv.poll (hA : Keeps A held active given) {future : F} {world : World ι W E}
    (h : custody.Phase before world.log (held future) []) (waker : W) :
    (Task.poll A future waker world).Inv held active given before := by
  rcases hA.poll future waker world h.nodup_kept with
    ⟨answer, after, world', events, hpoll, hlog, hturn⟩
  unfold Task.poll
  rw [hpoll]
  cases answer with
  | ready output =>
    rcases hA.drop after world' with ⟨gone, hgone, hreleases⟩
    refine ⟨?_, fun _ _ hstage => by cases hstage⟩
    change custody.Phase before (A.drop after world').log (given output) []
    rw [hgone, hlog, ← List.append_assoc]
    exact h.trans (hturn.release hreleases)
  | pending =>
    rcases hturn with ⟨hturn, hnonempty, hwaits⟩
    refine ⟨?_, fun _ _ hstage => ?_⟩
    · change custody.Phase before world'.log (held after) []
      rw [hlog]
      exact h.trans hturn
    · cases hstage
      refine ⟨hnonempty, ?_⟩
      change Waits waker (active after) world'.log
      rw [hlog]
      exact hwaits.append_right
  | panicked =>
    refine ⟨?_, fun _ _ hstage => by cases hstage⟩
    change custody.Phase before world'.log (held after) []
    rw [hlog]
    exact h.trans hturn

lemma Task.Inv.dropped {world world' : World ι W E} {leaves : List ι}
    (h : custody.Phase before world.log leaves [])
    (hdrop : ∃ events : List (Event ι W), world'.log = events ++ world.log ∧
      custody.Releases events leaves) :
    (⟨.dropped, world'⟩ : Task ι W E F α).Inv held active given before := by
  rcases hdrop with ⟨gone, hgone, hreleases⟩
  refine ⟨?_, fun _ _ hstage => by cases hstage⟩
  change custody.Phase before world'.log [] []
  rw [hgone]
  exact h.trans (hreleases.phase h.nodup_kept)

lemma Task.Inv.next (hA : Keeps A held active given) (houtputs : Drops outputs given)
    (h : task.Inv held active given before) {action : Action W E} {task' : Task ι W E F α}
    (hnext : task.next A outputs action = some task') : task'.Inv held active given before := by
  rcases task with ⟨_ | _ | _, world⟩ <;> cases action <;> cases hnext
  case running.poll future _ shared waker =>
    have hbefore : custody.Phase before ({ world with shared } : World ι W E).log (held future) [] :=
      h.phase
    exact Task.Inv.poll hA hbefore waker
  case running.drop future _ shared =>
    exact Task.Inv.dropped h.phase (hA.drop future { world with shared })
  case ready.drop output shared =>
    exact Task.Inv.dropped h.phase (houtputs output { world with shared })

lemma Task.inv_of_reachable (h : Built A outputs held active given) {future : F} {shared : E}
    (hnodup : (held future).Nodup) (hreach : (Task.runs A outputs future shared).Reachable task) :
    task.Inv held active given (held future) := by
  refine hreach.invariant ?_ fun _ _ _ hbefore hnext => hbefore.next h.keeps.1 h.keeps.2 hnext
  rintro _ rfl
  exact ⟨.refl hnodup, fun _ _ hstage => by cases hstage⟩

end Steps

/-- Leaves that are pending a number of times. -/
def countdown : Machine ℕ ℕ Unit ℕ ℕ where
  poll id state _ shared :=
    match state with
    | 0 => (.ready id, 0, shared)
    | rest + 1 => (.pending, rest, shared)
  drop _ _ shared := shared

/-- A `select` of a leaf and a `join_all`. -/
def race : Select (Leaf ℕ ℕ) (JoinAll (Leaf ℕ ℕ) ℕ) :=
  .new ⟨1, 2⟩ (joinAll [⟨2, 0⟩, ⟨3, 5⟩])

abbrev raceImpl : Impl ℕ ℕ Unit (Select (Leaf ℕ ℕ) (JoinAll (Leaf ℕ ℕ) ℕ))
    (Either (ℕ × JoinAll (Leaf ℕ ℕ) ℕ) (List ℕ × Leaf ℕ ℕ)) :=
  Select.impl (leaf countdown) (Join.impl (leaf countdown) plain)

abbrev raceOutputs : Glue ℕ ℕ Unit (Either (ℕ × JoinAll (Leaf ℕ ℕ) ℕ) (List ℕ × Leaf ℕ ℕ)) :=
  Select.dropOutput (leaf countdown) (Join.impl (leaf countdown) plain) plain (Join.dropAll plain)

abbrev joinHeld (join : JoinAll (Leaf ℕ ℕ) ℕ) : List ℕ :=
  join.slots.flatMap (Join.slotHeld (fun future => [future.id]) fun _ => [])

abbrev raceHeld : Select (Leaf ℕ ℕ) (JoinAll (Leaf ℕ ℕ) ℕ) → List ℕ :=
  Select.both (fun future => [future.id]) joinHeld

abbrev raceActive : Select (Leaf ℕ ℕ) (JoinAll (Leaf ℕ ℕ) ℕ) → List ℕ :=
  Select.both (fun future => [future.id]) fun join =>
    join.slots.flatMap (Join.slotActive fun future => [future.id])

abbrev raceGiven : Either (ℕ × JoinAll (Leaf ℕ ℕ) ℕ) (List ℕ × Leaf ℕ ℕ) → List ℕ :=
  Select.given (fun future => [future.id]) joinHeld (fun _ => []) fun items =>
    items.flatMap fun _ => []

lemma built_race : Built raceImpl raceOutputs raceHeld raceActive raceGiven :=
  .select (.leaf countdown) (.joinAll (.leaf countdown))

/-- Whatever leaves do, and whenever polls unwind or the task is dropped, each leaf is in one place: in
the task, or dropped once.  None is polled after it was ready or dropped, and those in the task, also
those in an output, are still to be ready. -/
theorem leaves_stay_in_one_place (h : Built A outputs held active given) {future : F} {shared : E}
    (hnodup : (held future).Nodup) {task : Task ι W E F α}
    (hreach : (Task.runs A outputs future shared).Reachable task) :
    (held future).Perm (task.stage.leaves held given ++ custody.released task.world.log) ∧
      custody.Orderly task.world.log ∧
      ∀ id ∈ task.stage.leaves held given, custody.Open task.world.log id := by
  have hphase := (Task.inv_of_reachable h hnodup hreach).phase
  have hperm := hphase.perm
  rw [List.append_nil] at hperm
  exact ⟨hperm, hphase.orderly, hphase.isOpen⟩

/-- The leaf is ready at the third poll and the `join_all` comes back. -/
theorem leaves_stay_in_one_place_race :
    let task := (System.replay (Task.next raceImpl raceOutputs) (Task.start race ())
      [.poll () 0, .poll () 1, .poll () 2]).get rfl
    (raceHeld race).Perm (task.stage.leaves raceHeld raceGiven ++
      custody.released task.world.log) ∧
      custody.Orderly task.world.log ∧
      ∀ id ∈ task.stage.leaves raceHeld raceGiven, custody.Open task.world.log id :=
  leaves_stay_in_one_place built_race (by decide) (System.reachable_replay rfl)

/-- A task whose latest poll was pending waits for at least one leaf, and the latest that has happened
to each leaf that it waits for is a pending poll with the waker of that poll. -/
theorem pending_waits_for_leaves (h : Built A outputs held active given) {future : F} {shared : E}
    (hnodup : (held future).Nodup) {task : Task ι W E F α}
    (hreach : (Task.runs A outputs future shared).Reachable task) {current : F} {waker : W}
    (hstage : task.stage = .running current (some waker)) :
    active current ≠ [] ∧ Waits waker (active current) task.world.log :=
  (Task.inv_of_reachable h hnodup hreach).waits current waker hstage

/-- After two polls the leaf and the `join_all`'s second future wait with the second waker. -/
theorem pending_waits_for_leaves_race :
    let task := (System.replay (Task.next raceImpl raceOutputs) (Task.start race ())
      [.poll () 0, .poll () 1]).get rfl
    let current : Select (Leaf ℕ ℕ) (JoinAll (Leaf ℕ ℕ) ℕ) :=
      ⟨some (⟨1, 0⟩, ⟨[.done 2, .pending ⟨3, 3⟩]⟩)⟩
    raceActive current ≠ [] ∧ Waits 1 (raceActive current) task.world.log :=
  pending_waits_for_leaves built_race (by decide) (System.reachable_replay rfl) rfl

/-! ### `join_all` where nothing unwinds -/

/-- A future that never unwinds, as one of those of `JoinAll`. -/
def Impl.calm (A : Impl ι W E F α) : Future F (W × World ι W E) α where
  poll future env :=
    match A.poll future env.1 env.2 with
    | (.ready output, future, world) => (.ready output, future, (env.1, world))
    | (.pending, future, world) | (.panicked, future, world) => (.pending, future, (env.1, world))
  drop future env := (env.1, A.drop future env.2)

lemma Join.pollLoop_calm (hcalm : ∀ future waker world,
    (A.poll future waker world).1.answer ≠ .panicked) (waker : W) (slots : List (Slot F α))
    (index : ℕ) (world : World ι W E) (done : Bool) :
    (JoinAll.pollLoop A.calm index slots (waker, world) done).env.1 = waker ∧
      Join.pollLoop A waker slots world done =
        ⟨some (JoinAll.pollLoop A.calm index slots (waker, world) done).done,
          (JoinAll.pollLoop A.calm index slots (waker, world) done).slots,
          (JoinAll.pollLoop A.calm index slots (waker, world) done).env.2⟩ := by
  induction slots generalizing index world done with
  | nil => exact ⟨rfl, rfl⟩
  | cons slot slots ih =>
    cases slot with
    | done output =>
      rcases ih (index + 1) world done with ⟨hwaker, heq⟩
      refine ⟨hwaker, ?_⟩
      unfold Join.pollLoop JoinAll.pollLoop
      rw [heq]
    | pending future =>
      have hpoll := hcalm future waker world
      unfold Join.pollLoop JoinAll.pollLoop Impl.calm
      dsimp only
      rcases hanswer : A.poll future waker world with ⟨_ | _ | _, future', world'⟩
      case ready output =>
        rcases ih (index + 1) (A.drop future' world') done with ⟨hwaker, heq⟩
        dsimp only
        rw [heq]
        exact ⟨hwaker, rfl⟩
      case pending =>
        rcases ih (index + 1) world' false with ⟨hwaker, heq⟩
        dsimp only
        rw [heq]
        exact ⟨hwaker, rfl⟩
      case panicked =>
        rw [hanswer] at hpoll
        exact absurd rfl hpoll

/-- Over futures that never unwind, `poll` is that of `JoinAll`. -/
lemma Join.poll_calm (hcalm : ∀ future waker world,
    (A.poll future waker world).1.answer ≠ .panicked) (join : JoinAll F α) (waker : W)
    (world : World ι W E) :
    Join.poll A join waker world =
      ((match (JoinAll.poll A.calm join (waker, world)).1 with
        | .ready outputs => .ready outputs
        | .pending => .pending),
        (JoinAll.poll A.calm join (waker, world)).2.1,
        (JoinAll.poll A.calm join (waker, world)).2.2.1.2) := by
  unfold Join.poll JoinAll.poll JoinAll.scan
  rw [(Join.pollLoop_calm hcalm waker join.slots 0 world true).2]
  dsimp only
  cases (JoinAll.pollLoop A.calm 0 join.slots (waker, world) true).done <;> rfl

/-! ### What `select` gives back -/

/-- A future after a number of pending polls. -/
inductive Pends (A : Impl ι W E F α) (future : F) : ℕ → F → Prop
  | zero : Pends A future 0 future
  | succ {n : ℕ} {before after : F} {waker : W} {world world' : World ι W E} :
      Pends A future n before → A.poll before waker world = (.pending, after, world') →
      Pends A future (n + 1) after

/-- A poll that is ready with an output. -/
def Finishes (A : Impl ι W E F α) (future : F) (output : α) : Prop :=
  ∃ waker world spent world', A.poll future waker world = (.ready output, spent, world')

/-- Where the two futures of a `select` are: both pending alike, or one has finished and the other is
as its pending polls have left it.  The left one is polled first. -/
def Select.Stands (A : Impl ι W E F α) (B : Impl ι W E G β) (left : F) (right : G) :
    Stage W (Select F G) (Either (α × G) (β × F)) → Prop
  | .running ⟨none⟩ waiting => waiting = none
  | .running ⟨some (left', right')⟩ _ => ∃ n, Pends A left n left' ∧ Pends B right n right'
  | .ready (.left (output, right')) =>
    ∃ n left', Pends A left n left' ∧ Finishes A left' output ∧ Pends B right n right'
  | .ready (.right (output, left')) =>
    ∃ n right', Pends A left (n + 1) left' ∧ Pends B right n right' ∧ Finishes B right' output
  | .dropped => True

lemma Select.Stands.poll {left : F} {right : G} {select : Select F G} {waiting : Option W}
    (h : Select.Stands A B left right (.running select waiting)) (waker : W) (world : World ι W E) :
    Select.Stands A B left right (Task.poll (Select.impl A B) select waker world).stage := by
  rcases select with ⟨_ | ⟨left', right'⟩⟩
  · rfl
  rcases h with ⟨n, hleft, hright⟩
  have hpoll : (Select.impl A B).poll ⟨some (left', right')⟩ waker world =
      Select.poll A B ⟨some (left', right')⟩ waker world := rfl
  rw [Task.poll, hpoll, Select.poll]
  dsimp only
  rcases hA : A.poll left' waker world with ⟨_ | _ | _, left'', world'⟩
  case ready output => exact ⟨n, left', hleft, ⟨_, _, _, _, hA⟩, hright⟩
  case panicked => rfl
  case pending =>
    dsimp only
    rcases hB : B.poll right' waker world' with ⟨_ | _ | _, right'', world''⟩
    case ready output => exact ⟨n, right', hleft.succ hA, hright, ⟨_, _, _, _, hB⟩⟩
    case panicked => rfl
    case pending => exact ⟨n + 1, hleft.succ hA, hright.succ hB⟩

lemma Select.Stands.next {outputs : Glue ι W E (Either (α × G) (β × F))} {left : F} {right : G}
    {task task' : Task ι W E (Select F G) (Either (α × G) (β × F))} {action : Action W E}
    (h : Select.Stands A B left right task.stage)
    (hnext : task.next (Select.impl A B) outputs action = some task') :
    Select.Stands A B left right task'.stage := by
  rcases task with ⟨_ | _ | _, world⟩ <;> cases action <;> cases hnext
  case running.poll select _ shared waker => exact h.poll waker _
  case running.drop => trivial
  case ready.drop => trivial

/-- In every run of a task around a `select` the future that does not win comes back exactly as its
polls have left it, all of them pending and as many as the winner had before it finished, one more if
the right one wins. -/
theorem select_gives_back_loser {outputs : Glue ι W E (Either (α × G) (β × F))} {left : F} {right : G}
    {shared : E} {task : Task ι W E (Select F G) (Either (α × G) (β × F))}
    (hreach : (Task.runs (Select.impl A B) outputs (Select.new left right) shared).Reachable task) :
    Select.Stands A B left right task.stage := by
  refine hreach.invariant (P := fun task => Select.Stands A B left right task.stage) ?_
    fun _ _ _ hbefore hnext => hbefore.next hnext
  rintro _ rfl
  exact ⟨0, .zero, .zero⟩

theorem select_gives_back_loser_race :
    let task := (System.replay (Task.next raceImpl raceOutputs) (Task.start race ())
      [.poll () 0, .poll () 1, .poll () 2]).get rfl
    Select.Stands (leaf countdown) (Join.impl (leaf countdown) plain) ⟨1, 2⟩
      (joinAll [⟨2, 0⟩, ⟨3, 5⟩]) task.stage :=
  select_gives_back_loser (System.reachable_replay rfl)

end DoomFishUtils.Futures
