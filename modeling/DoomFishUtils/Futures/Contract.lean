import DoomFishUtils.Futures.Model
import DoomFishUtils.Library.Custody

/-!
# What futures do to their leaves

The contract of a future about the leaves in it: where they are after a poll, and which of them a
pending poll has left waiting with its waker.  Leaves keep to it, and `boxed`, `select` and
`join_all` keep to it over futures that do.
-/

namespace DoomFishUtils.Futures

set_option autoImplicit false

open Library JoinAll

variable {ι W E F G S V α β : Type}

def Event.leaf : Event ι W → ι
  | .polled leaf _ _ => leaf
  | .dropped leaf => leaf

/-- A leaf ends when it is ready or dropped. -/
def Event.ends : Event ι W → Bool
  | .polled _ _ answer => answer == .ready
  | .dropped _ => true

def Event.drops : Event ι W → Bool
  | .polled _ _ _ => false
  | .dropped _ => true

def custody : Custody ι (Event ι W) :=
  ⟨Event.leaf, Event.ends, Event.drops⟩

/-- The drop of a value drops the leaves that it holds. -/
def Drops (glue : Glue ι W E α) (held : α → List ι) : Prop :=
  ∀ value world, ∃ events : List (Event ι W),
    (glue value world).log = events ++ world.log ∧ custody.Releases events (held value)

/-- The latest that has happened to each of these leaves is a pending poll with this waker. -/
def Waits (waker : W) (leaves : List ι) (events : List (Event ι W)) : Prop :=
  ∀ id ∈ leaves, ∃ earlier later, events = later ++ .polled id waker .pending :: earlier ∧
    ∀ event ∈ later, event.leaf ≠ id

section Waiting

variable {waker : W} {leaves other : List ι} {events earlier later : List (Event ι W)}

/-- Events about other leaves. -/
lemma Waits.append_left (h : Waits waker leaves events)
    (hlater : ∀ event ∈ later, event.leaf ∉ leaves) : Waits waker leaves (later ++ events) := by
  intro id hid
  rcases h id hid with ⟨before, after, rfl, hafter⟩
  refine ⟨before, later ++ after, (List.append_assoc _ _ _).symm, fun event hmem heq => ?_⟩
  rcases List.mem_append.mp hmem with hmem | hmem
  · exact hlater event hmem (heq ▸ hid)
  · exact hafter event hmem heq

lemma Waits.append_right (h : Waits waker leaves events) : Waits waker leaves (events ++ earlier) := by
  intro id hid
  rcases h id hid with ⟨before, after, rfl, hafter⟩
  exact ⟨before ++ earlier, after, by rw [List.append_assoc, List.cons_append], hafter⟩

lemma Waits.union (h : Waits waker leaves events) (h' : Waits waker other events) :
    Waits waker (leaves ++ other) events := by
  intro id hid
  rcases List.mem_append.mp hid with hid | hid
  · exact h id hid
  · exact h' id hid

end Waiting

/-- What a poll that has found these leaves has done to them, by its answer and the future after
it. -/
def Turn (held active : F → List ι) (given : α → List ι) (waker : W) (before : List ι)
    (events : List (Event ι W)) (after : F) : Polled α → Prop
  | .ready output => custody.Phase before events (given output) (held after)
  | .pending => custody.Phase before events (held after) [] ∧ active after ≠ [] ∧
      Waits waker (active after) events
  | .panicked => custody.Phase before events (held after) []

/-- The contract: `held` are the leaves in a future, `active` those among them that its next poll
polls, and `given` those in an output. -/
structure Keeps (A : Impl ι W E F α) (held active : F → List ι) (given : α → List ι) : Prop where
  drop : Drops A.drop held
  active_subset : ∀ future, active future ⊆ held future
  poll : ∀ (future : F) (waker : W) (world : World ι W E), (held future).Nodup →
    ∃ answer after world' events, A.poll future waker world = (answer, after, world') ∧
      world'.log = events ++ world.log ∧
      Turn held active given waker (held future) events after answer

/-- The drop of one value after that of another. -/
lemma Drops.then {glueA : Glue ι W E α} {glueB : Glue ι W E β} {heldA : α → List ι}
    {heldB : β → List ι} (hA : Drops glueA heldA) (hB : Drops glueB heldB) (a : α) (b : β)
    (world : World ι W E) : ∃ events : List (Event ι W),
      (glueB b (glueA a world)).log = events ++ world.log ∧
        custody.Releases events (heldA a ++ heldB b) := by
  rcases hA a world with ⟨first, hfirst, hreleases⟩
  rcases hB b (glueA a world) with ⟨second, hsecond, hreleases'⟩
  refine ⟨second ++ first, ?_, (hreleases'.append hreleases).perm_gone List.perm_append_comm⟩
  rw [hsecond, hfirst, List.append_assoc]

/-! ### Leaves and boxes -/

lemma releases_nil : (custody : Custody ι (Event ι W)).Releases [] [] where
  releases _ hmem := by cases hmem
  perm := .refl _

lemma drops_plain : Drops (plain : Glue ι W E V) fun _ => [] :=
  fun _ _ => ⟨[], rfl, releases_nil⟩

lemma phase_polled {id : ι} (waker : W) {answer : Answer} (h : answer ≠ .ready) :
    custody.Phase [id] [Event.polled id waker answer] [id] [] where
  nodup := List.nodup_singleton id
  frame event hmem := by
    rw [List.mem_singleton.mp hmem]
    exact List.mem_singleton_self id
  perm := .refl _
  orderly := Custody.orderly_singleton _
  isOpen _ _ event hmem _ := by
    rw [List.mem_singleton.mp hmem]
    exact beq_false_of_ne h

lemma phase_ready {id : ι} (waker : W) :
    custody.Phase [id] [Event.polled id waker .ready] [] [id] where
  nodup := List.nodup_singleton id
  frame event hmem := by
    rw [List.mem_singleton.mp hmem]
    exact List.mem_singleton_self id
  perm := .refl _
  orderly := Custody.orderly_singleton _
  isOpen _ hid := by cases hid

lemma keeps_leaf (machine : Machine ι W E S V) :
    Keeps (leaf machine) (fun future => [future.id]) (fun future => [future.id]) fun _ => [] where
  drop future world := by
    refine ⟨[.dropped future.id], rfl, ⟨fun event hmem => ?_, .refl _⟩⟩
    rw [List.mem_singleton.mp hmem]
    rfl
  active_subset _ := List.Subset.refl _
  poll future waker world _ := by
    rcases hpoll : machine.poll future.id future.state waker world.shared with
      ⟨answer, state, shared⟩
    refine ⟨answer, ⟨future.id, state⟩, ⟨shared, .polled future.id waker answer.answer :: world.log⟩,
      [.polled future.id waker answer.answer], ?_, rfl, ?_⟩
    · change Leaf.poll machine future waker world = _
      rw [Leaf.poll, hpoll]
    · cases answer with
      | ready => exact phase_ready waker
      | pending =>
        refine ⟨phase_polled waker (fun h => by cases h), List.cons_ne_nil _ _, fun id hid => ?_⟩
        rw [List.mem_singleton.mp hid]
        refine ⟨[], [], rfl, fun _ hmem => ?_⟩
        cases hmem
      | panicked => exact phase_polled waker fun h => by cases h

lemma keeps_boxed {κ : Type} {types : κ → Type} {impls : ∀ kind, Impl ι W E (types kind) α}
    {held active : ∀ kind, types kind → List ι} {given : α → List ι}
    (h : ∀ kind, Keeps (impls kind) (held kind) (active kind) given) :
    Keeps (boxed impls) (fun box => held box.kind box.future)
      (fun box => active box.kind box.future) given where
  drop box world := (h box.kind).drop box.future world
  active_subset box := (h box.kind).active_subset box.future
  poll box waker world hnodup := by
    rcases (h box.kind).poll box.future waker world hnodup with
      ⟨answer, future, world', events, hpoll, hlog, hturn⟩
    refine ⟨answer, ⟨box.kind, future⟩, world', events, ?_, hlog, ?_⟩
    · change BoxFuture.poll impls box waker world = _
      rw [BoxFuture.poll, hpoll]
    · cases answer <;> exact hturn

/-! ### `select` -/

namespace Select

variable {A : Impl ι W E F α} {B : Impl ι W E G β} {heldA activeA : F → List ι}
  {heldB activeB : G → List ι} {givenA : α → List ι} {givenB : β → List ι}

/-- The leaves in a pair of futures. -/
def both (leavesA : F → List ι) (leavesB : G → List ι) (select : Select F G) : List ι :=
  match select.futures with
  | none => []
  | some (left, right) => leavesA left ++ leavesB right

/-- The leaves in an output. -/
def given (heldA : F → List ι) (heldB : G → List ι) (givenA : α → List ι) (givenB : β → List ι) :
    Either (α × G) (β × F) → List ι
  | .left (output, right) => givenA output ++ heldB right
  | .right (output, left) => givenB output ++ heldA left

lemma drops_dropOutput {outputsA : Glue ι W E α} {outputsB : Glue ι W E β}
    (hA : Drops A.drop heldA) (hB : Drops B.drop heldB) (houtA : Drops outputsA givenA)
    (houtB : Drops outputsB givenB) :
    Drops (dropOutput A B outputsA outputsB) (given heldA heldB givenA givenB) := by
  rintro (⟨output, right⟩ | ⟨output, left⟩) world
  · exact houtA.then hB output right world
  · exact houtB.then hA output left world

lemma drops_drop (hA : Drops A.drop heldA) (hB : Drops B.drop heldB) :
    Drops (drop A B) (both heldA heldB) := by
  rintro ⟨_ | ⟨left, right⟩⟩ world
  · exact ⟨[], rfl, releases_nil⟩
  · exact hA.then hB left right world

lemma keeps_impl (hA : Keeps A heldA activeA givenA) (hB : Keeps B heldB activeB givenB) :
    Keeps (impl A B) (both heldA heldB) (both activeA activeB)
      (given heldA heldB givenA givenB) where
  drop := drops_drop hA.drop hB.drop
  active_subset := by
    rintro ⟨_ | ⟨left, right⟩⟩
    · exact List.Subset.refl []
    · exact List.append_subset.mpr
        ⟨List.subset_append_of_subset_left _ (hA.active_subset left),
          List.subset_append_of_subset_right _ (hB.active_subset right)⟩
  poll := by
    rintro ⟨_ | ⟨left, right⟩⟩ waker world hnodup
    · exact ⟨.panicked, ⟨none⟩, world, [], rfl, rfl, .refl hnodup⟩
    change (heldA left ++ heldB right).Nodup at hnodup
    change ∃ answer after world' events, poll A B ⟨some (left, right)⟩ waker world = _ ∧ _
    rcases List.nodup_append.mp hnodup with ⟨hnodupA, hnodupB, -⟩
    rcases hA.poll left waker world hnodupA with
      ⟨answer, left', world', first, hpoll, hlog, hturn⟩
    unfold poll
    dsimp only
    rw [hpoll]
    cases answer with
    | ready output =>
      rcases hA.drop left' world' with ⟨gone, hgone, hreleases⟩
      refine ⟨_, _, _, gone ++ first, rfl, ?_, (hturn.release hreleases).beside hnodup⟩
      rw [hgone, hlog, List.append_assoc]
    | panicked =>
      rcases hB.drop.then hA.drop right left' world' with ⟨gone, hgone, hreleases⟩
      have hphase := hturn.beside hnodup
      refine ⟨_, _, _, gone ++ first, rfl, ?_, hphase.trans
        ((hreleases.perm_gone List.perm_append_comm).phase hphase.nodup_kept)⟩
      rw [hgone, hlog, List.append_assoc]
    | pending =>
      rcases hturn with ⟨hturn, hnonempty, hwaits⟩
      have hphase := hturn.beside hnodup
      rcases hB.poll right waker world' hnodupB with
        ⟨answer, right', world'', second, hpoll', hlog', hturn'⟩
      dsimp only
      rw [hpoll']
      cases answer with
      | ready output =>
        rcases hB.drop right' world'' with ⟨gone, hgone, hreleases⟩
        have hphase' := (hturn'.release hreleases).beside_left hphase.nodup_kept
        refine ⟨_, _, _, gone ++ second ++ first, rfl, ?_,
          (hphase.trans hphase').perm_kept List.perm_append_comm⟩
        rw [hgone, hlog', hlog, List.append_assoc, List.append_assoc]
      | panicked =>
        rcases hB.drop.then hA.drop right' left' world'' with ⟨gone, hgone, hreleases⟩
        have hphase' := hphase.trans (hturn'.beside_left hphase.nodup_kept)
        refine ⟨_, _, _, gone ++ (second ++ first), rfl, ?_, hphase'.trans
          ((hreleases.perm_gone List.perm_append_comm).phase hphase'.nodup_kept)⟩
        rw [hgone, hlog', hlog, List.append_assoc, List.append_assoc]
      | pending =>
        rcases hturn' with ⟨hturn', -, hwaits'⟩
        refine ⟨_, _, _, second ++ first, rfl, by rw [hlog', hlog, List.append_assoc],
          hphase.trans (hturn'.beside_left hphase.nodup_kept),
          fun hnil => hnonempty (List.append_eq_nil_iff.mp hnil).1, ?_⟩
        have hother : ∀ event ∈ second, event.leaf ∉ activeA left' := by
          intro event hmem hleft
          exact (List.nodup_append.mp hphase.nodup_kept).2.2 _ (hA.active_subset left' hleft) _
            (hturn'.frame event hmem) rfl
        exact (hwaits.append_left hother).union hwaits'.append_right

end Select

/-! ### `join_all` -/

namespace Join

variable {A : Impl ι W E F α} {outputs : Glue ι W E α} {held active : F → List ι}
  {given : α → List ι}

/-- The leaves in a slot. -/
def slotHeld (held : F → List ι) (given : α → List ι) : Slot F α → List ι
  | .pending future => held future
  | .done output => given output

/-- The leaves in a slot that the next poll polls. -/
def slotActive (active : F → List ι) : Slot F α → List ι
  | .pending future => active future
  | .done _ => []

lemma drops_dropAll {glue : Glue ι W E α} (h : Drops glue given) :
    Drops (dropAll glue) fun items => items.flatMap given := by
  intro items
  induction items with
  | nil => exact fun _ => ⟨[], rfl, releases_nil⟩
  | cons item items ih =>
    intro world
    rcases h item world with ⟨first, hfirst, hreleases⟩
    rcases ih (glue item world) with ⟨second, hsecond, hreleases'⟩
    refine ⟨second ++ first, ?_, (hreleases'.append hreleases).perm_gone List.perm_append_comm⟩
    rw [List.append_assoc, ← hfirst]
    exact hsecond

lemma drops_dropSlot (h : Drops A.drop held) (houtputs : Drops outputs given) :
    Drops (dropSlot A outputs) (slotHeld held given)
  | .pending future, world => h future world
  | .done output, world => houtputs output world

/-- What the loop of `poll` has done to the leaves in its slots. -/
structure Looped (held active : F → List ι) (given : α → List ι) (waker : W)
    (slots : List (Slot F α)) (done : Bool) (scan : Scan ι W E F α) (events : List (Event ι W)) :
    Prop where
  phase : custody.Phase (slots.flatMap (slotHeld held given)) events
    (scan.slots.flatMap (slotHeld held given)) []
  waits : scan.done.isSome = true → Waits waker (scan.slots.flatMap (slotActive active)) events
  finished : scan.done = some true →
    done = true ∧ ∀ slot ∈ scan.slots, slot.output.isSome = true
  unfinished : scan.done = some false →
    done = false ∨ scan.slots.flatMap (slotActive active) ≠ []

lemma pollLoop_looped (hA : Keeps A held active given) (waker : W) (slots : List (Slot F α))
    (world : World ι W E) (done : Bool)
    (hnodup : (slots.flatMap (slotHeld held given)).Nodup) :
    ∃ events, (pollLoop A waker slots world done).world.log = events ++ world.log ∧
      Looped held active given waker slots done (pollLoop A waker slots world done) events := by
  induction slots generalizing world done with
  | nil =>
    refine ⟨[], rfl, .refl hnodup, fun _ id hid => ?_, fun hdone => ⟨?_, fun slot hslot => ?_⟩,
      fun hdone => .inl ?_⟩
    · cases hid
    · exact Option.some.inj hdone
    · cases hslot
    · exact Option.some.inj hdone
  | cons slot slots ih =>
    rw [List.flatMap_cons] at hnodup
    rcases List.nodup_append.mp hnodup with ⟨hnodup₁, hnodup₂, -⟩
    cases slot with
    | done output =>
      rcases ih world done hnodup₂ with ⟨events, hlog, hlooped⟩
      refine ⟨events, hlog, hlooped.phase.beside_left hnodup, hlooped.waits, fun hdone => ?_,
        hlooped.unfinished⟩
      rcases hlooped.finished hdone with ⟨hstart, hall⟩
      exact ⟨hstart, List.forall_mem_cons.mpr ⟨rfl, hall⟩⟩
    | pending future =>
      rcases hA.poll future waker world hnodup₁ with
        ⟨answer, future', world', first, hpoll, hlog, hturn⟩
      unfold pollLoop
      rw [hpoll]
      cases answer with
      | ready output =>
        rcases hA.drop future' world' with ⟨gone, hgone, hreleases⟩
        have hphase := (hturn.release hreleases).beside hnodup
        rcases ih (A.drop future' world') done hnodup₂ with ⟨second, hsecond, hlooped⟩
        refine ⟨second ++ (gone ++ first), ?_, ?_, fun hdone => (hlooped.waits hdone).append_right,
          fun hdone => ?_, hlooped.unfinished⟩
        · rw [List.append_assoc, List.append_assoc, ← hlog, ← hgone]
          exact hsecond
        · exact hphase.trans (hlooped.phase.beside_left hphase.nodup_kept)
        · rcases hlooped.finished hdone with ⟨hstart, hall⟩
          exact ⟨hstart, List.forall_mem_cons.mpr ⟨rfl, hall⟩⟩
      | pending =>
        rcases hturn with ⟨hturn, hnonempty, hwaits⟩
        have hphase := hturn.beside hnodup
        rcases ih world' false hnodup₂ with ⟨second, hsecond, hlooped⟩
        refine ⟨second ++ first, ?_, hphase.trans (hlooped.phase.beside_left hphase.nodup_kept),
          fun hdone => ?_, fun hdone => ?_, fun _ => .inr fun hnil => ?_⟩
        · rw [List.append_assoc, ← hlog]
          exact hsecond
        · have hother : ∀ event ∈ second, event.leaf ∉ active future' := by
            intro event hmem hleft
            exact (List.nodup_append.mp hphase.nodup_kept).2.2 _
              (hA.active_subset future' hleft) _ (hlooped.phase.frame event hmem) rfl
          exact (hwaits.append_left hother).union (hlooped.waits hdone).append_right
        · cases (hlooped.finished hdone).1
        · exact hnonempty (List.append_eq_nil_iff.mp hnil).1
      | panicked =>
        refine ⟨first, hlog, hturn.beside hnodup, fun hdone => ?_, fun hdone => ?_,
          fun hdone => ?_⟩ <;> cases hdone

/-- Once all slots are done their outputs hold what the slots hold. -/
lemma given_outputs {slots : List (Slot F α)}
    (h : ∀ slot ∈ slots, slot.output.isSome = true) :
    slots.flatMap (slotHeld held given) = (slots.filterMap Slot.output).flatMap given := by
  induction slots with
  | nil => rfl
  | cons slot slots ih =>
    rw [List.forall_mem_cons] at h
    cases slot with
    | pending future => cases h.1
    | done output => exact congrArg (given output ++ ·) (ih h.2)

lemma keeps_impl (hA : Keeps A held active given) (houtputs : Drops outputs given) :
    Keeps (impl A outputs) (fun join => join.slots.flatMap (slotHeld held given))
      (fun join => join.slots.flatMap (slotActive active)) fun items => items.flatMap given where
  drop join world := drops_dropAll (drops_dropSlot hA.drop houtputs) join.slots world
  active_subset join := by
    intro id hid
    rcases List.mem_flatMap.mp hid with ⟨slot, hslot, hid⟩
    refine List.mem_flatMap.mpr ⟨slot, hslot, ?_⟩
    cases slot with
    | pending future => exact hA.active_subset future hid
    | done output => cases hid
  poll join waker world hnodup := by
    rcases pollLoop_looped hA waker join.slots world true hnodup with ⟨events, hlog, hlooped⟩
    change ∃ answer after world' events, poll A join waker world = _ ∧ _
    unfold poll
    generalize pollLoop A waker join.slots world true = last at hlog hlooped ⊢
    rcases last with ⟨_ | _ | _, slots, world'⟩
    · exact ⟨.panicked, ⟨slots⟩, world', events, rfl, hlog, hlooped.phase⟩
    · rcases hlooped.unfinished rfl with hstart | hnonempty
      · cases hstart
      · exact ⟨.pending, ⟨slots⟩, world', events, rfl, hlog, hlooped.phase, hnonempty,
          hlooped.waits rfl⟩
    · refine ⟨.ready (slots.filterMap Slot.output), ⟨[]⟩, world', events, rfl, hlog, ?_⟩
      have hphase := hlooped.phase
      rw [given_outputs (hlooped.finished rfl).2] at hphase
      exact hphase

end Join

end DoomFishUtils.Futures
