import DoomFishUtils.JoinAll.Model

/-!
# Futures that are made of futures

The source's `select`, `join_all` and `boxed` over futures whose polls may unwind.  At the bottom are
leaves, any state machines, whose polls and drops are logged with the wakers that they are given.
-/

namespace DoomFishUtils.Futures

set_option autoImplicit false

variable {ι W E F G S V α β : Type}

/-- What a poll answers, unless it unwinds. -/
inductive Polled (α : Type) where
  | ready (output : α)
  | pending
  | panicked

/-- A `Polled` without its output. -/
inductive Answer where
  | ready
  | pending
  | panicked
  deriving DecidableEq

def Polled.answer : Polled α → Answer
  | .ready _ => .ready
  | .pending => .pending
  | .panicked => .panicked

/-- What happens to a leaf. -/
inductive Event (ι W : Type) where
  | polled (leaf : ι) (waker : W) (answer : Answer)
  | dropped (leaf : ι)
  deriving DecidableEq

/-- What the futures can reach beside themselves, and the history, latest event first. -/
structure World (ι W E : Type) where
  shared : E
  log : List (Event ι W)

/-- How a value of a type is dropped. -/
abbrev Glue (ι W E α : Type) :=
  α → World ι W E → World ι W E

/-- An implementation of `Future`. -/
structure Impl (ι W E F α : Type) where
  poll : F → W → World ι W E → Polled α × F × World ι W E
  drop : Glue ι W E F

/-! ### Leaves -/

/-- The state machines at the bottom. -/
structure Machine (ι W E S V : Type) where
  poll : ι → S → W → E → Polled V × S × E
  drop : ι → S → E → E

structure Leaf (ι S : Type) where
  id : ι
  state : S

def Leaf.poll (machine : Machine ι W E S V) (future : Leaf ι S) (waker : W) (world : World ι W E) :
    Polled V × Leaf ι S × World ι W E :=
  match machine.poll future.id future.state waker world.shared with
  | (answer, state, shared) =>
    (answer, { future with state }, ⟨shared, .polled future.id waker answer.answer :: world.log⟩)

def Leaf.drop (machine : Machine ι W E S V) : Glue ι W E (Leaf ι S) :=
  fun future world =>
    ⟨machine.drop future.id future.state world.shared, .dropped future.id :: world.log⟩

def leaf (machine : Machine ι W E S V) : Impl ι W E (Leaf ι S) V where
  poll := Leaf.poll machine
  drop := Leaf.drop machine

/-- An output of a leaf has no leaves. -/
def plain : Glue ι W E V :=
  fun _ world => world

/-! ### `boxed` -/

/-- A box with a future of one of several types. -/
structure BoxFuture {κ : Type} (types : κ → Type) where
  kind : κ
  future : types kind

def BoxFuture.poll {κ : Type} {types : κ → Type} (impls : ∀ kind, Impl ι W E (types kind) α)
    (box : BoxFuture types) (waker : W) (world : World ι W E) :
    Polled α × BoxFuture types × World ι W E :=
  match (impls box.kind).poll box.future waker world with
  | (answer, future, world) => (answer, ⟨box.kind, future⟩, world)

def boxed {κ : Type} {types : κ → Type} (impls : ∀ kind, Impl ι W E (types kind) α) :
    Impl ι W E (BoxFuture types) α where
  poll := BoxFuture.poll impls
  drop box world := (impls box.kind).drop box.future world

/-! ### `select` -/

inductive Either (α β : Type) where
  | left (value : α)
  | right (value : β)

structure Select (F G : Type) where
  futures : Option (F × G)

def Select.new (left : F) (right : G) : Select F G :=
  ⟨some (left, right)⟩

namespace Select

variable (A : Impl ι W E F α) (B : Impl ι W E G β)

/-- `poll`: whichever future it does not give back it drops, and an unwinding drops both. -/
def poll (select : Select F G) (waker : W) (world : World ι W E) :
    Polled (Either (α × G) (β × F)) × Select F G × World ι W E :=
  match select.futures with
  -- `expect("Select polled after completion")`
  | none => (.panicked, select, world)
  | some (left, right) =>
    match A.poll left waker world with
    | (.ready output, left, world) => (.ready (.left (output, right)), ⟨none⟩, A.drop left world)
    | (.panicked, left, world) => (.panicked, ⟨none⟩, A.drop left (B.drop right world))
    | (.pending, left, world) =>
      match B.poll right waker world with
      | (.ready output, right, world) =>
        (.ready (.right (output, left)), ⟨none⟩, B.drop right world)
      | (.panicked, right, world) => (.panicked, ⟨none⟩, A.drop left (B.drop right world))
      | (.pending, right, world) => (.pending, ⟨some (left, right)⟩, world)

def drop (select : Select F G) (world : World ι W E) : World ι W E :=
  match select.futures with
  | none => world
  | some (left, right) => B.drop right (A.drop left world)

def impl : Impl ι W E (Select F G) (Either (α × G) (β × F)) where
  poll := poll A B
  drop := drop A B

/-- The drop of an output, in which the other future is. -/
def dropOutput (outputsA : Glue ι W E α) (outputsB : Glue ι W E β) :
    Glue ι W E (Either (α × G) (β × F))
  | .left (output, right), world => B.drop right (outputsA output world)
  | .right (output, left), world => A.drop left (outputsB output world)

end Select

/-! ### `join_all` -/

namespace Join

open JoinAll (Slot)

/-- What the loop of `poll` leaves, and `done` unless a poll unwound. -/
structure Scan (ι W E F α : Type) where
  done : Option Bool
  slots : List (Slot F α)
  world : World ι W E

variable (A : Impl ι W E F α)

/-- The loop of `poll`: a future that unwinds stays in its slot. -/
def pollLoop (waker : W) : List (Slot F α) → World ι W E → Bool → Scan ι W E F α
  | [], world, done => ⟨some done, [], world⟩
  | .pending future :: slots, world, done =>
    match A.poll future waker world with
    | (.ready output, future, world) =>
      let rest := pollLoop waker slots (A.drop future world) done
      { rest with slots := .done output :: rest.slots }
    | (.pending, future, world) =>
      let rest := pollLoop waker slots world false
      { rest with slots := .pending future :: rest.slots }
    | (.panicked, future, world) => ⟨none, .pending future :: slots, world⟩
  | .done output :: slots, world, done =>
    let rest := pollLoop waker slots world done
    { rest with slots := .done output :: rest.slots }

def poll (join : JoinAll F α) (waker : W) (world : World ι W E) :
    Polled (List α) × JoinAll F α × World ι W E :=
  let last := pollLoop A waker join.slots world true
  match last.done with
  | none => (.panicked, ⟨last.slots⟩, last.world)
  | some false => (.pending, ⟨last.slots⟩, last.world)
  | some true => (.ready (last.slots.filterMap Slot.output), ⟨[]⟩, last.world)

def dropSlot (outputs : Glue ι W E α) : Glue ι W E (Slot F α)
  | .pending future, world => A.drop future world
  | .done output, world => outputs output world

/-- The drop of a vector. -/
def dropAll (glue : Glue ι W E α) : Glue ι W E (List α)
  | items, world => items.foldl (fun world item => glue item world) world

def impl (outputs : Glue ι W E α) : Impl ι W E (JoinAll F α) (List α) where
  poll := poll A
  drop join world := dropAll (dropSlot A outputs) join.slots world

end Join

/-! ### `now_or_never` -/

/-- One poll with a waker that does nothing, after which the future is dropped; there is no answer
where the poll unwinds. -/
def nowOrNever (A : Impl ι W E F α) (noop : W) (future : F) (world : World ι W E) :
    Option (Option α) × World ι W E :=
  match A.poll future noop world with
  | (.ready output, future, world) => (some (some output), A.drop future world)
  | (.pending, future, world) => (some none, A.drop future world)
  | (.panicked, future, world) => (none, A.drop future world)

/-! ### Tasks -/

/-- Where a task has its future, with the waker of the latest poll if that was pending, or its
output. -/
inductive Stage (W F α : Type) where
  | running (future : F) (waiting : Option W)
  | ready (output : α)
  | dropped

structure Task (ι W E F α : Type) where
  stage : Stage W F α
  world : World ι W E

/-- A call on a task, which finds what the futures share in any state. -/
inductive Action (W E : Type) where
  | poll (shared : E) (waker : W)
  | drop (shared : E)

namespace Task

variable (A : Impl ι W E F α) (outputs : Glue ι W E α)

/-- A poll of a future.  Who polls may catch an unwinding and poll again. -/
def poll (future : F) (waker : W) (world : World ι W E) : Task ι W E F α :=
  match A.poll future waker world with
  | (.ready output, future, world) => ⟨.ready output, A.drop future world⟩
  | (.pending, future, world) => ⟨.running future (some waker), world⟩
  | (.panicked, future, world) => ⟨.running future none, world⟩

def next (task : Task ι W E F α) : Action W E → Option (Task ι W E F α)
  | .poll shared waker =>
    match task.stage with
    | .running future _ => some (poll A future waker { task.world with shared })
    | .ready _ | .dropped => none
  | .drop shared =>
    match task.stage with
    | .running future _ => some ⟨.dropped, A.drop future { task.world with shared }⟩
    | .ready output => some ⟨.dropped, outputs output { task.world with shared }⟩
    | .dropped => none

def start (future : F) (shared : E) : Task ι W E F α :=
  ⟨.running future none, ⟨shared, []⟩⟩

/-- The runs of the task around a future. -/
def runs (future : F) (shared : E) : Library.System (Task ι W E F α) (Action W E) :=
  .ofNext (start future shared) (next A outputs)

end Task

end DoomFishUtils.Futures
