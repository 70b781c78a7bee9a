import DoomFishUtils.ArrayVec.Runs
import DoomFishUtils.SmallVec.Unwinding

/-!
# Vectors whose elements' destructors unwind

The operations on any number of vectors and iterators, where a destructor, a predicate, a clone or a
foreign iterator may unwind at any call. Who catches an unwinding goes on using what has survived
it; a destructor that unwinds during an unwinding aborts the process.
-/

namespace DoomFishUtils.ArrayVec.Unwinding

set_option autoImplicit false

open Library

variable {ι V σ T A I : Type}

inductive Ending where
  | returned
  | unwound
  | aborted
  deriving DecidableEq

/-- What a call of a foreign iterator's `next` does. -/
inductive Yield (T : Type) where
  | item (value : T)
  | done
  | panic

/-- How a loop ends, what it leaves, and the elements that it has been given and has dropped. -/
structure Loop (A T : Type) where
  ending : Ending
  left : A
  given : List T
  dropped : List T

/-- How an unwinding goes on that drops what its frames own. -/
def unwinding (dropPanics : T → Bool) (owned : List T) : Ending :=
  if owned.any dropPanics then .aborted else .unwound

section Array

variable (cap : ℕ) (dropPanics : T → Bool)

/-- The loop of `truncate`: each round drops what it has popped. -/
def truncateLoop (len : ℕ) : ℕ → ArrayVec T → Option (Loop (ArrayVec T) T)
  | 0, vec => some ⟨.returned, vec, [], []⟩
  | rounds + 1, vec =>
    if len < vec.len then do
      let (value, vec) ← vec.pop cap
      if value.any dropPanics then some ⟨.unwound, vec, [], value.toList⟩
      else
        let rest ← truncateLoop len rounds vec
        some { rest with dropped := value.toList ++ rest.dropped }
    else some ⟨.returned, vec, [], []⟩

def truncate (vec : ArrayVec T) (len : ℕ) : Option (Loop (ArrayVec T) T) :=
  truncateLoop cap dropPanics len vec.len vec

def clear (vec : ArrayVec T) : Option (Loop (ArrayVec T) T) :=
  truncate cap dropPanics vec 0

/-- The loop of `retain` over the cells from `index` on. -/
def retainLoop (keep : σ → T → Ruling × T × σ) :
    ℕ → ℕ → σ → ArrayVec T → Option (Loop (ArrayVec T) T)
  | 0, _, _, vec => some ⟨.returned, vec, [], []⟩
  | rounds + 1, index, state, vec => do
    let (value, items) ← vec.items.read cap index
    match keep state value with
    | (.keep, value, state) =>
      let items ← items.write cap vec.len value
      retainLoop keep rounds (index + 1) state ⟨vec.len + 1, items⟩
    | (.reject, value, state) =>
      -- `value` is dropped at the end of the loop's body.
      if dropPanics value then some ⟨.unwound, ⟨vec.len, items⟩, [], [value]⟩
      else
        let rest ← retainLoop keep rounds (index + 1) state ⟨vec.len, items⟩
        some { rest with dropped := value :: rest.dropped }
    | (.panic, value, _) => some ⟨unwinding dropPanics [value], ⟨vec.len, items⟩, [], [value]⟩

def retain (keep : σ → T → Ruling × T × σ) (state : σ) (vec : ArrayVec T) :
    Option (Loop (ArrayVec T) T) :=
  retainLoop cap dropPanics keep vec.len 0 state { vec with len := 0 }

/-- The loop of `extend`; a full vector ends it. -/
def extendLoop (source : ℕ → Yield T) : ℕ → ℕ → ArrayVec T → Option (Loop (ArrayVec T) T)
  | 0, _, _ => none
  | rounds + 1, position, vec =>
    match source position with
    | .done => some ⟨.returned, vec, [], []⟩
    | .panic => some ⟨.unwound, vec, [], []⟩
    | .item value => do
      let outcome ← vec.push cap value
      match outcome.answer with
      | .ok () =>
        let rest ← extendLoop source rounds (position + 1) outcome.vec
        some { rest with given := value :: rest.given }
      | .error _ =>
        some ⟨unwinding dropPanics outcome.dropped, outcome.vec, [value], outcome.dropped⟩

/-- It takes no more rounds than there is room for. -/
def extend (source : ℕ → Yield T) (vec : ArrayVec T) : Option (Loop (ArrayVec T) T) :=
  extendLoop cap dropPanics source (cap - vec.len + 1) 0 vec

/-- `drop_in_place` of a slice: once a destructor unwinds the other elements are dropped on the way,
and a second one aborts. -/
def dropInPlace : Bool → ℕ → ℕ → Cells T → Option (Ending × List T)
  | isUnwinding, 0, _, _ => some (if isUnwinding then .unwound else .returned, [])
  | isUnwinding, count + 1, index, items => do
    let (value, items) ← items.read cap index
    if isUnwinding && dropPanics value then some (.aborted, [value])
    else
      let (ending, dropped) ←
        dropInPlace (isUnwinding || dropPanics value) count (index + 1) items
      some (ending, value :: dropped)

/-- The drop of a vector. -/
def dropVec (vec : ArrayVec T) : Option (Ending × List T) :=
  dropInPlace cap dropPanics false vec.len 0 vec.items

/-- `from_iter`: the vector that it has filled is dropped when it unwinds. -/
def fromIter (source : ℕ → Yield T) : Option (Loop (Option (ArrayVec T)) T) := do
  let filled ← extend cap dropPanics source .new
  match filled.ending with
  | .returned => some ⟨.returned, some filled.left, filled.given, filled.dropped⟩
  | .unwound =>
    let (ending, dropped) ←
      dropInPlace cap dropPanics true filled.left.len 0 filled.left.items
    some ⟨ending, none, filled.given, filled.dropped ++ dropped⟩
  | .aborted => some ⟨.aborted, none, filled.given, filled.dropped⟩

/-- `iter().cloned()` over a slice, where `copy` clones the element at a position. -/
def cloned (copy : ℕ → T → Option T) (slice : List T) (position : ℕ) : Yield T :=
  match slice[position]? with
  | some value =>
    match copy position value with
    | some value => .item value
    | none => .panic
  | none => .done

def clone (copy : ℕ → T → Option T) (vec : ArrayVec T) : Option (Loop (Option (ArrayVec T)) T) := do
  let slice ← vec.asSlice cap
  fromIter cap dropPanics (cloned copy slice)

/-- The loop in the drop of an iterator; nothing drops the elements after one that unwinds. -/
def dropLoop : ℕ → ℕ → Cells T → Option (Ending × List T)
  | 0, _, _ => some (.returned, [])
  | count + 1, index, items => do
    let (value, items) ← items.read cap index
    if dropPanics value then some (.unwound, [value])
    else
      let (ending, dropped) ← dropLoop count (index + 1) items
      some (ending, value :: dropped)

def dropIter (iter : IntoIter T) : Option (Ending × List T) :=
  dropLoop cap dropPanics (iter.stop - iter.start) iter.start iter.items

end Array

/-! ### Runs -/

/-- The operations in place. -/
inductive Op (ι V σ : Type) where
  | push (element : Element ι V)
  | pop
  | insert (index : ℕ) (element : Element ι V)
  | remove (index : ℕ)
  | truncate (len : ℕ)
  | clear
  | retain (keep : σ → V → Ruling × V × σ) (state : σ)
  | drain (range : RangeBounds)
  | extend (source : ℕ → Yield (Element ι V))

/-- What a call does: how it ends, the vector and the iterator that live after it, and the elements
that it has been given, has returned and has dropped. -/
structure Effect (A I T : Type) where
  ending : Ending
  vec : Option A
  iter : Option I
  given : List T
  returned : List T
  dropped : List T

/-- An implementation; where there is no effect an access was undefined. -/
structure Impl (ι V σ A I : Type) where
  new : A
  fromIter : (ℕ → Yield (Element ι V)) → Option (Effect A I (Element ι V))
  clone : (ℕ → Element ι V → Option (Element ι V)) → A → Option (Effect A I (Element ι V))
  apply : A → Op ι V σ → Option (Effect A I (Element ι V))
  dropVec : A → Option (Effect A I (Element ι V))
  intoIter : A → I
  next : I → Option (Effect A I (Element ι V))
  nextBack : I → Option (Effect A I (Element ι V))
  dropIter : I → Option (Effect A I (Element ι V))

inductive Action (ι V σ : Type) where
  | new
  | fromIter (source : ℕ → Yield (Element ι V))
  | clone (index : ℕ) (copy : ℕ → Element ι V → Option (Element ι V))
  | apply (index : ℕ) (op : Op ι V σ)
  | dropVec (index : ℕ)
  | intoIter (index : ℕ)
  | next (index : ℕ)
  | nextBack (index : ℕ)
  | dropIter (index : ℕ)

structure Event (ι : Type) where
  ending : Ending
  given : List ι
  returned : List ι
  dropped : List ι

/-- The live vectors and iterators, whether the process has aborted, and the history, latest event
first. -/
structure World (ι A I : Type) where
  vecs : List A
  iters : List I
  aborted : Bool
  log : List (Event ι)

def Effect.event (effect : Effect A I (Element ι V)) : Event ι where
  ending := effect.ending
  given := effect.given.map Element.id
  returned := effect.returned.map Element.id
  dropped := effect.dropped.map Element.id

namespace World

def start : World ι A I :=
  ⟨[], [], false, []⟩

/-- The object at a place after a call. -/
def place {B : Type} (pool : List B) (index : ℕ) : Option B → List B
  | some object => pool.set index object
  | none => pool.eraseIdx index

def note (world : World ι A I) (effect : Effect A I (Element ι V)) : World ι A I :=
  { world with
    aborted := effect.ending == .aborted
    log := effect.event :: world.log }

/-- A call that may make a vector. -/
def make (world : World ι A I) (effect : Effect A I (Element ι V)) : World ι A I :=
  { world.note effect with vecs := effect.vec.toList ++ world.vecs }

/-- A call on the vector at a place. -/
def atVec (world : World ι A I) (index : ℕ) (effect : Effect A I (Element ι V)) : World ι A I :=
  { world.note effect with
    vecs := place world.vecs index effect.vec
    iters := effect.iter.toList ++ world.iters }

/-- A call on the iterator at a place. -/
def atIter (world : World ι A I) (index : ℕ) (effect : Effect A I (Element ι V)) : World ι A I :=
  { world.note effect with iters := place world.iters index effect.iter }

/-- One call, if the process runs and the object that it uses lives; it leaves no world if an access
is undefined. -/
def next (impl : Impl ι V σ A I) (world : World ι A I) :
    Action ι V σ → Option (Option (World ι A I))
  | action =>
    if world.aborted then none
    else match action with
      | .new => some (some { world with vecs := impl.new :: world.vecs })
      | .fromIter source => some ((impl.fromIter source).map world.make)
      | .clone index copy =>
        world.vecs[index]?.map fun vec => (impl.clone copy vec).map world.make
      | .apply index op =>
        world.vecs[index]?.map fun vec => (impl.apply vec op).map (world.atVec index)
      | .dropVec index =>
        world.vecs[index]?.map fun vec => (impl.dropVec vec).map (world.atVec index)
      | .intoIter index =>
        world.vecs[index]?.map fun vec =>
          some { world with
            vecs := world.vecs.eraseIdx index
            iters := impl.intoIter vec :: world.iters }
      | .next index =>
        world.iters[index]?.map fun iter => (impl.next iter).map (world.atIter index)
      | .nextBack index =>
        world.iters[index]?.map fun iter => (impl.nextBack iter).map (world.atIter index)
      | .dropIter index =>
        world.iters[index]?.map fun iter => (impl.dropIter iter).map (world.atIter index)

end World

/-! ### The source's implementation -/

/-- The effect of an operation that drops only what it refuses, which its unwinding drops. -/
def outcomeEffect {B : Type} (dropPanics : T → Bool) (given : List T) (outcome : Outcome A T B)
    (returned : B → List T) (iter : B → Option I) : Effect A I T where
  ending :=
    match outcome.answer with
    | .ok _ => .returned
    | .error _ => unwinding dropPanics outcome.dropped
  vec := some outcome.vec
  iter := outcome.answer.toOption.bind iter
  given := given
  returned := outcome.answer.toOption.toList.flatMap returned
  dropped := outcome.dropped

/-- The effect of a loop on a vector. -/
def Loop.effect (loop : Loop A T) : Effect A I T :=
  ⟨loop.ending, some loop.left, none, loop.given, [], loop.dropped⟩

/-- The effect of a call that may make a vector. -/
def Loop.made (loop : Loop (Option A) T) : Effect A I T :=
  ⟨loop.ending, loop.left, none, loop.given, [], loop.dropped⟩

/-- The effect of a drop. -/
def dropEffect (result : Ending × List T) : Effect A I T :=
  ⟨result.1, none, none, [], [], result.2⟩

/-- The effect of a call of an iterator. -/
def yieldEffect (result : Option T × I) : Effect A I T :=
  ⟨.returned, none, some result.2, [], result.1.toList, []⟩

def arrayApply (cap : ℕ) (dropPanics : Element ι V → Bool) (vec : ArrayVec (Element ι V)) :
    Op ι V σ → Option (Effect (ArrayVec (Element ι V)) (IntoIter (Element ι V)) (Element ι V))
  | .push element =>
    (vec.push cap element).map fun outcome =>
      outcomeEffect dropPanics [element] outcome (fun _ => []) fun _ => none
  | .pop =>
    (vec.pop cap).map fun result => ⟨.returned, some result.2, none, [], result.1.toList, []⟩
  | .insert index element =>
    (vec.insert cap index element).map fun outcome =>
      outcomeEffect dropPanics [element] outcome (fun _ => []) fun _ => none
  | .remove index =>
    (vec.remove cap index).map fun outcome =>
      outcomeEffect dropPanics [] outcome (fun element => [element]) fun _ => none
  | .truncate len => (truncate cap dropPanics vec len).map Loop.effect
  | .clear => (clear cap dropPanics vec).map Loop.effect
  | .retain keep state => (retain cap dropPanics (Element.rule keep) state vec).map Loop.effect
  | .drain range =>
    (vec.drain cap range).map fun outcome => outcomeEffect dropPanics [] outcome (fun _ => []) some
  | .extend source => (extend cap dropPanics source vec).map Loop.effect

def arrayImpl (cap : ℕ) (dropPanics : Element ι V → Bool) :
    Impl ι V σ (ArrayVec (Element ι V)) (IntoIter (Element ι V)) where
  new := .new
  fromIter source := (fromIter cap dropPanics source).map Loop.made
  clone copy vec := (clone cap dropPanics copy vec).map Loop.made
  apply := arrayApply cap dropPanics
  dropVec vec := (dropVec cap dropPanics vec).map dropEffect
  intoIter := intoIter
  next iter := (iter.next cap).map yieldEffect
  nextBack iter := (iter.nextBack cap).map yieldEffect
  dropIter iter := (dropIter cap dropPanics iter).map dropEffect

/-! ### Plain lists -/

section Lists

variable (cap : ℕ) (dropPanics : T → Bool)

/-- Drops elements one by one up to the first that unwinds: how that ends, those that are dropped
and those that are not. -/
def untilPanic : List T → Ending × List T × List T
  | [] => (.returned, [], [])
  | value :: items =>
    if dropPanics value then (.unwound, [value], items)
    else
      let rest := untilPanic items
      (rest.1, value :: rest.2.1, rest.2.2)

/-- Drops all elements, unless a second one unwinds. -/
def untilAbort : Bool → List T → Ending × List T × List T
  | isUnwinding, [] => (if isUnwinding then .unwound else .returned, [], [])
  | isUnwinding, value :: items =>
    if isUnwinding && dropPanics value then (.aborted, [value], items)
    else
      let rest := untilAbort (isUnwinding || dropPanics value) items
      (rest.1, value :: rest.2.1, rest.2.2)

/-- A loop over a list, with the elements that nothing knows of any more. -/
structure Leaking (A T : Type) extends Loop A T where
  leaked : List T

/-- A truncation that unwinds keeps what it has not come to. -/
def listTruncate (items : List T) (len : ℕ) : Loop (List T) T :=
  let tail := untilPanic dropPanics (items.drop len).reverse
  ⟨tail.1, items.take len ++ tail.2.2.reverse, [], tail.2.1⟩

/-- A `retain` that unwinds leaks what it has not come to. -/
def listRetain (keep : σ → T → Ruling × T × σ) : σ → List T → Leaking (List T) T
  | _, [] => ⟨⟨.returned, [], [], []⟩, []⟩
  | state, value :: items =>
    match keep state value with
    | (.keep, value, state) =>
      let rest := listRetain keep state items
      { rest with left := value :: rest.left }
    | (.reject, value, state) =>
      if dropPanics value then ⟨⟨.unwound, [], [], [value]⟩, items⟩
      else
        let rest := listRetain keep state items
        { rest with dropped := value :: rest.dropped }
    | (.panic, value, _) => ⟨⟨unwinding dropPanics [value], [], [], [value]⟩, items⟩

/-- What is appended to a list with so much room, and how that ends. -/
def listExtend (source : ℕ → Yield T) : ℕ → ℕ → Loop (List T) T
  | room, position =>
    match source position with
    | .done => ⟨.returned, [], [], []⟩
    | .panic => ⟨.unwound, [], [], []⟩
    | .item value =>
      match room with
      | 0 => ⟨unwinding dropPanics [value], [], [value], [value]⟩
      | room + 1 =>
        let rest := listExtend source room (position + 1)
        { rest with left := value :: rest.left, given := value :: rest.given }

def listFromIter (source : ℕ → Yield T) : Leaking (Option (List T)) T :=
  let filled := listExtend dropPanics source cap 0
  match filled.ending with
  | .returned => ⟨⟨.returned, some filled.left, filled.given, filled.dropped⟩, []⟩
  | .unwound =>
    let dropped := untilAbort dropPanics true filled.left
    ⟨⟨dropped.1, none, filled.given, filled.dropped ++ dropped.2.1⟩, dropped.2.2⟩
  | .aborted => ⟨⟨.aborted, none, filled.given, filled.dropped⟩, filled.left⟩

/-- The effect of an operation that is refused. -/
def refused (items : List T) (given : List T) : Effect (List T) (List T) T :=
  ⟨unwinding dropPanics given, some items, none, given, [], given⟩

end Lists

def listApply (cap : ℕ) (dropPanics : Element ι V → Bool) (items : List (Element ι V)) :
    Op ι V σ → Effect (List (Element ι V)) (List (Element ι V)) (Element ι V)
  | .push element =>
    if items.length < cap then ⟨.returned, some (items ++ [element]), none, [element], [], []⟩
    else refused dropPanics items [element]
  | .pop => ⟨.returned, some items.dropLast, none, [], items.getLast?.toList, []⟩
  | .insert index element =>
    if index ≤ items.length ∧ items.length < cap then
      ⟨.returned, some (items.insertIdx index element), none, [element], [], []⟩
    else refused dropPanics items [element]
  | .remove index =>
    match items[index]? with
    | some element => ⟨.returned, some (items.eraseIdx index), none, [], [element], []⟩
    | none => refused dropPanics items []
  | .truncate len => (listTruncate dropPanics items len).effect
  | .clear => (listTruncate dropPanics items 0).effect
  | .retain keep state => (listRetain dropPanics (Element.rule keep) state items).effect
  | .drain range =>
    if range.Within items.length then
      ⟨.returned, some (items.take range.startBound.lower ++
          items.drop (range.endBound.upper items.length)),
        some ((items.take (range.endBound.upper items.length)).drop range.startBound.lower),
        [], [], []⟩
    else refused dropPanics items []
  | .extend source =>
    let added := listExtend dropPanics source (cap - items.length) 0
    ⟨added.ending, some (items ++ added.left), none, added.given, [], added.dropped⟩

def listImpl (cap : ℕ) (dropPanics : Element ι V → Bool) :
    Impl ι V σ (List (Element ι V)) (List (Element ι V)) where
  new := []
  fromIter source := some (listFromIter cap dropPanics source).made
  clone copy items := some (listFromIter cap dropPanics (cloned copy items)).made
  apply items op := some (listApply cap dropPanics items op)
  dropVec items :=
    let dropped := untilAbort dropPanics false items
    some (dropEffect (dropped.1, dropped.2.1))
  intoIter items := items
  next items := some (yieldEffect (items.head?, items.tail))
  nextBack items := some (yieldEffect (items.getLast?, items.dropLast))
  dropIter items :=
    let dropped := untilPanic dropPanics items
    some (dropEffect (dropped.1, dropped.2.1))

/-- The elements that an operation on a list leaks: those after the one at which `retain` unwinds. -/
def opLeaks (dropPanics : Element ι V → Bool) (items : List (Element ι V)) :
    Op ι V σ → List (Element ι V)
  | .retain keep state => (listRetain dropPanics (Element.rule keep) state items).leaked
  | _ => []

/-- The elements that a call on lists leaks: those after the one at which `retain` or the drop of an
iterator unwinds, and those that an abort leaves behind. -/
def leaks (cap : ℕ) (dropPanics : Element ι V → Bool)
    (world : World ι (List (Element ι V)) (List (Element ι V))) :
    Action ι V σ → List (Element ι V)
  | .fromIter source => (listFromIter cap dropPanics source).leaked
  | .clone index copy =>
    world.vecs[index]?.toList.flatMap fun items =>
      (listFromIter cap dropPanics (cloned copy items)).leaked
  | .apply index op => world.vecs[index]?.toList.flatMap fun items => opLeaks dropPanics items op
  | .dropVec index =>
    world.vecs[index]?.toList.flatMap fun items => (untilAbort dropPanics false items).2.2
  | .dropIter index =>
    world.iters[index]?.toList.flatMap fun items => (untilPanic dropPanics items).2.2
  | _ => []

end DoomFishUtils.ArrayVec.Unwinding
