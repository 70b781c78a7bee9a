import DoomFishUtils.SmallVec.Model

/-!
# Runs of vectors with inline storage

Vectors that are made, changed in place, cloned and turned into iterators, over two
implementations: the source's, where an undefined access ends the run in no state at all, and the
plain list.
-/

namespace DoomFishUtils.SmallVec

set_option autoImplicit false

open Library
open ArrayVec (Panic RangeBounds)

variable {T σ A : Type}

/-- The ways to make a vector. -/
inductive Source (T : Type) where
  | new
  | vec (capacity : ℕ) (values : List T)
  | iter (lower : ℕ) (values : List T)
  | slice (copy : T → T) (values : List T)

/-- The operations in place.  A drain is dropped when it has yielded at these ends. -/
inductive Op (T σ : Type) where
  | push (value : T)
  | pop
  | remove (index : ℕ)
  | truncate (len : ℕ)
  | clear
  | reserve (additional : ℕ)
  | extend (lower : ℕ) (values : List T)
  | extendFromSlice (copy : T → T) (slice : List T)
  | dedup (differ : T → T → Bool)
  | retain (keep : σ → T → Bool × T × σ) (state : σ)
  | drain (range : RangeBounds) (ends : List End)

inductive Answer (T σ : Type) where
  | done
  | popped (value : Option T)
  | removed (value : T)
  | retained (state : σ)
  | drained (values : List (Option T))

/-- An implementation; where there is no result an access was undefined. -/
structure Impl (T σ A : Type) where
  make : Source T → Option (Except Panic A)
  apply : A → Op T σ → Option (Except Panic (Answer T σ) × A)
  clone : (T → T) → A → Option (Except Panic A)
  intoIter : A → List End → Option (List (Option T))

inductive Action (T σ : Type) where
  | make (source : Source T)
  | apply (index : ℕ) (op : Op T σ)
  | clone (index : ℕ) (copy : T → T)
  | intoIter (index : ℕ) (ends : List End)

inductive Event (T σ : Type) where
  | made (answer : Except Panic Unit)
  | applied (index : ℕ) (answer : Except Panic (Answer T σ))
  | yielded (values : List (Option T))

/-- The live vectors, latest first, and the history, latest event first. -/
structure World (T σ A : Type) where
  vecs : List A
  log : List (Event T σ)

namespace World

def start : World T σ A :=
  ⟨[], []⟩

def made (world : World T σ A) (answer : Except Panic A) : World T σ A where
  vecs := answer.toOption.toList ++ world.vecs
  log := .made (answer.map fun _ => ()) :: world.log

def applied (world : World T σ A) (index : ℕ) (result : Except Panic (Answer T σ) × A) :
    World T σ A where
  vecs := world.vecs.set index result.2
  log := .applied index result.1 :: world.log

def yielded (world : World T σ A) (index : ℕ) (values : List (Option T)) : World T σ A where
  vecs := world.vecs.eraseIdx index
  log := .yielded values :: world.log

/-- One step, if the vector that it uses lives; it leaves no world if an access is undefined. -/
def next (impl : Impl T σ A) (world : World T σ A) : Action T σ → Option (Option (World T σ A))
  | .make source => some ((impl.make source).map world.made)
  | .apply index op =>
    world.vecs[index]?.map fun vec => (impl.apply vec op).map (world.applied index)
  | .clone index copy => world.vecs[index]?.map fun vec => (impl.clone copy vec).map world.made
  | .intoIter index ends =>
    world.vecs[index]?.map fun vec => (impl.intoIter vec ends).map (world.yielded index)

end World

/-- The runs of an implementation. -/
def runs (impl : Impl T σ A) : System (Option (World T σ A)) (Action T σ) :=
  .ofNext (some World.start) fun state action => state.bind fun world => world.next impl action

/-! ### The two implementations -/

/-- The operations of the source. -/
def smallApply (N : ℕ) (vec : SmallVec T) : Op T σ → Option (Except Panic (Answer T σ) × SmallVec T)
  | .push value => (vec.push N value).map fun result => (result.1.map fun _ => .done, result.2)
  | .pop => (vec.pop N).map fun result => (.ok (.popped result.1), result.2)
  | .remove index => (vec.remove N index).map fun result => (result.1.map .removed, result.2)
  | .truncate len => (vec.truncate N len).map fun after => (.ok .done, after)
  | .clear => (vec.clear N).map fun after => (.ok .done, after)
  | .reserve additional => (vec.reserve N additional).map fun after => (.ok .done, after)
  | .extend lower values =>
    (vec.extend N lower values).map fun result => (result.1.map fun _ => .done, result.2)
  | .extendFromSlice copy slice =>
    (vec.extendFromSlice N copy slice).map fun result => (result.1.map fun _ => .done, result.2)
  | .dedup differ => (vec.dedup N differ).map fun after => (.ok .done, after)
  | .retain keep state =>
    (vec.retain N keep state).map fun result => (.ok (.retained result.1), result.2)
  | .drain range ends => do
    let (answer, after) ← vec.drain N range
    match answer with
    | .ok drain =>
      let values ← drain.consume N ends
      some (.ok (.drained values), after)
    | .error panic => some (.error panic, after)

def smallMake (N : ℕ) : Source T → Option (Except Panic (SmallVec T))
  | .new => some (.ok new)
  | .vec capacity values => fromVec N capacity values
  | .iter lower values => fromIter N lower values
  | .slice copy values => fromSlice N copy values

def smallImpl (T σ : Type) (N : ℕ) : Impl T σ (SmallVec T) where
  make := smallMake N
  apply := smallApply N
  clone := clone N
  intoIter vec ends := vec.intoIter.consume N ends

/-- The elements that `dedup` keeps after one that it has kept. -/
def dedupAfter (differ : T → T → Bool) : T → List T → List T
  | _, [] => []
  | last, value :: values =>
    if differ value last then value :: dedupAfter differ value values
    else dedupAfter differ last values

/-- Keeps the first element, and another one if it differs from the last one that is kept. -/
def listDedup (differ : T → T → Bool) : List T → List T
  | [] => []
  | value :: values => value :: dedupAfter differ value values

/-- What a list yields at these ends. -/
def listConsume : List End → List T → List (Option T)
  | [], _ => []
  | .front :: ends, items => items.head? :: listConsume ends items.tail
  | .back :: ends, items => items.getLast? :: listConsume ends items.dropLast

/-- The same operations on a plain list. -/
def listApply (items : List T) : Op T σ → Except Panic (Answer T σ) × List T
  | .push value => (.ok .done, items ++ [value])
  | .pop => (.ok (.popped items.getLast?), items.dropLast)
  | .remove index => ((Vec.remove items index).1.map .removed, (Vec.remove items index).2)
  | .truncate len => (.ok .done, items.take len)
  | .clear => (.ok .done, [])
  | .reserve _ => (.ok .done, items)
  | .extend _ values => (.ok .done, items ++ values)
  | .extendFromSlice copy slice => (.ok .done, items ++ slice.map copy)
  | .dedup differ => (.ok .done, listDedup differ items)
  | .retain keep state =>
    (.ok (.retained (Vec.retainMut keep state items).1), (Vec.retainMut keep state items).2)
  | .drain range ends =>
    ((Vec.drain items range).1.map fun drained => .drained (listConsume ends drained),
      (Vec.drain items range).2)

def listMake : Source T → List T
  | .new => []
  | .vec _ values => values
  | .iter _ values => values
  | .slice copy values => values.map copy

def listImpl (T σ : Type) : Impl T σ (List T) where
  make source := some (.ok (listMake source))
  apply items op := some (listApply items op)
  clone copy items := some (.ok (items.map copy))
  intoIter items ends := some (listConsume ends items)

end DoomFishUtils.SmallVec
