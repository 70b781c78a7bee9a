import DoomFishUtils.ArrayVec.Storage
import DoomFishUtils.Library.Ledger
import DoomFishUtils.Library.Pools
import DoomFishUtils.Library.Transition

/-!
# Runs of a vector and its iterators

The operations on one vector and on the iterators that come from it, over two implementations:
the vector in an array, where an undefined access ends the run in no state at all, and the plain
list.
-/

namespace DoomFishUtils.ArrayVec

set_option autoImplicit false

open Library

/-- An element keeps its identity while a predicate changes its value. -/
structure Element (ι V : Type) where
  id : ι
  value : V

variable {ι V σ A I : Type}

/-- A predicate on values, as `retain` applies it to elements. -/
def Element.test (keep : σ → V → Bool × V × σ) (state : σ) (element : Element ι V) :
    Bool × Element ι V × σ :=
  let now := keep state element.value
  (now.1, ⟨element.id, now.2.1⟩, now.2.2)

/-- The operations in place. -/
inductive Op (ι V σ : Type) where
  | push (element : Element ι V)
  | pop
  | insert (index : ℕ) (element : Element ι V)
  | remove (index : ℕ)
  | truncate (len : ℕ)
  | clear
  | retain (keep : σ → V → Bool × V × σ) (state : σ)
  | drain (range : RangeBounds)

inductive Answer (ι V σ : Type) where
  | done
  | popped (element : Option (Element ι V))
  | removed (element : Element ι V)
  | retained (state : σ)

/-- What an operation in place answers and leaves: the vector, an iterator where it returns one,
and the elements that it drops. -/
structure Applied (ι V σ A I : Type) where
  answer : Except Panic (Answer ι V σ)
  vec : A
  iter : Option I
  dropped : List (Element ι V)

/-- An implementation; where there is no result an access was undefined. -/
structure Impl (ι V σ A I : Type) where
  apply : A → Op ι V σ → Option (Applied ι V σ A I)
  dropVec : A → Option (List (Element ι V))
  intoIter : A → I
  next : I → Option (Option (Element ι V) × I)
  nextBack : I → Option (Option (Element ι V) × I)
  dropIter : I → Option (List (Element ι V))

inductive Action (ι V σ : Type) where
  | apply (op : Op ι V σ)
  | dropVec
  | intoIter
  | next (index : ℕ)
  | nextBack (index : ℕ)
  | dropIter (index : ℕ)

inductive Event (ι V σ : Type) where
  | applied (op : Op ι V σ) (answer : Except Panic (Answer ι V σ)) (dropped : List (Element ι V))
  | yielded (element : Option (Element ι V))
  | dropped (elements : List (Element ι V))

/-- The vector while it lives, the live iterators, and the history, latest event first. -/
structure World (ι V σ A I : Type) where
  vec : Option A
  iters : List I
  log : List (Event ι V σ)

namespace World

def start (vec : A) : World ι V σ A I :=
  ⟨some vec, [], []⟩

def apply (world : World ι V σ A I) (op : Op ι V σ) (applied : Applied ι V σ A I) :
    World ι V σ A I where
  vec := some applied.vec
  iters := applied.iter.toList ++ world.iters
  log := .applied op applied.answer applied.dropped :: world.log

def yield (world : World ι V σ A I) (index : ℕ) (yielded : Option (Element ι V) × I) :
    World ι V σ A I :=
  { world with
    iters := world.iters.set index yielded.2
    log := .yielded yielded.1 :: world.log }

def dropIter (world : World ι V σ A I) (index : ℕ) (elements : List (Element ι V)) :
    World ι V σ A I :=
  { world with
    iters := world.iters.eraseIdx index
    log := .dropped elements :: world.log }

def dropVec (world : World ι V σ A I) (elements : List (Element ι V)) : World ι V σ A I :=
  { world with
    vec := none
    log := .dropped elements :: world.log }

/-- One step, if the object that it uses lives; it leaves no world if an access is undefined. -/
def next (impl : Impl ι V σ A I) (world : World ι V σ A I) :
    Action ι V σ → Option (Option (World ι V σ A I))
  | .apply op => world.vec.map fun vec => (impl.apply vec op).map (world.apply op)
  | .dropVec => world.vec.map fun vec => (impl.dropVec vec).map world.dropVec
  | .intoIter =>
    world.vec.map fun vec =>
      some { world with vec := none, iters := impl.intoIter vec :: world.iters }
  | .next index => world.iters[index]?.map fun iter => (impl.next iter).map (world.yield index)
  | .nextBack index =>
    world.iters[index]?.map fun iter => (impl.nextBack iter).map (world.yield index)
  | .dropIter index =>
    world.iters[index]?.map fun iter => (impl.dropIter iter).map (world.dropIter index)

end World

/-- The runs of an implementation from a new vector. -/
def runs (impl : Impl ι V σ A I) (vec : A) :
    System (Option (World ι V σ A I)) (Action ι V σ) :=
  .ofNext (some (World.start vec)) fun state action =>
    state.bind fun world => world.next impl action

/-! ### The two implementations -/

/-- The outcome of an operation as the runs see it. -/
def Outcome.applied {B : Type} (outcome : Outcome A (Element ι V) B)
    (answer : B → Answer ι V σ) (iter : B → Option I) : Applied ι V σ A I where
  answer := outcome.answer.map answer
  vec := outcome.vec
  iter := outcome.answer.toOption.bind iter
  dropped := outcome.dropped

/-- The operations of the source. -/
def arrayApply (cap : ℕ) (vec : ArrayVec (Element ι V)) :
    Op ι V σ → Option (Applied ι V σ (ArrayVec (Element ι V)) (IntoIter (Element ι V)))
  | .push element =>
    (vec.push cap element).map fun outcome => outcome.applied (fun _ => .done) fun _ => none
  | .pop => (vec.pop cap).map fun result => ⟨.ok (.popped result.1), result.2, none, []⟩
  | .insert index element =>
    (vec.insert cap index element).map fun outcome =>
      outcome.applied (fun _ => .done) fun _ => none
  | .remove index =>
    (vec.remove cap index).map fun outcome => outcome.applied .removed fun _ => none
  | .truncate len => (vec.truncate cap len).map fun result => ⟨.ok .done, result.1, none, result.2⟩
  | .clear => (vec.clear cap).map fun result => ⟨.ok .done, result.1, none, result.2⟩
  | .retain keep state =>
    (retain cap (Element.test keep) state vec).map fun result =>
      ⟨.ok (.retained result.1), result.2.1, none, result.2.2⟩
  | .drain range => (vec.drain cap range).map fun outcome => outcome.applied (fun _ => .done) some

def arrayImpl (ι V σ : Type) (cap : ℕ) :
    Impl ι V σ (ArrayVec (Element ι V)) (IntoIter (Element ι V)) where
  apply := arrayApply cap
  dropVec := drop cap
  intoIter := intoIter
  next := IntoIter.next cap
  nextBack := IntoIter.nextBack cap
  dropIter := IntoIter.drop cap

/-- The start of a range. -/
def Bound.lower : Bound → ℕ
  | .included value => value
  | .excluded value => value + 1
  | .unbounded => 0

/-- The end of a range in a list of this length. -/
def Bound.upper (len : ℕ) : Bound → ℕ
  | .included value => value + 1
  | .excluded value => value
  | .unbounded => len

/-- The range lies within a list of this length. -/
def RangeBounds.Within (range : RangeBounds) (len : ℕ) : Prop :=
  range.startBound.lower ≤ range.endBound.upper len ∧ range.endBound.upper len ≤ len

instance (range : RangeBounds) (len : ℕ) : Decidable (range.Within len) :=
  inferInstanceAs (Decidable (_ ∧ _))

/-- When an operation panics. -/
def Op.Refused (cap : ℕ) (items : List (Element ι V)) : Op ι V σ → Prop
  | .push _ => items.length = cap
  | .insert index _ => items.length < index ∨ items.length = cap
  | .remove index => items.length ≤ index
  | .drain range => ¬range.Within items.length
  | _ => False

/-- The same operations on a plain list of at most `cap` elements. -/
def listApply (cap : ℕ) (items : List (Element ι V)) :
    Op ι V σ → Applied ι V σ (List (Element ι V)) (List (Element ι V))
  | .push element =>
    if items.length < cap then ⟨.ok .done, items ++ [element], none, []⟩
    else ⟨.error .full, items, none, [element]⟩
  | .pop => ⟨.ok (.popped items.getLast?), items.dropLast, none, []⟩
  | .insert index element =>
    if index ≤ items.length then
      if items.length < cap then ⟨.ok .done, items.insertIdx index element, none, []⟩
      else ⟨.error .full, items, none, [element]⟩
    else ⟨.error .insertion, items, none, [element]⟩
  | .remove index =>
    match items[index]? with
    | some element => ⟨.ok (.removed element), items.eraseIdx index, none, []⟩
    | none => ⟨.error .removal, items, none, []⟩
  | .truncate len => ⟨.ok .done, items.take len, none, (items.drop len).reverse⟩
  | .clear => ⟨.ok .done, [], none, items.reverse⟩
  | .retain keep state =>
    let result := retained (Element.test keep) state items
    ⟨.ok (.retained result.1), result.2.1, none, result.2.2⟩
  | .drain range =>
    if range.Within items.length then
      ⟨.ok .done, items.take range.startBound.lower ++ items.drop (range.endBound.upper items.length),
        some ((items.take (range.endBound.upper items.length)).drop range.startBound.lower), []⟩
    else ⟨.error .drain, items, none, []⟩

def listImpl (ι V σ : Type) (cap : ℕ) : Impl ι V σ (List (Element ι V)) (List (Element ι V)) where
  apply items op := some (listApply cap items op)
  dropVec := some
  intoIter items := items
  next items := some (items.head?, items.tail)
  nextBack items := some (items.getLast?, items.dropLast)
  dropIter := some

end DoomFishUtils.ArrayVec
