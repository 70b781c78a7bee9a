import DoomFishUtils.ArrayVec.Refinement

/-!
# Soundness of the vector in an array

The runs of the source's vector and iterators never leave the defined accesses, and in lock step
with the runs of the plain list they hold its elements, conserve them and panic where it does.
-/

namespace DoomFishUtils.ArrayVec

set_option autoImplicit false

open Library

variable {ι V σ T : Type} {cap : ℕ}

/-- A defined state that stands for lists. -/
def StateRepresents (cap : ℕ)
    (state : Option (World ι V σ (ArrayVec (Element ι V)) (IntoIter (Element ι V))))
    (plain : Option (World ι V σ (List (Element ι V)) (List (Element ι V)))) : Prop :=
  ∃ world lists, state = some world ∧ plain = some lists ∧ world.Represents cap lists

section Iterators

variable {iter : IntoIter T} {elements : List T}

lemma IntoIter.Represents.next (h : iter.Represents cap elements) :
    ∃ iter', iter.next cap = some (elements.head?, iter') ∧
      iter'.Represents cap elements.tail := by
  rcases represents_iff.mp h with ⟨hiter, hroom⟩
  rw [hiter]
  rcases elements with _ | ⟨element, rest⟩
  · exact ⟨_, next_of_nil, represents_iff.mpr ⟨rfl, hroom⟩⟩
  · rw [List.length_cons] at hroom
    refine ⟨_, next_of_cons element (by omega), represents_iff.mpr ⟨rfl, ?_⟩⟩
    change iter.start + 1 + rest.length ≤ cap
    omega

lemma IntoIter.Represents.nextBack (h : iter.Represents cap elements) :
    ∃ iter', iter.nextBack cap = some (elements.getLast?, iter') ∧
      iter'.Represents cap elements.dropLast := by
  rcases represents_iff.mp h with ⟨hiter, hroom⟩
  rw [hiter]
  rcases List.eq_nil_or_concat elements with rfl | ⟨rest, element, rfl⟩
  · exact ⟨_, nextBack_of_nil, represents_iff.mpr ⟨rfl, hroom⟩⟩
  · rw [List.concat_eq_append] at hroom ⊢
    rw [List.length_append, List.length_singleton] at hroom
    rw [List.getLast?_concat, List.dropLast_concat]
    refine ⟨_, nextBack_of_append element (by omega), represents_iff.mpr ⟨rfl, ?_⟩⟩
    change iter.start + rest.length ≤ cap
    omega

lemma IntoIter.Represents.drop (h : iter.Represents cap elements) :
    iter.drop cap = some elements := by
  rcases represents_iff.mp h with ⟨hiter, hroom⟩
  rw [hiter]
  exact drop_of hroom

end Iterators

section Steps

variable {world : World ι V σ (ArrayVec (Element ι V)) (IntoIter (Element ι V))}
  {plain : World ι V σ (List (Element ι V)) (List (Element ι V))}

/-- An operation in place. -/
lemma World.Represents.apply (h : world.Represents cap plain) {items : List (Element ι V)}
    (hcap : items.length ≤ cap) (op : Op ι V σ) :
    (world.apply op (listApply cap items op).stored).Represents cap
      (plain.apply op (listApply cap items op)) := by
  have hlength := listApply_length hcap op
  refine ⟨.some (represents_iff.mpr ⟨rfl, hlength.1⟩), ?_, congrArg _ h.log⟩
  unfold World.apply Applied.stored
  dsimp only
  rcases hiter : (listApply cap items op).iter with _ | taken
  · exact h.iters
  · refine .cons (IntoIter.represents_iff.mpr ⟨rfl, ?_⟩) h.iters
    rw [IntoIter.of, Nat.zero_add]
    exact hlength.2 taken hiter

/-- The two implementations go in lock step. -/
lemma World.Represents.next (h : world.Represents cap plain) (hmax : cap ≤ usizeMax)
    (action : Action ι V σ) :
    Option.Rel (StateRepresents cap) (world.next (arrayImpl ι V σ cap) action)
      (plain.next (listImpl ι V σ cap) action) := by
  rcases action with op | _ | _ | index | index | index <;> unfold World.next <;> dsimp only
  case apply =>
    refine rel_map h.vec fun vec items hrep => ?_
    rcases represents_iff.mp hrep with ⟨rfl, hcap⟩
    refine ⟨_, _, ?_, rfl, h.apply hcap op⟩
    exact congrArg (Option.map (world.apply op)) (arrayApply_of hcap hmax op)
  case dropVec =>
    refine rel_map h.vec fun vec items hrep => ?_
    rcases represents_iff.mp hrep with ⟨rfl, hcap⟩
    refine ⟨_, _, congrArg (Option.map world.dropVec) (drop_of hcap), rfl, ?_⟩
    exact ⟨.none, h.iters, congrArg _ h.log⟩
  case intoIter =>
    refine rel_map h.vec fun vec items hrep => ?_
    rcases represents_iff.mp hrep with ⟨rfl, hcap⟩
    refine ⟨_, _, rfl, rfl, .none, .cons ?_ h.iters, h.log⟩
    exact IntoIter.represents_iff.mpr ⟨intoIter_of items, show 0 + items.length ≤ cap by omega⟩
  case next =>
    refine rel_map (forall₂_getElem? h.iters index) fun iter items hrep => ?_
    rcases hrep.next with ⟨iter', hnext, hrep'⟩
    refine ⟨_, _, congrArg (Option.map (world.yield index)) hnext, rfl, ?_⟩
    exact ⟨h.vec, forall₂_set h.iters hrep' index, congrArg _ h.log⟩
  case nextBack =>
    refine rel_map (forall₂_getElem? h.iters index) fun iter items hrep => ?_
    rcases hrep.nextBack with ⟨iter', hnext, hrep'⟩
    refine ⟨_, _, congrArg (Option.map (world.yield index)) hnext, rfl, ?_⟩
    exact ⟨h.vec, forall₂_set h.iters hrep' index, congrArg _ h.log⟩
  case dropIter =>
    refine rel_map (forall₂_getElem? h.iters index) fun iter items hrep => ?_
    refine ⟨_, _, congrArg (Option.map (world.dropIter index)) hrep.drop, rfl, ?_⟩
    exact ⟨h.vec, forall₂_eraseIdx h.iters index, congrArg _ h.log⟩

end Steps

/-! ### Conservation along the runs of the lists -/

section Lists

variable {world world' : World ι V σ (List (Element ι V)) (List (Element ι V))}

lemma elements_of_vec {items : List (Element ι V)} (h : world.vec = some items) :
    world.elements = items ++ world.iters.flatten := by
  unfold World.elements
  rw [h, Option.toList_some, List.flatten_singleton]

/-- An event whose elements are those that leave. -/
lemma conserved_lose (h : Conserved Event.given Event.ended world.log world.held)
    {event : Event ι V σ} {lost : List (Element ι V)} (hgiven : event.given = [])
    (hended : event.ended = lost.map Element.id) (hlog : world'.log = event :: world.log)
    (hlost : world.elements.Perm (lost ++ world'.elements)) :
    Conserved Event.given Event.ended world'.log world'.held := by
  rw [hlog]
  refine h.cons ?_
  rw [hgiven, hended, List.append_nil, World.held, World.held, ← List.map_append]
  exact hlost.map Element.id

/-- What an iterator yields and what it has left is what it had. -/
lemma conserved_yield (h : Conserved Event.given Event.ended world.log world.held) {index : ℕ}
    {elements : List (Element ι V)} (hiter : world.iters[index]? = some elements)
    {yielded : Option (Element ι V)} {rest : List (Element ι V)}
    (hyielded : elements.Perm (yielded.toList ++ rest)) :
    Conserved Event.given Event.ended (world.yield index (yielded, rest)).log
      (world.yield index (yielded, rest)).held := by
  refine conserved_lose h rfl rfl rfl ?_
  have hbefore : world.iters.flatten.Perm
      (yielded.toList ++ (rest ++ (world.iters.eraseIdx index).flatten)) := by
    rw [← List.append_assoc]
    exact (flatten_perm_eraseIdx hiter).trans (hyielded.append_right _)
  have hafter := (flatten_set_perm hiter rest).symm
  calc
    world.elements.Perm (world.vec.toList.flatten ++ (yielded.toList ++
        (rest ++ (world.iters.eraseIdx index).flatten))) := hbefore.append_left _
    List.Perm _ (yielded.toList ++ (world.vec.toList.flatten ++
        (rest ++ (world.iters.eraseIdx index).flatten))) := perm_append_swap _ _ _
    List.Perm _ (yielded.toList ++ (world.vec.toList.flatten ++
        (world.iters.set index rest).flatten)) := (hafter.append_left _).append_left _

lemma conserved_apply (h : Conserved Event.given Event.ended world.log world.held)
    {items : List (Element ι V)} (hvec : world.vec = some items) (op : Op ι V σ) :
    Conserved Event.given Event.ended (world.apply op (listApply cap items op)).log
      (world.apply op (listApply cap items op)).held := by
  have hop := @listApply_conserves _ _ _ cap items op
  have hafter : (world.apply op (listApply cap items op)).elements = (listApply cap items op).vec ++
      ((listApply cap items op).iter.toList.flatten ++ world.iters.flatten) := by
    simp [World.elements, World.apply]
  refine h.cons ?_
  rw [World.held, World.held, elements_of_vec hvec, hafter]
  calc
    ((items ++ world.iters.flatten).map Element.id ++ op.given.map Element.id).Perm
        ((items ++ op.given).map Element.id ++ world.iters.flatten.map Element.id) := by
      rw [List.map_append, List.map_append, List.append_assoc, List.append_assoc]
      exact List.perm_append_comm.append_left _
    List.Perm _ (_ ++ world.iters.flatten.map Element.id) := hop.append_right _
    _ = _ := by simp only [List.map_append, List.append_assoc]

lemma conserved_next (h : Conserved Event.given Event.ended world.log world.held)
    {action : Action ι V σ}
    (hnext : world.next (listImpl ι V σ cap) action = some (some world')) :
    Conserved Event.given Event.ended world'.log world'.held := by
  rcases action with op | _ | _ | index | index | index <;> unfold World.next at hnext <;>
    dsimp only at hnext <;> rcases Option.map_eq_some_iff.mp hnext with ⟨items, hitems, hworld⟩ <;>
    cases hworld
  case apply => exact conserved_apply h hitems op
  case dropVec =>
    refine conserved_lose h rfl rfl rfl ?_
    rw [elements_of_vec hitems]
    exact .refl _
  case intoIter =>
    have hheld : World.held { world with vec := none, iters := items :: world.iters } =
        world.held := by
      unfold World.held
      rw [elements_of_vec hitems]
      rfl
    change Conserved _ _ world.log
      (World.held { world with vec := none, iters := items :: world.iters })
    rw [hheld]
    exact h
  case next =>
    refine conserved_yield h hitems ?_
    cases items <;> exact .refl _
  case nextBack =>
    refine conserved_yield h hitems ?_
    rcases List.eq_nil_or_concat items with rfl | ⟨front, last, rfl⟩
    · exact .refl _
    · rw [List.concat_eq_append, List.getLast?_concat, List.dropLast_concat]
      exact List.perm_append_singleton last front
  case dropIter =>
    refine conserved_lose h rfl rfl rfl ?_
    calc
      world.elements.Perm (world.vec.toList.flatten ++
          (items ++ (world.iters.eraseIdx index).flatten)) :=
        (flatten_perm_eraseIdx hitems).append_left _
      List.Perm _ (items ++ (world.vec.toList.flatten ++ (world.iters.eraseIdx index).flatten)) :=
        perm_append_swap _ _ _

lemma conserved_of_run {actions : List (Action ι V σ)}
    (h : (runs (listImpl ι V σ cap) []).Run (some (World.start [])) actions (some world)) :
    Conserved Event.given Event.ended world.log world.held := by
  refine h.invariant
    (P := fun state => ∀ world, state = some world →
      Conserved Event.given Event.ended world.log world.held)
    (A := fun _ => True) ?_ (fun _ _ => trivial) ?_ world rfl
  · rintro state action _ - hstate hstep world' rfl
    rcases Option.bind_eq_some_iff.mp hstep with ⟨world, rfl, hnext⟩
    exact conserved_next (hstate world rfl) hnext
  · rintro world hworld
    cases hworld
    exact .refl _

end Lists

/-- An operation of the source panics exactly where it is refused on the list that the cells
hold, and then leaves the vector as it was. -/
def PanicsExactly (cap : ℕ)
    (world : World ι V σ (ArrayVec (Element ι V)) (IntoIter (Element ι V))) : Prop :=
  ∀ vec elements (op : Op ι V σ), world.vec = some vec → Represents cap vec elements →
    ∃ applied, arrayApply cap vec op = some applied ∧
      ((∃ panic, applied.answer = .error panic) ↔ op.Refused cap elements) ∧
      (op.Refused cap elements → applied.vec = vec ∧ applied.iter = none)

lemma panicsExactly (hmax : cap ≤ usizeMax)
    (world : World ι V σ (ArrayVec (Element ι V)) (IntoIter (Element ι V))) :
    PanicsExactly cap world := by
  intro vec elements op _ hrep
  rcases represents_iff.mp hrep with ⟨rfl, hcap⟩
  rcases listApply_refused hcap op with ⟨hrefused, hunchanged⟩
  refine ⟨_, arrayApply_of hcap hmax op, hrefused, fun h => ?_⟩
  rcases hunchanged h with ⟨hvec, hiter⟩
  exact ⟨congrArg of hvec, congrArg (Option.map (IntoIter.of 0)) hiter⟩

/-- The storage of the vector in an array is sound and conserves its elements. -/
theorem arrayVec_sound (hmax : cap ≤ usizeMax) {actions : List (Action ι V σ)}
    {state : Option (World ι V σ (ArrayVec (Element ι V)) (IntoIter (Element ι V)))}
    (h : (runs (arrayImpl ι V σ cap) new).Run (some (World.start new)) actions state) :
    ∃ world plain, state = some world ∧
      (runs (listImpl ι V σ cap) []).Run (some (World.start [])) actions (some plain) ∧
      world.Represents cap plain ∧
      Conserved Event.given Event.ended world.log plain.held ∧ PanicsExactly cap world := by
  have hstart : StateRepresents cap
      (some (World.start new : World ι V σ (ArrayVec (Element ι V)) (IntoIter (Element ι V))))
      (some (World.start [])) :=
    ⟨_, _, rfl, rfl, .some (represents_iff.mpr ⟨new_eq, Nat.zero_le _⟩), .nil, rfl⟩
  have hnext : ∀ state plain action, StateRepresents cap state plain →
      Option.Rel (StateRepresents cap)
        (state.bind fun world => world.next (arrayImpl ι V σ cap) action)
        (plain.bind fun lists => lists.next (listImpl ι V σ cap) action) := by
    rintro _ _ action ⟨world, lists, rfl, rfl, hrep⟩
    exact hrep.next hmax action
  rcases h.lockstep (StateRepresents cap) hnext hstart with
    ⟨_, hlists, world, plain, rfl, rfl, hrep⟩
  refine ⟨world, plain, rfl, hlists, hrep, ?_, panicsExactly hmax world⟩
  rw [hrep.log]
  exact conserved_of_run hlists

/-- A drain from a full vector whose iterator is read from the back, after operations that are out
of bounds. -/
theorem arrayVec_sound_drained :
    let first : Element ℕ ℕ := ⟨1, 10⟩
    let second : Element ℕ ℕ := ⟨2, 20⟩
    let actions : List (Action ℕ ℕ Unit) := [.apply (.push first), .apply (.insert 0 second),
      .apply (.push ⟨3, 30⟩), .apply (.insert 3 ⟨4, 40⟩),
      .apply (.retain (fun state value => (true, value + 1, state)) ()),
      .apply (.drain ⟨.included 0, .included usizeMax⟩), .apply (.drain ⟨.unbounded, .included 1⟩),
      .nextBack 0, .dropIter 0, .dropVec]
    ∃ state world plain, (runs (arrayImpl ℕ ℕ Unit 2) new).Run (some (World.start new)) actions
        state ∧
      state = some world ∧
      (runs (listImpl ℕ ℕ Unit 2) []).Run (some (World.start [])) actions (some plain) ∧
      world.Represents 2 plain ∧
      Conserved Event.given Event.ended world.log plain.held ∧ PanicsExactly 2 world := by
  intro first second actions
  have hrun : (runs (arrayImpl ℕ ℕ Unit 2) new).Run (some (World.start new)) actions _ :=
    System.run_replay rfl
  rcases arrayVec_sound (Nat.le_of_ble_eq_true rfl) hrun with ⟨world, plain, hworld, hrest⟩
  exact ⟨_, world, plain, hrun, hworld, hrest⟩

end DoomFishUtils.ArrayVec
