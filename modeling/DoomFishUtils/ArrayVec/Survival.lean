import DoomFishUtils.ArrayVec.Leaks

/-!
# Vectors survive unwinding

Along every run each element is in one place: it has been returned or dropped once, a vector or an
iterator holds it, or it has leaked where an unwinding left it.
-/

namespace DoomFishUtils.ArrayVec.Unwinding

set_option autoImplicit false

open Library

variable {ι V σ T : Type} {cap : ℕ}

/-- The runs of the source's implementation. -/
def runs (ι V σ : Type) (cap : ℕ) (dropPanics : Element ι V → Bool) :
    System (Option (World ι (ArrayVec (Element ι V)) (IntoIter (Element ι V)))) (Action ι V σ) :=
  .ofNext (some World.start) fun state action =>
    state.bind fun world => world.next (arrayImpl cap dropPanics) action

/-- The runs of the lists, with the elements that have leaked. -/
def listRuns (ι V σ : Type) (cap : ℕ) (dropPanics : Element ι V → Bool) :
    System (World ι (List (Element ι V)) (List (Element ι V)) × List (Element ι V))
      (Action ι V σ) :=
  .ofNext (World.start, []) fun state action =>
    ((state.1.next (listImpl cap dropPanics) action).bind id).map fun world =>
      (world, leaks cap dropPanics state.1 action ++ state.2)

/-- The identities that an event returns or drops. -/
def Event.ended (event : Event ι) : List ι :=
  event.returned ++ event.dropped

/-- The elements that vectors and iterators hold. -/
def World.elements (world : World ι (List (Element ι V)) (List (Element ι V))) :
    List (Element ι V) :=
  world.vecs.flatten ++ world.iters.flatten

/-! ### What the loops over lists do -/

section Loops

variable (dropPanics : T → Bool)

lemma untilPanic_append (items : List T) :
    items = (untilPanic dropPanics items).2.1 ++ (untilPanic dropPanics items).2.2 := by
  induction items with
  | nil => rfl
  | cons value items ih =>
    unfold untilPanic
    split_ifs
    · rfl
    · exact congrArg (value :: ·) ih

lemma untilPanic_returned {items : List T} (h : (untilPanic dropPanics items).1 = .returned) :
    (untilPanic dropPanics items).2.2 = [] := by
  induction items with
  | nil => rfl
  | cons value items ih =>
    unfold untilPanic at h ⊢
    split_ifs at h ⊢
    exact ih h

lemma untilAbort_append (isUnwinding : Bool) (items : List T) :
    items = (untilAbort dropPanics isUnwinding items).2.1 ++
      (untilAbort dropPanics isUnwinding items).2.2 := by
  induction items generalizing isUnwinding with
  | nil => rfl
  | cons value items ih =>
    unfold untilAbort
    split_ifs
    · rfl
    · exact congrArg (value :: ·) (ih _)

lemma untilAbort_returned {isUnwinding : Bool} {items : List T}
    (h : (untilAbort dropPanics isUnwinding items).1 = .returned) :
    (untilAbort dropPanics isUnwinding items).2.2 = [] := by
  induction items generalizing isUnwinding with
  | nil => rfl
  | cons value items ih =>
    unfold untilAbort at h ⊢
    split_ifs at h ⊢
    exact ih h

lemma listTruncate_perm (items : List T) (len : ℕ) :
    items.Perm ((listTruncate dropPanics items len).dropped ++
      (listTruncate dropPanics items len).left) := by
  have htail := untilPanic_append dropPanics (items.drop len).reverse
  unfold listTruncate
  generalize untilPanic dropPanics (items.drop len).reverse = tail at htail ⊢
  rcases tail with ⟨ending, dropped, left⟩
  dsimp only at htail ⊢
  have hdrop : items.drop len = left.reverse ++ dropped.reverse := by
    rw [← List.reverse_append, ← htail, List.reverse_reverse]
  calc
    items = items.take len ++ (left.reverse ++ dropped.reverse) := by
      rw [← hdrop, List.take_append_drop]
    _ = (items.take len ++ left.reverse) ++ dropped.reverse := (List.append_assoc _ _ _).symm
    List.Perm _ (dropped.reverse ++ (items.take len ++ left.reverse)) := List.perm_append_comm
    List.Perm _ _ := (List.reverse_perm dropped).append_right _

lemma listRetain_perm {dropPanics : Element ι V → Bool} (keep : σ → V → Ruling × V × σ) (state : σ)
    (items : List (Element ι V)) :
    (items.map Element.id).Perm
      (((listRetain dropPanics (Element.rule keep) state items).dropped ++
        (listRetain dropPanics (Element.rule keep) state items).left ++
        (listRetain dropPanics (Element.rule keep) state items).leaked).map Element.id) := by
  induction items generalizing state with
  | nil => exact .refl _
  | cons element items ih =>
    have hid : (Element.rule keep state element).2.1.id = element.id := rfl
    rcases hrule : Element.rule keep state element with ⟨_ | _ | _, changed, state'⟩ <;>
      rw [hrule] at hid <;> dsimp only at hid <;> rw [List.map_cons, ← hid, listRetain, hrule] <;>
      dsimp only
    case keep =>
      have hrest := ih state'
      simp only [List.map_append, List.map_cons, List.append_assoc] at hrest ⊢
      exact (hrest.cons changed.id).trans List.perm_middle.symm
    case reject =>
      split_ifs
      · exact .refl _
      · exact (ih state').cons changed.id
    case panic => exact .refl _

lemma listRetain_given (keep : σ → T → Ruling × T × σ) (state : σ) (items : List T) :
    (listRetain dropPanics keep state items).given = [] := by
  induction items generalizing state with
  | nil => rfl
  | cons value items ih =>
    rcases hkeep : keep state value with ⟨_ | _ | _, changed, state'⟩ <;>
      rw [listRetain, hkeep] <;> dsimp only
    case keep => exact ih state'
    case reject =>
      split_ifs
      · rfl
      · exact ih state'

lemma listRetain_returned (keep : σ → T → Ruling × T × σ) {state : σ} {items : List T}
    (h : (listRetain dropPanics keep state items).ending = .returned) :
    (listRetain dropPanics keep state items).leaked = [] := by
  induction items generalizing state with
  | nil => rfl
  | cons value items ih =>
    rcases hkeep : keep state value with ⟨_ | _ | _, changed, state'⟩ <;>
      rw [listRetain, hkeep] at h ⊢ <;> dsimp only at h ⊢
    case keep => exact ih h
    case reject =>
      split_ifs at h ⊢
      exact ih h
    case panic =>
      unfold unwinding at h
      split_ifs at h

lemma listExtend_given (source : ℕ → Yield T) (room position : ℕ) :
    (listExtend dropPanics source room position).given =
      (listExtend dropPanics source room position).left ++
        (listExtend dropPanics source room position).dropped := by
  induction room generalizing position with
  | zero =>
    unfold listExtend
    cases source position <;> rfl
  | succ room ih =>
    unfold listExtend
    cases source position with
    | done | panic => rfl
    | item value => exact congrArg (value :: ·) (ih (position + 1))

lemma listFromIter_perm (source : ℕ → Yield T) :
    (listFromIter cap dropPanics source).given.Perm
      ((listFromIter cap dropPanics source).dropped ++
        (listFromIter cap dropPanics source).left.toList.flatten ++
        (listFromIter cap dropPanics source).leaked) := by
  have hgiven := listExtend_given dropPanics source cap 0
  unfold listFromIter
  generalize listExtend dropPanics source cap 0 = filled at hgiven ⊢
  rcases filled with ⟨ending, left, given, dropped⟩
  dsimp only at hgiven ⊢
  rw [hgiven]
  cases ending with
  | returned =>
    simpa using List.perm_append_comm
  | unwound =>
    have hleft := untilAbort_append dropPanics true left
    generalize untilAbort dropPanics true left = rest at hleft ⊢
    rcases rest with ⟨ending, dropped', leaked⟩
    dsimp only at hleft ⊢
    rw [hleft]
    have hswap : ((dropped' ++ leaked) ++ dropped).Perm (dropped ++ (dropped' ++ leaked)) :=
      List.perm_append_comm
    simpa using hswap
  | aborted => simpa using List.perm_append_comm

lemma listFromIter_returned {source : ℕ → Yield T}
    (h : (listFromIter cap dropPanics source).ending = .returned) :
    (listFromIter cap dropPanics source).leaked = [] := by
  unfold listFromIter at h ⊢
  generalize listExtend dropPanics source cap 0 = filled at h ⊢
  rcases filled with ⟨ending, left, given, dropped⟩
  cases ending with
  | returned => rfl
  | unwound => exact untilAbort_returned dropPanics h
  | aborted => cases h

end Loops

/-! ### What the calls on lists do -/

section Calls

variable {dropPanics : Element ι V → Bool} {items : List (Element ι V)}

/-- What a call finds and is given it returns, drops, leaves behind it or leaks. -/
def Effect.Accounts (before : List (Element ι V))
    (effect : Effect (List (Element ι V)) (List (Element ι V)) (Element ι V))
    (leaked : List (Element ι V)) : Prop :=
  ((before ++ effect.given).map Element.id).Perm
    ((effect.returned ++ effect.dropped ++ effect.vec.toList.flatten ++
      effect.iter.toList.flatten ++ leaked).map Element.id)

lemma accounts_refused (given : List (Element ι V)) :
    (refused dropPanics items given).Accounts items [] := by
  have hswap : (items ++ given).Perm (given ++ items) := List.perm_append_comm
  unfold Effect.Accounts refused
  simpa using hswap.map Element.id

lemma accounts_apply (op : Op ι V σ) :
    (listApply cap dropPanics items op).Accounts items (opLeaks dropPanics items op) := by
  rcases op with element | _ | ⟨index, element⟩ | index | len | _ | ⟨keep, state⟩ | range |
      source <;>
    unfold listApply opLeaks <;> dsimp only
  case push =>
    split_ifs
    · simp [Effect.Accounts]
    · exact accounts_refused _
  case pop =>
    rcases List.eq_nil_or_concat items with rfl | ⟨front, last, rfl⟩
    · exact .refl _
    · rw [List.concat_eq_append, List.getLast?_concat, List.dropLast_concat]
      simp [Effect.Accounts]
  case insert =>
    split_ifs with hfits
    · rcases exists_append_of_le hfits.1 with ⟨front, back, rfl, rfl⟩
      have hmoved : (front ++ back ++ [element]).Perm (front ++ element :: back) := by
        rw [List.append_assoc]
        exact (List.perm_append_singleton element back).append_left front
      rw [insertIdx_append]
      simpa [Effect.Accounts] using hmoved.map Element.id
    · exact accounts_refused _
  case remove =>
    rcases hget : items[index]? with _ | element
    · exact accounts_refused _
    · rcases List.getElem?_eq_some_iff.mp hget with ⟨hlt, hget⟩
      rcases exists_append_of_lt hlt with ⟨front, back, hitems, hfront⟩
      rw [hget] at hitems
      subst hitems hfront
      rw [eraseIdx_append]
      simp [Effect.Accounts]
  case truncate =>
    have hgiven : (listTruncate dropPanics items len).given = [] := rfl
    simpa [Effect.Accounts, Loop.effect, hgiven] using
      (listTruncate_perm dropPanics items len).map Element.id
  case clear =>
    have hgiven : (listTruncate dropPanics items 0).given = [] := rfl
    simpa [Effect.Accounts, Loop.effect, hgiven] using
      (listTruncate_perm dropPanics items 0).map Element.id
  case retain =>
    have hgiven : (listRetain dropPanics (Element.rule keep) state items).given = [] :=
      listRetain_given dropPanics (Element.rule keep) state items
    simpa [Effect.Accounts, Loop.effect, hgiven] using listRetain_perm keep state items
  case drain =>
    split_ifs with hwithin
    · rcases exists_append_of_le_of_le hwithin.1 hwithin.2 with
        ⟨front, mid, back, hitems, hstart, hstop⟩
      have hmoved : (front ++ (mid ++ back)).Perm (front ++ back ++ mid) := by
        rw [List.append_assoc]
        exact List.perm_append_comm.append_left front
      rw [hstart, hstop, hitems, take_append_append, drop_append_append, List.take_left,
        List.drop_left]
      simpa [Effect.Accounts] using hmoved.map Element.id
    · exact accounts_refused _
  case extend =>
    have hgiven := listExtend_given dropPanics source (cap - items.length) 0
    unfold Effect.Accounts
    dsimp only
    rw [hgiven]
    have hmoved : ∀ added dropped : List (Element ι V),
        (items ++ (added ++ dropped)).Perm (dropped ++ (items ++ added)) := by
      intro added dropped
      rw [← List.append_assoc]
      exact List.perm_append_comm
    simpa using (hmoved _ _).map Element.id

lemma accounts_made (source : ℕ → Yield (Element ι V)) :
    ((listFromIter cap dropPanics source).made :
      Effect (List (Element ι V)) (List (Element ι V)) (Element ι V)).Accounts []
        (listFromIter cap dropPanics source).leaked := by
  have hperm : (listFromIter cap dropPanics source).given.Perm _ :=
    listFromIter_perm dropPanics source
  simpa [Effect.Accounts, Loop.made] using hperm.map Element.id

/-- What a call leaks although it returns. -/
lemma opLeaks_of_returned {op : Op ι V σ}
    (h : (listApply cap dropPanics items op).ending = .returned) :
    opLeaks dropPanics items op = [] := by
  cases op with
  | retain keep state => exact listRetain_returned dropPanics (Element.rule keep) h
  | _ => rfl

end Calls

/-! ### Conservation along the runs of the lists -/

section Lists

variable {dropPanics : Element ι V → Bool}
  {world world' : World ι (List (Element ι V)) (List (Element ι V))}
  {effect : Effect (List (Element ι V)) (List (Element ι V)) (Element ι V)}
  {before rest leaked leaked' : List (Element ι V)}

/-- Each element is in one place, and none has leaked as long as every call has returned. -/
structure Survives (world : World ι (List (Element ι V)) (List (Element ι V)))
    (leaked : List (Element ι V)) : Prop where
  conserved : Conserved Event.given Event.ended world.log
    ((world.elements ++ leaked).map Element.id)
  tight : (∀ event ∈ world.log, event.ending = .returned) → leaked = []

/-- A call that accounts for what it finds, beside the objects that it does not touch. -/
lemma Survives.step (h : Survives world leaked) (hlog : world'.log = effect.event :: world.log)
    (hbefore : world.elements.Perm (before ++ rest))
    (hafter : world'.elements.Perm
      (effect.vec.toList.flatten ++ effect.iter.toList.flatten ++ rest))
    (haccounts : effect.Accounts before leaked')
    (htight : effect.ending = .returned → leaked' = []) :
    Survives world' (leaked' ++ leaked) := by
  refine ⟨?_, fun hreturned => ?_⟩
  · rw [hlog]
    refine h.conserved.cons ?_
    unfold Effect.Accounts at haccounts
    unfold Effect.event Event.ended
    classical
    rw [List.perm_iff_count]
    intro id
    have hbefore := (hbefore.map Element.id).count_eq id
    have hafter := (hafter.map Element.id).count_eq id
    have haccounts := haccounts.count_eq id
    simp only [List.map_append, List.count_append] at hbefore hafter haccounts ⊢
    omega
  · rw [hlog] at hreturned
    rw [htight (hreturned _ List.mem_cons_self),
      h.tight fun event hmem => hreturned event (List.mem_cons_of_mem _ hmem)]
    rfl

lemma place_perm {pool : List (List (Element ι V))} {index : ℕ} {items : List (Element ι V)}
    (h : pool[index]? = some items) (object : Option (List (Element ι V))) :
    (World.place pool index object).flatten.Perm
      (object.toList.flatten ++ (pool.eraseIdx index).flatten) := by
  cases object with
  | none => exact .refl _
  | some new =>
    change (pool.set index new).flatten.Perm _
    simpa using flatten_set_perm h new

lemma Survives.make (h : Survives world leaked) (hiter : effect.iter = none)
    (haccounts : effect.Accounts [] leaked') (htight : effect.ending = .returned → leaked' = []) :
    Survives (world.make effect) (leaked' ++ leaked) := by
  have hbefore : world.elements.Perm ([] ++ world.elements) := .refl _
  refine h.step rfl hbefore ?_ haccounts htight
  change ((effect.vec.toList ++ world.vecs).flatten ++ world.iters.flatten).Perm _
  rw [hiter]
  simp [World.elements]

lemma Survives.atVec (h : Survives world leaked) {index : ℕ} {items : List (Element ι V)}
    (hitems : world.vecs[index]? = some items) (haccounts : effect.Accounts items leaked')
    (htight : effect.ending = .returned → leaked' = []) :
    Survives (world.atVec index effect) (leaked' ++ leaked) := by
  have hbefore : world.elements.Perm
      (items ++ ((world.vecs.eraseIdx index).flatten ++ world.iters.flatten)) := by
    rw [World.elements, ← List.append_assoc]
    exact (flatten_perm_eraseIdx hitems).append_right _
  refine h.step rfl hbefore ?_ haccounts htight
  · unfold World.elements World.atVec
    rw [List.flatten_append, ← List.append_assoc]
    calc
      ((World.place world.vecs index effect.vec).flatten ++ effect.iter.toList.flatten ++
          world.iters.flatten).Perm
          (effect.vec.toList.flatten ++ (world.vecs.eraseIdx index).flatten ++
            effect.iter.toList.flatten ++ world.iters.flatten) :=
        ((place_perm hitems effect.vec).append_right _).append_right _
      List.Perm _ (effect.vec.toList.flatten ++ (effect.iter.toList.flatten ++
          ((world.vecs.eraseIdx index).flatten ++ world.iters.flatten))) := by
        rw [List.append_assoc, List.append_assoc]
        exact (perm_append_swap _ _ _).append_left _
      _ = _ := (List.append_assoc _ _ _).symm

lemma Survives.atIter (h : Survives world leaked) {index : ℕ} {items : List (Element ι V)}
    (hitems : world.iters[index]? = some items) (hvec : effect.vec = none)
    (haccounts : effect.Accounts items leaked')
    (htight : effect.ending = .returned → leaked' = []) :
    Survives (world.atIter index effect) (leaked' ++ leaked) := by
  have hbefore : world.elements.Perm
      (items ++ (world.vecs.flatten ++ (world.iters.eraseIdx index).flatten)) :=
    ((flatten_perm_eraseIdx hitems).append_left _).trans (perm_append_swap _ _ _)
  refine h.step rfl hbefore ?_ haccounts htight
  · rw [hvec]
    exact ((place_perm hitems effect.iter).append_left _).trans (perm_append_swap _ _ _)

lemma Survives.next (h : Survives world leaked) {action : Action ι V σ}
    (hnext : world.next (listImpl cap dropPanics) action = some (some world')) :
    Survives world' (leaks cap dropPanics world action ++ leaked) := by
  unfold World.next at hnext
  split_ifs at hnext
  rcases action with _ | source | ⟨index, copy⟩ | ⟨index, op⟩ | index | index | index | index |
    index <;> dsimp only at hnext
  case new =>
    cases hnext
    exact ⟨h.conserved, h.tight⟩
  case fromIter =>
    cases hnext
    exact h.make rfl (accounts_made source) (listFromIter_returned dropPanics)
  case clone =>
    rcases Option.map_eq_some_iff.mp hnext with ⟨items, hitems, hworld⟩
    cases hworld
    have hleaks : leaks cap dropPanics world (.clone index copy : Action ι V σ) =
        (listFromIter cap dropPanics (cloned copy items)).leaked := by
      simp [leaks, hitems]
    rw [hleaks]
    exact h.make rfl (accounts_made _) (listFromIter_returned dropPanics)
  case apply =>
    rcases Option.map_eq_some_iff.mp hnext with ⟨items, hitems, hworld⟩
    cases hworld
    have hleaks : leaks cap dropPanics world (.apply index op) = opLeaks dropPanics items op := by
      simp [leaks, hitems]
    rw [hleaks]
    exact h.atVec hitems (accounts_apply op) opLeaks_of_returned
  case dropVec =>
    rcases Option.map_eq_some_iff.mp hnext with ⟨items, hitems, hworld⟩
    cases hworld
    have hleaks : leaks cap dropPanics world (.dropVec index : Action ι V σ) =
        (untilAbort dropPanics false items).2.2 := by
      simp [leaks, hitems]
    rw [hleaks]
    refine h.atVec hitems ?_ (untilAbort_returned dropPanics)
    have hsplit : items.Perm _ := .of_eq (untilAbort_append dropPanics false items)
    simpa [Effect.Accounts, dropEffect] using hsplit.map Element.id
  case intoIter =>
    rcases Option.map_eq_some_iff.mp hnext with ⟨items, hitems, hworld⟩
    cases hworld
    refine ⟨?_, h.tight⟩
    refine h.conserved.trans (List.Perm.append_left _ (List.Perm.map _ ?_))
    refine List.Perm.append_right _ ?_
    exact ((flatten_perm_eraseIdx hitems).append_right _).trans (by
      rw [List.append_assoc]
      exact perm_append_swap _ _ _)
  case next =>
    rcases Option.map_eq_some_iff.mp hnext with ⟨items, hitems, hworld⟩
    cases hworld
    have haccounts : Effect.Accounts items (yieldEffect (items.head?, items.tail)) [] := by
      cases items <;> simp [Effect.Accounts, yieldEffect]
    exact h.atIter hitems rfl haccounts (fun _ => rfl)
  case nextBack =>
    rcases Option.map_eq_some_iff.mp hnext with ⟨items, hitems, hworld⟩
    cases hworld
    have haccounts : Effect.Accounts items (yieldEffect (items.getLast?, items.dropLast)) [] := by
      rcases List.eq_nil_or_concat items with rfl | ⟨front, last, rfl⟩ <;>
        simp [Effect.Accounts, yieldEffect]
    exact h.atIter hitems rfl haccounts (fun _ => rfl)
  case dropIter =>
    rcases Option.map_eq_some_iff.mp hnext with ⟨items, hitems, hworld⟩
    cases hworld
    have hleaks : leaks cap dropPanics world (.dropIter index : Action ι V σ) =
        (untilPanic dropPanics items).2.2 := by
      simp [leaks, hitems]
    rw [hleaks]
    refine h.atIter hitems rfl ?_ (untilPanic_returned dropPanics)
    have hsplit : items.Perm _ := .of_eq (untilPanic_append dropPanics items)
    simpa [Effect.Accounts, dropEffect] using hsplit.map Element.id

lemma survives_of_run {actions : List (Action ι V σ)}
    (h : (listRuns ι V σ cap dropPanics).Run (World.start, []) actions (world, leaked)) :
    Survives world leaked := by
  have hstart : Survives (World.start : World ι (List (Element ι V)) (List (Element ι V))) [] :=
    ⟨.refl _, fun _ => rfl⟩
  refine h.invariant (P := fun state => Survives state.1 state.2) (A := fun _ => True) ?_
    (fun _ _ => trivial) hstart
  rintro ⟨world, leaked⟩ action ⟨world', leaked'⟩ - hbefore hstep
  rcases Option.map_eq_some_iff.mp hstep with ⟨next, hnext, heq⟩
  cases heq
  rcases Option.bind_eq_some_iff.mp hnext with ⟨defined, hdefined, hsome⟩
  cases hsome
  exact hbefore.next hdefined

end Lists

/-! ### Vectors in lock step with lists -/

/-- A defined state of the source's implementation that stands for lists. -/
def RunStands (cap : ℕ)
    (state : Option (World ι (ArrayVec (Element ι V)) (IntoIter (Element ι V))))
    (lists : World ι (List (Element ι V)) (List (Element ι V)) × List (Element ι V)) : Prop :=
  ∃ world, state = some world ∧ world.Stands cap lists.1

/-- A step of the source's implementation is defined, and the lists take the same step. -/
lemma World.Stands.step {dropPanics : Element ι V → Bool}
    {world : World ι (ArrayVec (Element ι V)) (IntoIter (Element ι V))}
    {lists : World ι (List (Element ι V)) (List (Element ι V)) × List (Element ι V)}
    (h : world.Stands cap lists.1) (hmax : cap ≤ usizeMax) (action : Action ι V σ) :
    Option.Rel (RunStands cap) (world.next (arrayImpl cap dropPanics) action)
      (((lists.1.next (listImpl cap dropPanics) action).bind id).map fun world =>
        (world, leaks cap dropPanics lists.1 action ++ lists.2)) := by
  have hboth := World.Stands.next dropPanics h hmax action
  generalize world.next (arrayImpl cap dropPanics) action = state at hboth ⊢
  generalize lists.1.next (listImpl cap dropPanics) action = plain at hboth ⊢
  cases hboth with
  | none => exact .none
  | some hstands =>
    obtain ⟨world', plain', rfl, rfl, hafter⟩ := hstands
    exact .some ⟨world', rfl, hafter⟩

/-- Whatever destructors, predicates, clones and iterators unwind, the vectors and iterators of the
source go on in lock step with lists and without an undefined access, and each element is returned,
dropped, held or leaked in one place. Nothing leaks as long as every call returns. -/
theorem arrayVec_survives_unwinding (hmax : cap ≤ usizeMax) (dropPanics : Element ι V → Bool)
    {actions : List (Action ι V σ)}
    {state : Option (World ι (ArrayVec (Element ι V)) (IntoIter (Element ι V)))}
    (h : (runs ι V σ cap dropPanics).Run (some World.start) actions state) :
    ∃ world plain leaked, state = some world ∧
      (listRuns ι V σ cap dropPanics).Run (World.start, []) actions (plain, leaked) ∧
      world.Stands cap plain ∧ Survives plain leaked := by
  have hstart : RunStands cap (some (World.start :
      World ι (ArrayVec (Element ι V)) (IntoIter (Element ι V)))) (World.start, []) :=
    ⟨_, rfl, .nil, .nil, rfl, rfl⟩
  have hnext : ∀ state lists (action : Action ι V σ), RunStands cap state lists →
      Option.Rel (RunStands cap)
        (state.bind fun world => world.next (arrayImpl cap dropPanics) action)
        (((lists.1.next (listImpl cap dropPanics) action).bind id).map fun world =>
          (world, leaks cap dropPanics lists.1 action ++ lists.2)) := by
    rintro state lists action ⟨world, rfl, hstands⟩
    exact hstands.step hmax action
  obtain ⟨⟨plain, leaked⟩, hrun, world, hworld, hstands⟩ := h.lockstep _ hnext hstart
  exact ⟨world, plain, leaked, hworld, hrun, hstands, survives_of_run hrun⟩

/-- A `retain` that unwinds in the destructor of the element it rejects keeps the first element and
leaks the third one; the vector is pushed to, cloned, iterated over and dropped after it. -/
def retainCalls : List (Action ℕ ℕ Unit) :=
  [.new, .apply 0 (.push ⟨1, 10⟩), .apply 0 (.push ⟨2, 20⟩), .apply 0 (.push ⟨3, 30⟩),
    .apply 0 (.retain (fun _ value => (if value == 20 then .reject else .keep, value, ())) ()),
    .apply 0 (.push ⟨4, 40⟩), .clone 0 fun _ element => some ⟨element.id + 4, element.value⟩,
    .dropVec 0, .intoIter 0, .next 0, .dropIter 0]

theorem arrayVec_survives_unwinding_retain :
    ∃ world plain leaked,
      ((System.replay (fun state action => state.bind fun world =>
          world.next (arrayImpl 3 fun element => element.id == 2) action)
        (some World.start) retainCalls).get rfl) = some world ∧
      (listRuns ℕ ℕ Unit 3 fun element => element.id == 2).Run (World.start, []) retainCalls
        (plain, leaked) ∧
      world.Stands 3 plain ∧ Survives plain leaked :=
  arrayVec_survives_unwinding (Nat.le_of_ble_eq_true rfl) (fun element => element.id == 2)
    (System.run_replay rfl)

end DoomFishUtils.ArrayVec.Unwinding
