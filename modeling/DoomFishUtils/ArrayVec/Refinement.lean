import DoomFishUtils.ArrayVec.Runs

/-!
# The vector in an array is a list

Whatever the operations do, the live elements are in the cells that the length and the iterators
say, they are those of the plain list, and each of them is accounted for.
-/

namespace DoomFishUtils.ArrayVec

set_option autoImplicit false

open Library

variable {ι V σ T : Type} {cap : ℕ}

section Ranges

lemma checkedAdd_cases (first second : ℕ) : checkedAdd first second = some (first + second) ∨
    checkedAdd first second = none ∧ usizeMax < first + second := by
  unfold checkedAdd
  split_ifs with h
  · exact .inl rfl
  · exact .inr ⟨rfl, Nat.lt_of_not_le h⟩

lemma startIndex_cases (bound : Bound) : bound.startIndex = some bound.lower ∨
    bound.startIndex = none ∧ usizeMax < bound.lower := by
  rcases bound with start | start | _
  · exact .inl rfl
  · exact checkedAdd_cases start 1
  · exact .inl rfl

lemma endIndex_cases (bound : Bound) (len : ℕ) : bound.endIndex len = some (bound.upper len) ∨
    bound.endIndex len = none ∧ usizeMax < bound.upper len := by
  rcases bound with stop | stop | _
  · exact checkedAdd_cases stop 1
  · exact .inl rfl
  · exact .inl rfl

variable {range : RangeBounds} {len : ℕ}

/-- The checked arithmetic of `drain` accepts a range within the list. -/
lemma resolve_of_within (hlen : len ≤ usizeMax) (h : range.Within len) :
    range.resolve len = some (range.startBound.lower, range.endBound.upper len) := by
  rcases h with ⟨hle, hend⟩
  unfold RangeBounds.resolve
  rcases startIndex_cases range.startBound with hstart | ⟨-, hover⟩
  · rcases endIndex_cases range.endBound len with hstop | ⟨-, hover⟩
    · rw [hstart, hstop]
      exact if_pos ⟨hle, hend⟩
    · omega
  · omega

/-- And it accepts no other range. -/
lemma resolve_of_not_within (h : ¬range.Within len) : range.resolve len = none := by
  unfold RangeBounds.resolve
  rcases startIndex_cases range.startBound with hstart | ⟨hstart, -⟩ <;> rw [hstart]
  rcases endIndex_cases range.endBound len with hstop | ⟨hstop, -⟩ <;> rw [hstop]
  exact if_neg h

end Ranges

section Operations

variable {items : List T}

lemma exists_append_of_le {index : ℕ} (h : index ≤ items.length) :
    ∃ front back, items = front ++ back ∧ front.length = index :=
  ⟨items.take index, items.drop index, (List.take_append_drop index items).symm,
    List.length_take_of_le h⟩

lemma exists_append_of_lt {index : ℕ} (h : index < items.length) :
    ∃ front back, items = front ++ items[index] :: back ∧ front.length = index := by
  refine ⟨items.take index, items.drop (index + 1), ?_, List.length_take_of_le (Nat.le_of_lt h)⟩
  rw [← List.drop_eq_getElem_cons h, List.take_append_drop]

lemma exists_append_of_le_of_le {start stop : ℕ} (hstart : start ≤ stop)
    (hstop : stop ≤ items.length) :
    ∃ front mid back, items = front ++ (mid ++ back) ∧ start = front.length ∧
      stop = front.length + mid.length := by
  rcases exists_append_of_le (hstart.trans hstop) with ⟨front, rest, rfl, rfl⟩
  rw [List.length_append] at hstop
  have hrest : stop - front.length ≤ rest.length := by omega
  rcases exists_append_of_le hrest with ⟨mid, back, rfl, hmid⟩
  exact ⟨front, mid, back, rfl, rfl, by omega⟩

lemma take_append_append (front mid back : List T) :
    (front ++ (mid ++ back)).take (front.length + mid.length) = front ++ mid := by
  rw [← List.append_assoc, ← List.length_append, List.take_left]

lemma drop_append_append (front mid back : List T) :
    (front ++ (mid ++ back)).drop (front.length + mid.length) = back := by
  rw [← List.append_assoc, ← List.length_append, List.drop_left]

lemma eraseIdx_append (front back : List T) (value : T) :
    (front ++ value :: back).eraseIdx front.length = front ++ back := by
  rw [List.eraseIdx_append_of_length_le (Nat.le_refl _), Nat.sub_self]
  rfl

lemma insertIdx_append (front back : List T) (value : T) :
    (front ++ back).insertIdx front.length value = front ++ value :: back := by
  induction front with
  | nil => rfl
  | cons head front ih =>
    rw [List.cons_append, List.length_cons, List.insertIdx_succ_cons, ih]
    rfl

lemma pop_of (hcap : items.length ≤ cap) :
    (of items).pop cap = some (items.getLast?, of items.dropLast) := by
  rcases List.eq_nil_or_concat items with rfl | ⟨front, last, rfl⟩
  · rfl
  · rw [List.concat_eq_append, List.length_append] at hcap
    rw [List.concat_eq_append, pop_of_append last hcap, List.getLast?_concat, List.dropLast_concat]

lemma remove_of (hcap : items.length ≤ cap) {index : ℕ} {value : T}
    (hget : items[index]? = some value) :
    (of items).remove cap index = some ⟨.ok value, of (items.eraseIdx index), []⟩ := by
  rcases List.getElem?_eq_some_iff.mp hget with ⟨hlt, hget⟩
  rcases exists_append_of_lt hlt with ⟨front, back, hitems, hfront⟩
  rw [hget] at hitems
  subst hitems hfront
  rw [List.length_append, List.length_cons] at hcap
  rw [remove_of_lt (by omega), eraseIdx_append]

lemma drain_of_within (hcap : items.length ≤ cap) (hmax : cap ≤ usizeMax) {range : RangeBounds}
    (hwithin : range.Within items.length) :
    (of items).drain cap range = some ⟨.ok (IntoIter.of 0
        ((items.take (range.endBound.upper items.length)).drop range.startBound.lower)),
      of (items.take range.startBound.lower ++
        items.drop (range.endBound.upper items.length)), []⟩ := by
  have hresolve := resolve_of_within (hcap.trans hmax) hwithin
  rcases exists_append_of_le_of_le hwithin.1 hwithin.2 with
    ⟨front, mid, back, hitems, hstart, hstop⟩
  rw [hstart, hstop] at hresolve
  rw [hstart, hstop]
  subst hitems
  simp only [List.length_append] at hcap
  rw [drain_of hresolve (by omega), take_append_append, drop_append_append, List.take_left,
    List.drop_left]

end Operations

/-- The outcome of an operation on a list, with the vector and the iterator in their cells. -/
def Applied.stored (applied : Applied ι V σ (List (Element ι V)) (List (Element ι V))) :
    Applied ι V σ (ArrayVec (Element ι V)) (IntoIter (Element ι V)) where
  answer := applied.answer
  vec := of applied.vec
  iter := applied.iter.map (IntoIter.of 0)
  dropped := applied.dropped

variable {items : List (Element ι V)}

/-- Each operation of the source does to the cells what it does to the list. -/
lemma arrayApply_of (hcap : items.length ≤ cap) (hmax : cap ≤ usizeMax) (op : Op ι V σ) :
    arrayApply cap (of items) op = some (listApply cap items op).stored := by
  rcases op with element | _ | ⟨index, element⟩ | index | len | _ | ⟨keep, state⟩ | range <;>
    unfold arrayApply listApply <;> dsimp only
  case push =>
    by_cases hlt : items.length < cap
    · rw [push_of_lt hlt, if_pos hlt]
      rfl
    · rw [push_of_full hlt, if_neg hlt]
      rfl
  case pop =>
    rw [pop_of hcap]
    rfl
  case insert =>
    by_cases hle : index ≤ items.length
    · rw [if_pos hle]
      by_cases hlt : items.length < cap
      · rcases exists_append_of_le hle with ⟨front, back, rfl, rfl⟩
        rw [if_pos hlt, insertIdx_append]
        rw [List.length_append] at hlt
        rw [insert_of_le hlt]
        rfl
      · rw [insert_of_full hle hlt, if_neg hlt]
        rfl
    · rw [insert_of_gt hle, if_neg hle]
      rfl
  case remove =>
    rcases hget : items[index]? with _ | element
    · rw [remove_of_ge (Nat.not_lt.mpr (List.getElem?_eq_none_iff.mp hget))]
      rfl
    · rw [remove_of hcap hget]
      rfl
  case truncate =>
    rw [truncate_of len hcap]
    rfl
  case clear =>
    rw [clear_of hcap]
    rfl
  case retain =>
    rw [retain_of _ state hcap]
    rfl
  case drain =>
    by_cases hwithin : range.Within items.length
    · rw [drain_of_within hcap hmax hwithin, if_pos hwithin]
      rfl
    · rw [drain_of_none (resolve_of_not_within hwithin), if_neg hwithin]
      rfl

/-! ### What the list operations do -/

/-- An operation on a list panics where it is refused, and then changes nothing. -/
lemma listApply_refused (hcap : items.length ≤ cap) (op : Op ι V σ) :
    ((∃ panic, (listApply cap items op).answer = .error panic) ↔ op.Refused cap items) ∧
      (op.Refused cap items → (listApply cap items op).vec = items ∧
        (listApply cap items op).iter = none) := by
  rcases op with element | _ | ⟨index, element⟩ | index | len | _ | ⟨keep, state⟩ | range <;>
    unfold listApply Op.Refused <;> dsimp only
  case push =>
    by_cases hlt : items.length < cap
    · rw [if_pos hlt]
      exact ⟨⟨nofun, fun hfull => by omega⟩, fun hfull => by omega⟩
    · rw [if_neg hlt]
      exact ⟨⟨fun _ => by omega, fun _ => ⟨_, rfl⟩⟩, fun _ => ⟨rfl, rfl⟩⟩
  case insert =>
    by_cases hle : index ≤ items.length
    · rw [if_pos hle]
      by_cases hlt : items.length < cap
      · rw [if_pos hlt]
        exact ⟨⟨nofun, fun hrefused => by omega⟩, fun hrefused => by omega⟩
      · rw [if_neg hlt]
        exact ⟨⟨fun _ => by omega, fun _ => ⟨_, rfl⟩⟩, fun _ => ⟨rfl, rfl⟩⟩
    · rw [if_neg hle]
      exact ⟨⟨fun _ => by omega, fun _ => ⟨_, rfl⟩⟩, fun _ => ⟨rfl, rfl⟩⟩
  case remove =>
    rcases hget : items[index]? with _ | element
    · have hle := List.getElem?_eq_none_iff.mp hget
      exact ⟨⟨fun _ => hle, fun _ => ⟨_, rfl⟩⟩, fun _ => ⟨rfl, rfl⟩⟩
    · rcases List.getElem?_eq_some_iff.mp hget with ⟨hlt, -⟩
      exact ⟨⟨nofun, fun hle => by omega⟩, fun hle => by omega⟩
  case drain =>
    by_cases hwithin : range.Within items.length
    · rw [if_pos hwithin]
      exact ⟨⟨nofun, fun hnot => absurd hwithin hnot⟩, fun hnot => absurd hwithin hnot⟩
    · rw [if_neg hwithin]
      exact ⟨⟨fun _ => hwithin, fun _ => ⟨_, rfl⟩⟩, fun _ => ⟨rfl, rfl⟩⟩
  all_goals exact ⟨⟨nofun, nofun⟩, nofun⟩

/-! ### Conservation -/

/-- The elements that an operation is given. -/
def Op.given : Op ι V σ → List (Element ι V)
  | .push element => [element]
  | .insert _ element => [element]
  | _ => []

/-- The elements that an answer returns. -/
def Answer.elements : Answer ι V σ → List (Element ι V)
  | .popped element => element.toList
  | .removed element => [element]
  | _ => []

/-- The identities that an event puts in. -/
def Event.given : Event ι V σ → List ι
  | .applied op _ _ => op.given.map Element.id
  | _ => []

/-- The identities that an event returns or drops. -/
def Event.ended : Event ι V σ → List ι
  | .applied _ answer lost =>
    ((answer.toOption.toList.flatMap Answer.elements) ++ lost).map Element.id
  | .yielded element => element.toList.map Element.id
  | .dropped elements => elements.map Element.id

/-- The elements that the vector and the iterators hold. -/
def World.elements (world : World ι V σ (List (Element ι V)) (List (Element ι V))) :
    List (Element ι V) :=
  world.vec.toList.flatten ++ world.iters.flatten

/-- Their identities. -/
def World.held (world : World ι V σ (List (Element ι V)) (List (Element ι V))) : List ι :=
  world.elements.map Element.id

/-- `retain` keeps or drops each element once. -/
lemma retained_perm (keep : σ → V → Bool × V × σ) (state : σ) (elements : List (Element ι V)) :
    (elements.map Element.id).Perm
      (((retained (Element.test keep) state elements).2.2 ++
        (retained (Element.test keep) state elements).2.1).map Element.id) := by
  induction elements generalizing state with
  | nil => exact .refl _
  | cons element elements ih =>
    have hrest := ih (Element.test keep state element).2.2
    unfold retained
    dsimp only
    split_ifs
    · rw [List.map_append, List.map_cons]
      rw [List.map_append] at hrest
      exact (hrest.cons element.id).trans List.perm_middle.symm
    · exact hrest.cons element.id

/-- What an operation is given is returned, dropped, held by the vector or by a new iterator. -/
lemma listApply_conserves (op : Op ι V σ) :
    ((items ++ op.given).map Element.id).Perm
      (Event.ended (.applied op (listApply cap items op).answer (listApply cap items op).dropped) ++
        ((listApply cap items op).vec ++ (listApply cap items op).iter.toList.flatten).map
          Element.id) := by
  rcases op with element | _ | ⟨index, element⟩ | index | len | _ | ⟨keep, state⟩ | range <;>
    unfold listApply Op.given <;> dsimp only
  case push =>
    split_ifs
    · simp [Event.ended, Answer.elements, Except.toOption]
    · simp [Event.ended, Except.toOption]
  case pop =>
    rcases List.eq_nil_or_concat items with rfl | ⟨front, last, rfl⟩
    · exact .refl _
    · rw [List.concat_eq_append, List.getLast?_concat, List.dropLast_concat]
      simp [Event.ended, Answer.elements, Except.toOption]
  case insert =>
    split_ifs with hle hlt
    · rcases exists_append_of_le hle with ⟨front, back, rfl, rfl⟩
      have hmoved : (front ++ back ++ [element]).Perm (front ++ element :: back) := by
        rw [List.append_assoc]
        exact (List.perm_append_singleton element back).append_left front
      rw [insertIdx_append]
      simpa [Event.ended, Answer.elements, Except.toOption] using hmoved.map Element.id
    · simp [Event.ended, Except.toOption]
    · simp [Event.ended, Except.toOption]
  case remove =>
    rcases hget : items[index]? with _ | element
    · simp [Event.ended, Except.toOption]
    · rcases List.getElem?_eq_some_iff.mp hget with ⟨hlt, hget⟩
      rcases exists_append_of_lt hlt with ⟨front, back, hitems, hfront⟩
      rw [hget] at hitems
      subst hitems hfront
      rw [eraseIdx_append]
      simp [Event.ended, Answer.elements, Except.toOption]
  case truncate =>
    have hsplit : items.Perm ((items.drop len).reverse ++ items.take len) := by
      calc
        items = items.take len ++ items.drop len := (List.take_append_drop len items).symm
        List.Perm _ (items.drop len ++ items.take len) := List.perm_append_comm
        List.Perm _ _ := (List.reverse_perm _).symm.append_right _
    simpa [Event.ended, Answer.elements, Except.toOption] using hsplit.map Element.id
  case clear =>
    simp [Event.ended, Answer.elements, Except.toOption]
  case retain =>
    simpa [Event.ended, Answer.elements, Except.toOption] using retained_perm keep state items
  case drain =>
    split_ifs with hwithin
    · rcases exists_append_of_le_of_le hwithin.1 hwithin.2 with
        ⟨front, mid, back, hitems, hstart, hstop⟩
      have hmoved : (front ++ (mid ++ back)).Perm (front ++ back ++ mid) := by
        rw [List.append_assoc]
        exact List.perm_append_comm.append_left front
      rw [hstart, hstop, hitems, take_append_append, drop_append_append, List.take_left,
        List.drop_left]
      simpa [Event.ended, Answer.elements, Except.toOption] using hmoved.map Element.id
    · simp [Event.ended, Except.toOption]

lemma retained_length (keep : σ → T → Bool × T × σ) (state : σ) (values : List T) :
    (retained keep state values).2.1.length ≤ values.length := by
  induction values generalizing state with
  | nil => exact Nat.le_refl 0
  | cons value values ih =>
    unfold retained
    dsimp only
    split_ifs
    · exact Nat.succ_le_succ (ih _)
    · exact Nat.le_succ_of_le (ih _)

/-- An operation leaves room for what it leaves. -/
lemma listApply_length (hcap : items.length ≤ cap) (op : Op ι V σ) :
    (listApply cap items op).vec.length ≤ cap ∧
      ∀ taken, (listApply cap items op).iter = some taken → taken.length ≤ cap := by
  rcases op with element | _ | ⟨index, element⟩ | index | len | _ | ⟨keep, state⟩ | range <;>
    unfold listApply <;> dsimp only
  case push =>
    split_ifs with hlt
    · exact ⟨by rwa [List.length_append], nofun⟩
    · exact ⟨hcap, nofun⟩
  case pop =>
    refine ⟨?_, nofun⟩
    rw [List.length_dropLast]
    omega
  case insert =>
    split_ifs with hle hlt
    · exact ⟨by rwa [List.length_insertIdx_of_le_length hle], nofun⟩
    · exact ⟨hcap, nofun⟩
    · exact ⟨hcap, nofun⟩
  case remove =>
    rcases items[index]? with _ | element
    · exact ⟨hcap, nofun⟩
    · exact ⟨(List.length_eraseIdx_le items index).trans hcap, nofun⟩
  case truncate =>
    refine ⟨?_, nofun⟩
    rw [List.length_take]
    omega
  case clear => exact ⟨Nat.zero_le _, nofun⟩
  case retain => exact ⟨(retained_length _ _ _).trans hcap, nofun⟩
  case drain =>
    split_ifs with hwithin
    · rcases hwithin with ⟨hle, hend⟩
      refine ⟨?_, fun taken htaken => ?_⟩
      · rw [List.length_append, List.length_take, List.length_drop]
        omega
      · cases htaken
        rw [List.length_drop, List.length_take]
        omega
    · exact ⟨hcap, nofun⟩

/-! ### Runs -/

/-- The cells hold these elements from a place on, and nothing else. -/
def HoldsFrom (cells : Cells T) (start : ℕ) (elements : List T) : Prop :=
  ∀ index, cells index = if index < start then none else elements[index - start]?

/-- An iterator holds the elements that it has left between its start and its end. -/
structure IntoIter.Represents (cap : ℕ) (iter : IntoIter T) (elements : List T) : Prop where
  stop : iter.stop = iter.start + elements.length
  cells : HoldsFrom iter.items iter.start elements
  room : iter.stop ≤ cap

/-- A vector holds its elements in the cells before its length. -/
structure Represents (cap : ℕ) (vec : ArrayVec T) (elements : List T) : Prop where
  len : vec.len = elements.length
  cells : HoldsFrom vec.items 0 elements
  room : vec.len ≤ cap

/-- The state of the source's vector and iterators that stands for lists. -/
structure World.Represents (cap : ℕ)
    (world : World ι V σ (ArrayVec (Element ι V)) (IntoIter (Element ι V)))
    (plain : World ι V σ (List (Element ι V)) (List (Element ι V))) : Prop where
  vec : Option.Rel (ArrayVec.Represents cap) world.vec plain.vec
  iters : List.Forall₂ (IntoIter.Represents cap) world.iters plain.iters
  log : world.log = plain.log

lemma IntoIter.represents_iff {iter : IntoIter T} {elements : List T} :
    iter.Represents cap elements ↔
      iter = IntoIter.of iter.start elements ∧ iter.start + elements.length ≤ cap := by
  constructor
  · rintro ⟨hstop, hcells, hroom⟩
    refine ⟨?_, hstop ▸ hroom⟩
    rcases iter with ⟨cells, start, stop⟩
    have hgap : cells = Cells.gap [] start elements := by
      funext index
      exact hcells index
    exact congr (congrArg (fun cells => IntoIter.mk cells start) hgap) hstop
  · rintro ⟨hiter, hroom⟩
    rw [hiter]
    exact ⟨rfl, fun index => rfl, hroom⟩

lemma represents_iff {vec : ArrayVec T} {elements : List T} :
    Represents cap vec elements ↔ vec = of elements ∧ elements.length ≤ cap := by
  constructor
  · rintro ⟨hlen, hcells, hroom⟩
    refine ⟨?_, hlen ▸ hroom⟩
    rcases vec with ⟨len, cells⟩
    have hlayout : cells = Cells.layout elements := by
      funext index
      exact hcells index
    exact congr (congrArg ArrayVec.mk hlen) hlayout
  · rintro ⟨rfl, hroom⟩
    exact ⟨rfl, fun index => rfl, hroom⟩

end DoomFishUtils.ArrayVec
