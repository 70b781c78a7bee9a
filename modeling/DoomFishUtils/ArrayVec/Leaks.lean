import DoomFishUtils.ArrayVec.Refinement
import DoomFishUtils.ArrayVec.Unwinding

/-!
# What unwinding leaves of vectors

The cells behind the length of a vector may keep elements that an unwinding has left there. Whatever
they hold, the operations do to the live elements what they do to a list, without an undefined
access.
-/

namespace DoomFishUtils.ArrayVec.Unwinding

set_option autoImplicit false

open Library

variable {ι V σ T A B I J : Type} {cap : ℕ}

/-- A vector holds its elements in the cells before its length, whatever the other cells hold. -/
structure Stores (cap : ℕ) (vec : ArrayVec T) (items : List T) : Prop where
  len : vec.len = items.length
  cells : Cells.Block vec.items 0 items
  room : items.length ≤ cap

/-- An iterator holds the elements that it has left between its start and its end. -/
structure IterStores (cap : ℕ) (iter : IntoIter T) (items : List T) : Prop where
  stop : iter.stop = iter.start + items.length
  cells : Cells.Block iter.items iter.start items
  room : iter.stop ≤ cap

/-- Loops that end alike and leave what corresponds. -/
structure Loop.Stands (R : A → B → Prop) (loop : Loop A T) (plain : Loop B T) : Prop where
  ending : loop.ending = plain.ending
  left : R loop.left plain.left
  given : loop.given = plain.given
  dropped : loop.dropped = plain.dropped

/-- Effects that differ only in what holds the elements. -/
structure Effect.Stands (R : A → B → Prop) (S : I → J → Prop) (effect : Effect A I T)
    (plain : Effect B J T) : Prop where
  ending : effect.ending = plain.ending
  vec : Option.Rel R effect.vec plain.vec
  iter : Option.Rel S effect.iter plain.iter
  given : effect.given = plain.given
  returned : effect.returned = plain.returned
  dropped : effect.dropped = plain.dropped

lemma Loop.Stands.effect {R : A → B → Prop} {S : I → J → Prop} {loop : Loop A T} {plain : Loop B T}
    (h : loop.Stands R plain) :
    (loop.effect : Effect A I T).Stands R S (plain.effect : Effect B J T) :=
  ⟨h.ending, .some h.left, .none, h.given, rfl, h.dropped⟩

lemma Loop.Stands.made {R : A → B → Prop} {S : I → J → Prop} {loop : Loop (Option A) T}
    {plain : Loop (Option B) T} (h : loop.Stands (Option.Rel R) plain) :
    (loop.made : Effect A I T).Stands R S (plain.made : Effect B J T) :=
  ⟨h.ending, h.left, .none, h.given, rfl, h.dropped⟩

/-! ### Operations that drop nothing -/

section Operations

variable {vec : ArrayVec T} {items : List T}

lemma stores_new (cap : ℕ) : Stores cap (new : ArrayVec T) [] :=
  ⟨rfl, Cells.block_nil _ _, Nat.zero_le cap⟩

lemma Stores.push (h : Stores cap vec items) (hlt : items.length < cap) (value : T) :
    ∃ vec', vec.push cap value = some ⟨.ok (), vec', []⟩ ∧ Stores cap vec' (items ++ [value]) := by
  obtain ⟨cells, hwrite, hblock⟩ := Cells.Block.write h.cells (by rwa [Nat.zero_add])
  rw [Nat.zero_add] at hwrite
  refine ⟨⟨vec.len + 1, cells⟩, ?_, ⟨?_, hblock, ?_⟩⟩
  · unfold ArrayVec.push
    rw [h.len, if_pos hlt, hwrite]
    rfl
  · rw [h.len, List.length_append, List.length_singleton]
  · rw [List.length_append, List.length_singleton]
    exact hlt

lemma Stores.push_full (h : Stores cap vec items) (hfull : ¬items.length < cap) (value : T) :
    vec.push cap value = some ⟨.error .full, vec, [value]⟩ := by
  unfold ArrayVec.push
  rw [h.len, if_neg hfull]

lemma Stores.pop_nil (h : Stores cap vec []) : vec.pop cap = some (none, vec) :=
  if_pos h.len

lemma Stores.pop_append {value : T} (h : Stores cap vec (items ++ [value])) :
    ∃ vec', vec.pop cap = some (some value, vec') ∧ Stores cap vec' items := by
  have hroom := h.room
  rw [List.length_append, List.length_singleton] at hroom
  obtain ⟨cells, hread, hblock⟩ := h.cells.read_last (show 0 + items.length < cap by omega)
  rw [Nat.zero_add] at hread
  have hlen : vec.len - 1 = items.length := by
    rw [h.len, List.length_append, List.length_singleton, Nat.add_sub_cancel]
  refine ⟨⟨vec.len - 1, cells⟩, ?_, ⟨hlen, hblock, by omega⟩⟩
  unfold ArrayVec.pop
  rw [if_neg (by rw [h.len]; simp), hlen, hread]
  rfl

lemma Stores.pop (h : Stores cap vec items) :
    ∃ vec', vec.pop cap = some (items.getLast?, vec') ∧ Stores cap vec' items.dropLast := by
  rcases List.eq_nil_or_concat items with rfl | ⟨front, last, rfl⟩
  · exact ⟨vec, h.pop_nil, h⟩
  · rw [List.concat_eq_append] at h ⊢
    rw [List.getLast?_concat, List.dropLast_concat]
    exact h.pop_append

lemma Stores.insert {front back : List T} (h : Stores cap vec (front ++ back))
    (hlt : (front ++ back).length < cap) (value : T) :
    ∃ vec', vec.insert cap front.length value = some ⟨.ok (), vec', []⟩ ∧
      Stores cap vec' (front ++ value :: back) := by
  have hlen := h.len
  rw [List.length_append] at hlt hlen
  rcases Cells.block_append.mp h.cells with ⟨hfront, hback⟩
  rw [Nat.zero_add] at hback
  obtain ⟨cells, hmove, hmoved, hsame⟩ :=
    @Cells.Block.move _ cap back front.length vec.items (front.length + 1) hback (by omega) (by omega)
  have hwrite : Cells.write cap cells front.length value =
      some (Function.update cells front.length (some value)) := if_pos (by omega)
  refine ⟨⟨vec.len + 1, Function.update cells front.length (some value)⟩, ?_, ⟨?_, ?_, ?_⟩⟩
  · unfold ArrayVec.insert
    rw [hlen, if_pos (Nat.le_add_right _ _), if_pos hlt, Nat.add_sub_cancel_left, hmove,
      Option.bind_eq_bind, Option.bind_some, hwrite]
    rfl
  · rw [hlen, List.length_append, List.length_cons, Nat.add_assoc]
  · refine Cells.block_append.mpr ⟨?_, ?_⟩
    · refine Cells.Block.update (hfront.congr fun place _ hplace => hsame place ?_ ?_)
        (.inr (by omega)) _ <;> omega
    · rw [Nat.zero_add]
      exact Cells.block_cons.mpr ⟨Function.update_self .., hmoved.update (.inl (by omega)) _⟩
  · rw [List.length_append, List.length_cons]
    omega

lemma Stores.remove {front back : List T} {value : T} (h : Stores cap vec (front ++ value :: back)) :
    ∃ vec', vec.remove cap front.length = some ⟨.ok value, vec', []⟩ ∧
      Stores cap vec' (front ++ back) := by
  have hlen := h.len
  have hroom := h.room
  rw [List.length_append, List.length_cons] at hlen hroom
  rcases Cells.block_append.mp h.cells with ⟨hfront, hback⟩
  rw [Nat.zero_add] at hback
  obtain ⟨cells, hread, hrest, hother⟩ := hback.read (by omega : front.length < cap)
  obtain ⟨cells', hmove, hmoved, hsame⟩ :=
    @Cells.Block.move _ cap back (front.length + 1) cells front.length hrest (by omega) (by omega)
  refine ⟨⟨vec.len - 1, cells'⟩, ?_, ⟨?_, ?_, ?_⟩⟩
  · unfold ArrayVec.remove
    rw [hlen, if_pos (by omega), hread, Option.bind_eq_bind, Option.bind_some]
    dsimp only
    rw [show front.length + (back.length + 1) - 1 - front.length = back.length by omega, hmove]
    rfl
  · rw [hlen, List.length_append, ← Nat.add_assoc, Nat.add_sub_cancel]
  · refine Cells.block_append.mpr ⟨hfront.congr fun place _ hplace => ?_, by rwa [Nat.zero_add]⟩
    exact (hsame place (by omega) (by omega)).trans (hother place (by omega))
  · rw [List.length_append]
    omega

lemma Stores.intoIter (h : Stores cap vec items) : IterStores cap vec.intoIter items :=
  ⟨h.len.trans (Nat.zero_add _).symm, h.cells, h.len.trans_le h.room⟩

lemma Stores.drain {front mid back : List T} (h : Stores cap vec (front ++ (mid ++ back)))
    {range : RangeBounds}
    (hrange : range.resolve (front ++ (mid ++ back)).length =
      some (front.length, front.length + mid.length)) :
    ∃ vec' iter, vec.drain cap range = some ⟨.ok iter, vec', []⟩ ∧
      Stores cap vec' (front ++ back) ∧ IterStores cap iter mid := by
  have hlen := h.len
  have hroom := h.room
  rw [← hlen] at hrange
  simp only [List.length_append] at hlen hroom
  rcases Cells.block_append.mp h.cells with ⟨hfront, hrest⟩
  rcases Cells.block_append.mp hrest with ⟨hmid, hback⟩
  rw [Nat.zero_add] at hmid hback
  obtain ⟨cells, drained, htransfer, hdrained, hkept⟩ :=
    @Cells.Block.transfer _ cap mid front.length vec.items .uninit hmid (by omega)
  have hback' : Cells.Block cells (front.length + mid.length) back :=
    hback.congr fun place hplace _ => hkept place (.inr hplace)
  obtain ⟨cells', hmove, hmoved, hsame⟩ :=
    @Cells.Block.move _ cap back _ cells front.length hback' (by omega) (by omega)
  refine ⟨⟨vec.len - mid.length, cells'⟩, ArrayVec.intoIter ⟨mid.length, drained⟩, ?_, ⟨?_, ?_, ?_⟩,
    ⟨(Nat.zero_add _).symm, hdrained, ?_⟩⟩
  · unfold ArrayVec.drain
    rw [hrange]
    dsimp only
    rw [Nat.add_sub_cancel_left, htransfer, Option.bind_eq_bind, Option.bind_some]
    dsimp only
    rw [show vec.len - (front.length + mid.length) = back.length by omega, hmove]
    rfl
  · dsimp only
    rw [List.length_append]
    omega
  · refine Cells.block_append.mpr ⟨hfront.congr fun place _ hplace => ?_, by rwa [Nat.zero_add]⟩
    exact (hsame place (by omega) (by omega)).trans (hkept place (.inl (by omega)))
  · rw [List.length_append]
    omega
  · change mid.length ≤ cap
    omega

end Operations

/-! ### Loops that drop -/

section Loops

variable (dropPanics : T → Bool) {vec : ArrayVec T} {items : List T}

lemma listTruncate_append {front : List T} {last : T} {len : ℕ} (hlen : len ≤ front.length) :
    listTruncate dropPanics (front ++ [last]) len =
      if dropPanics last then ⟨.unwound, front, [], [last]⟩
      else
        let rest := listTruncate dropPanics front len
        { rest with dropped := last :: rest.dropped } := by
  unfold listTruncate
  rw [List.drop_append_of_le_length hlen, List.take_append_of_le_length hlen, List.reverse_append,
    List.reverse_singleton, List.singleton_append, untilPanic]
  split_ifs
  · dsimp only
    rw [List.reverse_reverse, List.take_append_drop]
  · rfl

lemma listTruncate_of_le {len : ℕ} (hlen : items.length ≤ len) :
    listTruncate dropPanics items len = ⟨.returned, items, [], []⟩ := by
  unfold listTruncate
  rw [List.drop_of_length_le hlen, List.take_of_length_le hlen]
  exact congrArg (fun left => Loop.mk _ left _ _) (List.append_nil items)

lemma truncateLoop_of (len rounds : ℕ) (h : Stores cap vec items) (hrounds : items.length ≤ rounds) :
    ∃ loop, truncateLoop cap dropPanics len rounds vec = some loop ∧
      loop.Stands (Stores cap) (listTruncate dropPanics items len) := by
  induction rounds generalizing vec items with
  | zero =>
    rw [listTruncate_of_le dropPanics (hrounds.trans (Nat.zero_le len))]
    exact ⟨_, rfl, rfl, h, rfl, rfl⟩
  | succ rounds ih =>
    unfold truncateLoop
    rw [h.len]
    by_cases hlong : len < items.length
    · rw [if_pos hlong]
      rcases List.eq_nil_or_concat items with rfl | ⟨front, last, rfl⟩
      · cases hlong
      · rw [List.concat_eq_append] at h hlong hrounds ⊢
        rw [List.length_append, List.length_singleton] at hlong hrounds
        obtain ⟨vec', hpop, hrest⟩ := h.pop_append
        rw [hpop, listTruncate_append dropPanics (Nat.le_of_lt_succ hlong), Option.bind_eq_bind,
          Option.bind_some]
        dsimp only
        rw [Option.any_some]
        split_ifs
        · exact ⟨_, rfl, rfl, hrest, rfl, rfl⟩
        · obtain ⟨loop, hloop, hstands⟩ := ih hrest (Nat.le_of_succ_le_succ hrounds)
          rw [hloop]
          exact ⟨_, rfl, hstands.ending, hstands.left, hstands.given,
            congrArg (last :: ·) hstands.dropped⟩
    · rw [if_neg hlong, listTruncate_of_le dropPanics (Nat.le_of_not_lt hlong)]
      exact ⟨_, rfl, rfl, h, rfl, rfl⟩

lemma retainLoop_of (keep : σ → T → Ruling × T × σ) (front back : List T) (index : ℕ) (state : σ)
    {cells : Cells T} (hfront : Cells.Block cells 0 front) (hback : Cells.Block cells index back)
    (hgap : front.length ≤ index) (hcap : index + back.length ≤ cap) :
    ∃ loop, retainLoop cap dropPanics keep back.length index state ⟨front.length, cells⟩ = some loop ∧
      loop.ending = (listRetain dropPanics keep state back).ending ∧
      Stores cap loop.left (front ++ (listRetain dropPanics keep state back).left) ∧
      loop.given = (listRetain dropPanics keep state back).given ∧
      loop.dropped = (listRetain dropPanics keep state back).dropped := by
  induction back generalizing front index state cells with
  | nil =>
    rw [List.length_nil] at hcap
    refine ⟨_, rfl, rfl, ?_, rfl, rfl⟩
    rw [listRetain, List.append_nil]
    exact ⟨rfl, hfront, by omega⟩
  | cons value back ih =>
    rw [List.length_cons] at hcap ⊢
    obtain ⟨cells', hread, hrest, hother⟩ := hback.read (by omega : index < cap)
    have hkept : Cells.Block cells' 0 front :=
      hfront.congr fun place _ hplace => hother place (by omega)
    have hleft : Stores cap ⟨front.length, cells'⟩ (front ++ []) := by
      rw [List.append_nil]
      exact ⟨rfl, hkept, by omega⟩
    unfold retainLoop listRetain
    rw [hread, Option.bind_eq_bind, Option.bind_some]
    dsimp only
    rcases keep state value with ⟨_ | _ | _, changed, state'⟩ <;> dsimp only
    case keep =>
      have hwrite : Cells.write cap cells' front.length changed =
          some (Function.update cells' front.length (some changed)) := if_pos (by omega)
      have hmore : Cells.Block (Function.update cells' front.length (some changed)) 0
          (front ++ [changed]) :=
        Cells.block_append.mpr ⟨hkept.update (.inr (by omega)) _,
          Cells.block_cons.mpr ⟨by rw [Nat.zero_add, Function.update_self], Cells.block_nil _ _⟩⟩
      rw [hwrite, Option.bind_eq_bind, Option.bind_some]
      have hafter := ih (front ++ [changed]) (index + 1) state' hmore
        (hrest.update (.inl (by omega)) _) (by simpa using hgap) (by omega)
      rw [List.length_append, List.length_singleton, List.append_assoc] at hafter
      exact hafter
    case reject =>
      split_ifs
      · exact ⟨_, rfl, rfl, hleft, rfl, rfl⟩
      · obtain ⟨loop, hloop, hending, hstores, hgiven, hdropped⟩ :=
          ih front (index + 1) state' hkept hrest (Nat.le_succ_of_le hgap) (by omega)
        rw [hloop]
        exact ⟨_, rfl, hending, hstores, hgiven, congrArg (changed :: ·) hdropped⟩
    case panic => exact ⟨_, rfl, rfl, hleft, rfl, rfl⟩

lemma extendLoop_of (source : ℕ → Yield T) (room position : ℕ) (h : Stores cap vec items)
    (hroom : items.length + room = cap) :
    ∃ loop, extendLoop cap dropPanics source (room + 1) position vec = some loop ∧
      loop.ending = (listExtend dropPanics source room position).ending ∧
      Stores cap loop.left (items ++ (listExtend dropPanics source room position).left) ∧
      loop.given = (listExtend dropPanics source room position).given ∧
      loop.dropped = (listExtend dropPanics source room position).dropped := by
  have hsame : Stores cap vec (items ++ []) := by rwa [List.append_nil]
  induction room generalizing position vec items with
  | zero =>
    unfold extendLoop listExtend
    cases source position with
    | done => exact ⟨_, rfl, rfl, hsame, rfl, rfl⟩
    | panic => exact ⟨_, rfl, rfl, hsame, rfl, rfl⟩
    | item value =>
      dsimp only
      rw [h.push_full (by omega) value]
      exact ⟨_, rfl, rfl, hsame, rfl, rfl⟩
  | succ room ih =>
    unfold extendLoop listExtend
    cases source position with
    | done => exact ⟨_, rfl, rfl, hsame, rfl, rfl⟩
    | panic => exact ⟨_, rfl, rfl, hsame, rfl, rfl⟩
    | item value =>
      obtain ⟨vec', hpush, hmore⟩ := h.push (by omega) value
      dsimp only
      rw [hpush]
      have hlength : (items ++ [value]).length + room = cap := by
        rw [List.length_append, List.length_singleton]
        omega
      obtain ⟨loop, hloop, hending, hstores, hgiven, hdropped⟩ :=
        ih (position + 1) hmore hlength (by rwa [List.append_nil])
      rw [List.append_assoc] at hstores
      refine ⟨{ loop with given := value :: loop.given }, ?_, hending, hstores,
        congrArg (value :: ·) hgiven, hdropped⟩
      change (extendLoop cap dropPanics source (room + 1) (position + 1) vec').bind _ = _
      rw [hloop]
      rfl

lemma extend_of (source : ℕ → Yield T) (h : Stores cap vec items) :
    ∃ loop, extend cap dropPanics source vec = some loop ∧
      loop.ending = (listExtend dropPanics source (cap - items.length) 0).ending ∧
      Stores cap loop.left (items ++ (listExtend dropPanics source (cap - items.length) 0).left) ∧
      loop.given = (listExtend dropPanics source (cap - items.length) 0).given ∧
      loop.dropped = (listExtend dropPanics source (cap - items.length) 0).dropped := by
  unfold extend
  rw [h.len]
  exact extendLoop_of dropPanics source _ 0 h (Nat.add_sub_cancel' h.room)

lemma dropInPlace_of (isUnwinding : Bool) {index : ℕ} {cells : Cells T}
    (h : Cells.Block cells index items) (hcap : index + items.length ≤ cap) :
    dropInPlace cap dropPanics isUnwinding items.length index cells =
      some ((untilAbort dropPanics isUnwinding items).1,
        (untilAbort dropPanics isUnwinding items).2.1) := by
  induction items generalizing isUnwinding index cells with
  | nil => rfl
  | cons value items ih =>
    rw [List.length_cons] at hcap ⊢
    obtain ⟨cells', hread, hrest, -⟩ := h.read (by omega : index < cap)
    unfold dropInPlace untilAbort
    rw [hread, Option.bind_eq_bind, Option.bind_some]
    dsimp only
    split_ifs
    · rfl
    · rw [ih _ hrest (by omega)]
      rfl

lemma dropVec_of (h : Stores cap vec items) :
    dropVec cap dropPanics vec = some ((untilAbort dropPanics false items).1,
      (untilAbort dropPanics false items).2.1) := by
  unfold dropVec
  rw [h.len]
  exact dropInPlace_of dropPanics false h.cells (by rw [Nat.zero_add]; exact h.room)

lemma dropLoop_of {index : ℕ} {cells : Cells T} (h : Cells.Block cells index items)
    (hcap : index + items.length ≤ cap) :
    dropLoop cap dropPanics items.length index cells =
      some ((untilPanic dropPanics items).1, (untilPanic dropPanics items).2.1) := by
  induction items generalizing index cells with
  | nil => rfl
  | cons value items ih =>
    rw [List.length_cons] at hcap ⊢
    obtain ⟨cells', hread, hrest, -⟩ := h.read (by omega : index < cap)
    unfold dropLoop untilPanic
    rw [hread, Option.bind_eq_bind, Option.bind_some]
    dsimp only
    split_ifs
    · rfl
    · rw [ih hrest (by omega)]
      rfl

lemma fromIter_of (cap : ℕ) (source : ℕ → Yield T) :
    ∃ loop, fromIter cap dropPanics source = some loop ∧
      loop.Stands (Option.Rel (Stores cap)) (listFromIter cap dropPanics source).toLoop := by
  obtain ⟨filled, hfilled, hending, hstores, hgiven, hdropped⟩ :=
    extend_of dropPanics source (stores_new cap)
  rw [List.nil_append, List.length_nil, Nat.sub_zero] at hstores
  rw [List.length_nil, Nat.sub_zero] at hending hgiven hdropped
  unfold fromIter listFromIter
  rw [hfilled, Option.bind_eq_bind, Option.bind_some, hending]
  generalize listExtend dropPanics source cap 0 = plain at hstores hgiven hdropped ⊢
  rcases plain with ⟨ending, left, given, dropped⟩
  dsimp only at hstores hgiven hdropped ⊢
  cases ending with
  | returned => exact ⟨_, rfl, rfl, .some hstores, hgiven, hdropped⟩
  | unwound =>
    dsimp only
    have hroom : 0 + left.length ≤ cap := (Nat.zero_add _).trans_le hstores.room
    rw [hstores.len, dropInPlace_of dropPanics true hstores.cells hroom]
    exact ⟨_, rfl, rfl, .none, hgiven, congrArg (· ++ _) hdropped⟩
  | aborted => exact ⟨_, rfl, rfl, .none, hgiven, hdropped⟩

lemma clone_of (copy : ℕ → T → Option T) (h : Stores cap vec items) :
    ∃ loop, clone cap dropPanics copy vec = some loop ∧
      loop.Stands (Option.Rel (Stores cap))
        (listFromIter cap dropPanics (cloned copy items)).toLoop := by
  have hslice : vec.asSlice cap = some items := by
    unfold asSlice
    rw [h.len]
    exact h.cells.contents (by rw [Nat.zero_add]; exact h.room)
  unfold clone
  rw [hslice]
  exact fromIter_of dropPanics cap (cloned copy items)

end Loops

/-! ### Iterators -/

section Iterators

variable (dropPanics : T → Bool) {iter : IntoIter T} {items : List T}

lemma IterStores.next (h : IterStores cap iter items) :
    ∃ iter', iter.next cap = some (items.head?, iter') ∧ IterStores cap iter' items.tail := by
  have hstop := h.stop
  have hroom := h.room
  unfold IntoIter.next
  rcases items with _ | ⟨value, items⟩
  · exact ⟨iter, if_pos hstop.symm, h⟩
  · rw [List.length_cons] at hstop
    obtain ⟨cells, hread, hrest, -⟩ := h.cells.read (by omega : iter.start < cap)
    rw [if_neg (by omega), hread]
    refine ⟨_, rfl, ?_, hrest, hroom⟩
    change iter.stop = iter.start + 1 + items.length
    omega

lemma IterStores.nextBack (h : IterStores cap iter items) :
    ∃ iter', iter.nextBack cap = some (items.getLast?, iter') ∧
      IterStores cap iter' items.dropLast := by
  have hstop := h.stop
  have hroom := h.room
  unfold IntoIter.nextBack
  rcases List.eq_nil_or_concat items with rfl | ⟨front, last, rfl⟩
  · exact ⟨iter, if_pos hstop.symm, h⟩
  · rw [List.concat_eq_append] at h hstop ⊢
    rw [List.length_append, List.length_singleton] at hstop
    obtain ⟨cells, hread, hrest⟩ :=
      h.cells.read_last (show iter.start + front.length < cap by omega)
    rw [if_neg (by omega), show iter.stop - 1 = iter.start + front.length by omega, hread,
      List.getLast?_concat, List.dropLast_concat]
    refine ⟨_, rfl, rfl, hrest, ?_⟩
    change iter.start + front.length ≤ cap
    omega

lemma dropIter_of (h : IterStores cap iter items) :
    dropIter cap dropPanics iter = some ((untilPanic dropPanics items).1,
      (untilPanic dropPanics items).2.1) := by
  unfold dropIter
  rw [h.stop, Nat.add_sub_cancel_left]
  exact dropLoop_of dropPanics h.cells (h.stop ▸ h.room)

end Iterators

/-! ### Lock step -/

section Steps

variable (dropPanics : Element ι V → Bool) {vec : ArrayVec (Element ι V)}
  {items : List (Element ι V)}

/-- An operation in place. -/
lemma Stores.apply (h : Stores cap vec items) (hmax : cap ≤ usizeMax) (op : Op ι V σ) :
    ∃ effect, arrayApply cap dropPanics vec op = some effect ∧
      effect.Stands (Stores cap) (IterStores cap) (listApply cap dropPanics items op) := by
  have hkept : Option.Rel (Stores cap) (some vec) (some items) := .some h
  rcases op with element | _ | ⟨index, element⟩ | index | len | _ | ⟨keep, state⟩ | range |
      source <;>
    unfold arrayApply listApply <;> dsimp only
  case push =>
    by_cases hlt : items.length < cap
    · obtain ⟨vec', hpush, hmore⟩ := h.push hlt element
      rw [hpush, if_pos hlt]
      exact ⟨_, rfl, rfl, .some hmore, .none, rfl, rfl, rfl⟩
    · rw [h.push_full hlt, if_neg hlt]
      exact ⟨_, rfl, rfl, hkept, .none, rfl, rfl, rfl⟩
  case pop =>
    obtain ⟨vec', hpop, hless⟩ := h.pop
    rw [hpop]
    exact ⟨_, rfl, rfl, .some hless, .none, rfl, rfl, rfl⟩
  case insert =>
    by_cases hfits : index ≤ items.length ∧ items.length < cap
    · rw [if_pos hfits]
      rcases exists_append_of_le hfits.1 with ⟨front, back, rfl, rfl⟩
      obtain ⟨vec', hinsert, hmore⟩ := h.insert hfits.2 element
      rw [insertIdx_append, hinsert]
      exact ⟨_, rfl, rfl, .some hmore, .none, rfl, rfl, rfl⟩
    · rw [if_neg hfits]
      unfold ArrayVec.insert
      rw [h.len]
      by_cases hle : index ≤ items.length
      · rw [if_pos hle, if_neg (fun hlt => hfits ⟨hle, hlt⟩)]
        exact ⟨_, rfl, rfl, hkept, .none, rfl, rfl, rfl⟩
      · rw [if_neg hle]
        exact ⟨_, rfl, rfl, hkept, .none, rfl, rfl, rfl⟩
  case remove =>
    rcases hget : items[index]? with _ | element
    · unfold ArrayVec.remove
      rw [h.len, if_neg (Nat.not_lt.mpr (List.getElem?_eq_none_iff.mp hget))]
      exact ⟨_, rfl, rfl, hkept, .none, rfl, rfl, rfl⟩
    · rcases List.getElem?_eq_some_iff.mp hget with ⟨hlt, hget⟩
      rcases exists_append_of_lt hlt with ⟨front, back, hitems, hfront⟩
      rw [hget] at hitems
      subst hitems hfront
      obtain ⟨vec', hremove, hless⟩ := h.remove
      rw [hremove, eraseIdx_append]
      exact ⟨_, rfl, rfl, .some hless, .none, rfl, rfl, rfl⟩
  case truncate =>
    obtain ⟨loop, hloop, hstands⟩ :=
      truncateLoop_of dropPanics len vec.len h h.len.ge
    exact ⟨_, congrArg (Option.map Loop.effect) hloop, hstands.effect⟩
  case clear =>
    obtain ⟨loop, hloop, hstands⟩ :=
      truncateLoop_of dropPanics 0 vec.len h h.len.ge
    exact ⟨_, congrArg (Option.map Loop.effect) hloop, hstands.effect⟩
  case retain =>
    have hroom : 0 + items.length ≤ cap := (Nat.zero_add _).trans_le h.room
    obtain ⟨loop, hloop, hending, hleft, hgiven, hdropped⟩ :=
      retainLoop_of dropPanics (Element.rule keep) [] items 0 state (Cells.block_nil _ _) h.cells
        (Nat.le_refl 0) hroom
    rw [← h.len] at hloop
    exact ⟨_, congrArg (Option.map Loop.effect) hloop, hending, .some hleft, .none, hgiven, rfl,
      hdropped⟩
  case drain =>
    by_cases hwithin : range.Within items.length
    · have hresolve := resolve_of_within (h.room.trans hmax) hwithin
      rw [if_pos hwithin]
      rcases exists_append_of_le_of_le hwithin.1 hwithin.2 with
        ⟨front, mid, back, hitems, hstart, hstop⟩
      rw [hstart, hstop] at hresolve
      rw [hstart, hstop]
      subst hitems
      obtain ⟨vec', iter, hdrain, hless, htaken⟩ := h.drain hresolve
      rw [hdrain, take_append_append, drop_append_append, List.take_left, List.drop_left]
      exact ⟨_, rfl, rfl, .some hless, .some htaken, rfl, rfl, rfl⟩
    · unfold ArrayVec.drain
      rw [if_neg hwithin, h.len, resolve_of_not_within hwithin]
      exact ⟨_, rfl, rfl, hkept, .none, rfl, rfl, rfl⟩
  case extend =>
    obtain ⟨loop, hloop, hending, hleft, hgiven, hdropped⟩ :=
      extend_of dropPanics source h
    exact ⟨_, congrArg (Option.map Loop.effect) hloop, hending, .some hleft, .none, hgiven, rfl,
      hdropped⟩

/-- A state of vectors and iterators that stands for lists. -/
structure World.Stands (cap : ℕ) (world : World ι (ArrayVec (Element ι V)) (IntoIter (Element ι V)))
    (plain : World ι (List (Element ι V)) (List (Element ι V))) : Prop where
  vecs : List.Forall₂ (Stores cap) world.vecs plain.vecs
  iters : List.Forall₂ (IterStores cap) world.iters plain.iters
  aborted : world.aborted = plain.aborted
  log : world.log = plain.log

lemma forall₂_place {R : A → B → Prop} {xs : List A} {ys : List B} (h : List.Forall₂ R xs ys)
    (index : ℕ) {x : Option A} {y : Option B} (hxy : Option.Rel R x y) :
    List.Forall₂ R (World.place xs index x) (World.place ys index y) := by
  cases hxy with
  | none => exact forall₂_eraseIdx h index
  | some hrel => exact forall₂_set h hrel index

lemma forall₂_toList_append {R : A → B → Prop} {xs : List A} {ys : List B}
    (h : List.Forall₂ R xs ys) {x : Option A} {y : Option B} (hxy : Option.Rel R x y) :
    List.Forall₂ R (x.toList ++ xs) (y.toList ++ ys) := by
  cases hxy with
  | none => exact h
  | some hrel => exact .cons hrel h

variable {world : World ι (ArrayVec (Element ι V)) (IntoIter (Element ι V))}
  {plain : World ι (List (Element ι V)) (List (Element ι V))}
  {effect : Effect (ArrayVec (Element ι V)) (IntoIter (Element ι V)) (Element ι V)}
  {effect' : Effect (List (Element ι V)) (List (Element ι V)) (Element ι V)}

lemma Effect.Stands.event (h : effect.Stands (Stores cap) (IterStores cap) effect') :
    effect.event = effect'.event := by
  unfold Effect.event
  rw [h.ending, h.given, h.returned, h.dropped]

lemma World.Stands.make (h : world.Stands cap plain)
    (heffect : effect.Stands (Stores cap) (IterStores cap) effect') :
    (world.make effect).Stands cap (plain.make effect') :=
  ⟨forall₂_toList_append h.vecs heffect.vec, h.iters, congrArg (· == Ending.aborted) heffect.ending,
    congr (congrArg List.cons heffect.event) h.log⟩

lemma World.Stands.atVec (h : world.Stands cap plain) (index : ℕ)
    (heffect : effect.Stands (Stores cap) (IterStores cap) effect') :
    (world.atVec index effect).Stands cap (plain.atVec index effect') :=
  ⟨forall₂_place h.vecs index heffect.vec, forall₂_toList_append h.iters heffect.iter,
    congrArg (· == Ending.aborted) heffect.ending, congr (congrArg List.cons heffect.event) h.log⟩

lemma World.Stands.atIter (h : world.Stands cap plain) (index : ℕ)
    (heffect : effect.Stands (Stores cap) (IterStores cap) effect') :
    (world.atIter index effect).Stands cap (plain.atIter index effect') :=
  ⟨h.vecs, forall₂_place h.iters index heffect.iter, congrArg (· == Ending.aborted) heffect.ending,
    congr (congrArg List.cons heffect.event) h.log⟩

/-- A defined state that stands for lists. -/
def StateStands (cap : ℕ)
    (state : Option (World ι (ArrayVec (Element ι V)) (IntoIter (Element ι V))))
    (plain : Option (World ι (List (Element ι V)) (List (Element ι V)))) : Prop :=
  ∃ world lists, state = some world ∧ plain = some lists ∧ world.Stands cap lists

/-- The source's implementation and the lists go in lock step. -/
lemma World.Stands.next (h : world.Stands cap plain) (hmax : cap ≤ usizeMax)
    (action : Action ι V σ) :
    Option.Rel (StateStands cap) (world.next (arrayImpl cap dropPanics) action)
      (plain.next (listImpl cap dropPanics) action) := by
  unfold World.next
  rw [h.aborted]
  split_ifs
  · exact .none
  rcases action with _ | source | ⟨index, copy⟩ | ⟨index, op⟩ | index | index | index | index |
    index <;> dsimp only
  case new => exact .some ⟨_, _, rfl, rfl, .cons (stores_new cap) h.vecs, h.iters, rfl, h.log⟩
  case fromIter =>
    obtain ⟨loop, hloop, hstands⟩ := fromIter_of dropPanics cap source
    refine .some ⟨_, _, ?_, rfl, h.make hstands.made⟩
    exact congrArg (fun result => (result.map Loop.made).map world.make) hloop
  case clone =>
    refine rel_map (forall₂_getElem? h.vecs index) fun vec items hstores => ?_
    obtain ⟨loop, hloop, hstands⟩ := clone_of dropPanics copy hstores
    refine ⟨_, _, ?_, rfl, h.make hstands.made⟩
    exact congrArg (fun result => (result.map Loop.made).map world.make) hloop
  case apply =>
    refine rel_map (forall₂_getElem? h.vecs index) fun vec items hstores => ?_
    obtain ⟨effect, heffect, hstands⟩ := hstores.apply dropPanics hmax op
    exact ⟨_, _, congrArg (Option.map (world.atVec index)) heffect, rfl, h.atVec index hstands⟩
  case dropVec =>
    refine rel_map (forall₂_getElem? h.vecs index) fun vec items hstores => ?_
    refine ⟨_, _, congrArg (fun result => (result.map dropEffect).map (world.atVec index))
      (dropVec_of dropPanics hstores), rfl, h.atVec index ⟨rfl, .none, .none, rfl, rfl, rfl⟩⟩
  case intoIter =>
    refine rel_map (forall₂_getElem? h.vecs index) fun vec items hstores => ?_
    exact ⟨_, _, rfl, rfl, forall₂_eraseIdx h.vecs index, .cons hstores.intoIter h.iters, rfl,
      h.log⟩
  case next =>
    refine rel_map (forall₂_getElem? h.iters index) fun iter items hstores => ?_
    obtain ⟨iter', hnext, hrest⟩ := hstores.next
    refine ⟨_, _, congrArg (fun result => (result.map yieldEffect).map (world.atIter index)) hnext,
      rfl, h.atIter index ⟨rfl, .none, .some hrest, rfl, rfl, rfl⟩⟩
  case nextBack =>
    refine rel_map (forall₂_getElem? h.iters index) fun iter items hstores => ?_
    obtain ⟨iter', hnext, hrest⟩ := hstores.nextBack
    refine ⟨_, _, congrArg (fun result => (result.map yieldEffect).map (world.atIter index)) hnext,
      rfl, h.atIter index ⟨rfl, .none, .some hrest, rfl, rfl, rfl⟩⟩
  case dropIter =>
    refine rel_map (forall₂_getElem? h.iters index) fun iter items hstores => ?_
    refine ⟨_, _, congrArg (fun result => (result.map dropEffect).map (world.atIter index))
      (dropIter_of dropPanics hstores), rfl, h.atIter index ⟨rfl, .none, .none, rfl, rfl, rfl⟩⟩

end Steps

end DoomFishUtils.ArrayVec.Unwinding
