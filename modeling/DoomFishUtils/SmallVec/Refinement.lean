import DoomFishUtils.ArrayVec.Soundness
import DoomFishUtils.SmallVec.Dedup

/-!
# The vector with inline storage is a list

A small vector stands for a list wherever its elements are.  Each operation takes it to a vector
that stands for what the operation leaves of the list, and a vector on the heap stays there.
-/

namespace DoomFishUtils.SmallVec

set_option autoImplicit false

open Library
open ArrayVec (Panic RangeBounds usizeMax)

variable {T σ : Type} {N : ℕ} {vec : SmallVec T} {items : List T}

/-- The vector holds these elements, inline in no more than `N` cells or on the heap. -/
inductive Represents (N : ℕ) : SmallVec T → List T → Prop where
  | inline {array : ArrayVec T} {items : List T} (h : array.Represents N items) :
    Represents N ⟨.inline array⟩ items
  | heap (items : List T) : Represents N ⟨.heap items⟩ items

def OnHeap (vec : SmallVec T) : Prop :=
  ∃ stored, vec = ⟨.heap stored⟩

/-- What a vector becomes when it is changed in place to hold these elements. -/
structure Becomes (N : ℕ) (vec after : SmallVec T) (items : List T) : Prop where
  represents : after.Represents N items
  onHeap : vec.OnHeap → after.OnHeap

lemma represents_of (hcap : items.length ≤ N) :
    Represents N ⟨.inline (ArrayVec.of items)⟩ items :=
  .inline (ArrayVec.represents_iff.mpr ⟨rfl, hcap⟩)

lemma becomes_inline (array : ArrayVec T) (hcap : items.length ≤ N) :
    Becomes N ⟨.inline array⟩ ⟨.inline (ArrayVec.of items)⟩ items := by
  refine ⟨represents_of hcap, ?_⟩
  rintro ⟨stored, hstored⟩
  cases hstored

lemma becomes_heap (vec : SmallVec T) (items : List T) : Becomes N vec ⟨.heap items⟩ items :=
  ⟨.heap items, fun _ => ⟨items, rfl⟩⟩

lemma Represents.becomes (h : vec.Represents N items) : Becomes N vec vec items :=
  ⟨h, id⟩

lemma Becomes.trans {after last : SmallVec T} {between : List T} (h : Becomes N vec after between)
    (hnext : Becomes N after last items) : Becomes N vec last items :=
  ⟨hnext.represents, fun hheap => hnext.onHeap (h.onHeap hheap)⟩

lemma Represents.asSlice (h : vec.Represents N items) : vec.asSlice N = some items := by
  cases h with
  | inline h =>
    rcases ArrayVec.represents_iff.mp h with ⟨rfl, hcap⟩
    exact ArrayVec.asSlice_of hcap
  | heap => rfl

/-! ### Iterators -/

lemma collectLoop_of (start : ℕ) (hroom : start + items.length ≤ N) :
    collectLoop N (items.length + 1) (ArrayVec.IntoIter.of start items) = some items := by
  induction items generalizing start with
  | nil =>
    unfold collectLoop
    rw [ArrayVec.IntoIter.next_of_nil]
    rfl
  | cons value items ih =>
    rw [List.length_cons] at hroom ⊢
    unfold collectLoop
    rw [ArrayVec.IntoIter.next_of_cons value (by omega), Option.bind_eq_bind, Option.bind_some]
    dsimp only
    rw [ih (start + 1) (by omega)]
    rfl

lemma collect_of (hroom : items.length ≤ N) :
    collect N (ArrayVec.IntoIter.of 0 items) = some items := by
  have hcount : 0 + items.length - 0 + 1 = items.length + 1 := by omega
  unfold collect
  dsimp only [ArrayVec.IntoIter.of]
  rw [hcount]
  exact collectLoop_of 0 (by rwa [Nat.zero_add])

/-- An iterator that has these elements left. -/
inductive Iter.Represents (N : ℕ) : Iter T → List T → Prop where
  | inline {iter : ArrayVec.IntoIter T} {items : List T} (h : iter.Represents N items) :
    Iter.Represents N (.inline iter) items
  | heap (items : List T) : Iter.Represents N (.heap items) items

lemma Iter.Represents.next {iter : Iter T} (h : iter.Represents N items) :
    ∃ rest, iter.next N = some (items.head?, rest) ∧ rest.Represents N items.tail := by
  cases h with
  | inline h =>
    rcases h.next with ⟨rest, hnext, hrest⟩
    exact ⟨.inline rest, congrArg (Option.map _) hnext, .inline hrest⟩
  | heap => exact ⟨_, rfl, .heap _⟩

lemma Iter.Represents.nextBack {iter : Iter T} (h : iter.Represents N items) :
    ∃ rest, iter.nextBack N = some (items.getLast?, rest) ∧
      rest.Represents N items.dropLast := by
  cases h with
  | inline h =>
    rcases h.nextBack with ⟨rest, hnext, hrest⟩
    exact ⟨.inline rest, congrArg (Option.map _) hnext, .inline hrest⟩
  | heap => exact ⟨_, rfl, .heap _⟩

lemma Iter.Represents.drop {iter : Iter T} (h : iter.Represents N items) :
    iter.drop N = some items := by
  cases h with
  | inline h => exact h.drop
  | heap => rfl

/-- An iterator yields at any ends what the list does. -/
lemma Iter.Represents.consume {iter : Iter T} (h : iter.Represents N items) (ends : List End) :
    iter.consume N ends = some (listConsume ends items) := by
  induction ends generalizing iter items with
  | nil =>
    unfold Iter.consume
    rw [h.drop]
    rfl
  | cons first ends ih =>
    cases first with
    | front =>
      rcases h.next with ⟨rest, hnext, hrest⟩
      unfold Iter.consume
      rw [hnext, Option.bind_eq_bind, Option.bind_some]
      dsimp only
      rw [ih hrest]
      rfl
    | back =>
      rcases h.nextBack with ⟨rest, hnext, hrest⟩
      unfold Iter.consume
      rw [hnext, Option.bind_eq_bind, Option.bind_some]
      dsimp only
      rw [ih hrest]
      rfl

lemma Represents.intoIter (h : vec.Represents N items) : vec.intoIter.Represents N items := by
  cases h with
  | inline h =>
    rcases ArrayVec.represents_iff.mp h with ⟨rfl, hcap⟩
    refine .inline (ArrayVec.IntoIter.represents_iff.mpr ⟨ArrayVec.intoIter_of items, ?_⟩)
    rw [ArrayVec.intoIter_of]
    exact (Nat.zero_add _).le.trans hcap
  | heap => exact .heap items

/-! ### Growing -/

lemma within_all (items : List T) :
    RangeBounds.Within ⟨.unbounded, .unbounded⟩ items.length :=
  ⟨Nat.zero_le _, Nat.le_refl _⟩

lemma Represents.heap_eq (h : vec.Represents N items) (hN : N ≤ usizeMax) :
    vec.heap N = some items := by
  cases h with
  | inline h =>
    rcases ArrayVec.represents_iff.mp h with ⟨rfl, hcap⟩
    have hdrain := ArrayVec.drain_of_within hcap hN (within_all items)
    have hall : (items.take items.length).drop 0 = items := by
      rw [List.drop_zero, List.take_length]
    unfold SmallVec.heap
    dsimp only
    rw [hdrain, Option.bind_eq_bind, Option.bind_some]
    dsimp only [ArrayVec.Bound.upper, ArrayVec.Bound.lower]
    rw [hall]
    exact collect_of hcap
  | heap => rfl

lemma Represents.push (h : vec.Represents N items) (hN : N ≤ usizeMax) (value : T) :
    ∃ after, vec.push N value = some (.ok (), after) ∧ Becomes N vec after (items ++ [value]) := by
  cases h with
  | inline harray =>
    have hheap := (Represents.inline harray).heap_eq hN
    rcases ArrayVec.represents_iff.mp harray with ⟨rfl, hcap⟩
    by_cases hfull : items.length = N
    · have hspill : (Storage.inline (ArrayVec.of items)).inlineIf
          (fun array => !array.isFull N) = none := by
        simp [Storage.inlineIf, ArrayVec.isFull_of, hfull]
      unfold SmallVec.push
      dsimp only
      rw [hspill, hheap]
      exact ⟨_, rfl, becomes_heap _ _⟩
    · have hstay : (Storage.inline (ArrayVec.of items)).inlineIf
          (fun array => !array.isFull N) = some (ArrayVec.of items) := by
        simp [Storage.inlineIf, ArrayVec.isFull_of, hfull]
      have hlt : items.length < N := lt_of_le_of_ne hcap hfull
      unfold SmallVec.push
      dsimp only
      rw [hstay]
      dsimp only
      rw [ArrayVec.push_of_lt hlt]
      exact ⟨_, rfl, becomes_inline _ (by rwa [List.length_append])⟩
  | heap => exact ⟨_, rfl, becomes_heap _ _⟩

lemma Represents.reserve (h : vec.Represents N items) (hN : N ≤ usizeMax) (additional : ℕ) :
    ∃ after, vec.reserve N additional = some after ∧ Becomes N vec after items := by
  have hheap := h.heap_eq hN
  unfold SmallVec.reserve
  rcases vec.storage.inlineIf
    (fun array => decide (saturatingAdd array.len additional ≤ N)) with _ | _
  · dsimp only
    rw [hheap]
    exact ⟨_, rfl, becomes_heap _ _⟩
  · exact ⟨vec, rfl, h.becomes⟩

lemma Represents.pushAll (h : vec.Represents N items) (hN : N ≤ usizeMax) (values : List T) :
    ∃ after, pushAll N values vec = some (.ok (), after) ∧
      Becomes N vec after (items ++ values) := by
  induction values generalizing vec items with
  | nil =>
    rw [List.append_nil]
    exact ⟨vec, rfl, h.becomes⟩
  | cons value values ih =>
    rcases h.push hN value with ⟨next, hpush, hnext⟩
    rcases ih hnext.represents with ⟨after, hrest, hafter⟩
    rw [List.append_assoc] at hafter
    refine ⟨after, ?_, hnext.trans hafter⟩
    unfold SmallVec.pushAll
    rw [hpush]
    exact hrest

lemma Represents.extend (h : vec.Represents N items) (hN : N ≤ usizeMax) (lower : ℕ)
    (values : List T) :
    ∃ after, vec.extend N lower values = some (.ok (), after) ∧
      Becomes N vec after (items ++ values) := by
  rcases h.reserve hN lower with ⟨ready, hreserve, hready⟩
  rcases hready.represents.pushAll hN values with ⟨after, hpush, hafter⟩
  refine ⟨after, ?_, hready.trans hafter⟩
  unfold SmallVec.extend
  rw [hreserve]
  exact hpush

/-! ### Operations in place -/

lemma Represents.pop (h : vec.Represents N items) :
    ∃ after, vec.pop N = some (items.getLast?, after) ∧ Becomes N vec after items.dropLast := by
  cases h with
  | inline h =>
    rcases ArrayVec.represents_iff.mp h with ⟨rfl, hcap⟩
    refine ⟨_, congrArg (Option.map _) (ArrayVec.pop_of hcap), becomes_inline _ ?_⟩
    rw [List.length_dropLast]
    omega
  | heap => exact ⟨_, rfl, becomes_heap _ _⟩

lemma Represents.remove (h : vec.Represents N items) (index : ℕ) :
    ∃ after, vec.remove N index = some ((Vec.remove items index).1, after) ∧
      Becomes N vec after (Vec.remove items index).2 := by
  cases h with
  | inline h =>
    rcases ArrayVec.represents_iff.mp h with ⟨rfl, hcap⟩
    unfold SmallVec.remove Vec.remove
    rcases hget : items[index]? with _ | value
    · have hle := List.getElem?_eq_none_iff.mp hget
      refine ⟨_, congrArg (Option.map _) (ArrayVec.remove_of_ge ?_), becomes_inline _ hcap⟩
      exact Nat.not_lt.mpr hle
    · refine ⟨_, congrArg (Option.map _) (ArrayVec.remove_of hcap hget), becomes_inline _ ?_⟩
      exact (List.length_eraseIdx_le items index).trans hcap
  | heap => exact ⟨_, rfl, becomes_heap _ _⟩

lemma Represents.truncate (h : vec.Represents N items) (len : ℕ) :
    ∃ after, vec.truncate N len = some after ∧ Becomes N vec after (items.take len) := by
  cases h with
  | inline h =>
    rcases ArrayVec.represents_iff.mp h with ⟨rfl, hcap⟩
    refine ⟨_, congrArg (Option.map _) (ArrayVec.truncate_of len hcap), becomes_inline _ ?_⟩
    rw [List.length_take]
    omega
  | heap => exact ⟨_, rfl, becomes_heap _ _⟩

/-- Elements that are changed in place, as many as there are. -/
lemma Represents.asMutSlice (h : vec.Represents N items) :
    ∃ update, vec.asMutSlice N = some (items, update) ∧
      ∀ changed : List T, changed.length = items.length →
        Becomes N vec (update changed) changed := by
  cases h with
  | inline h =>
    rcases ArrayVec.represents_iff.mp h with ⟨rfl, hcap⟩
    rcases ArrayVec.asMutSlice_of hcap with ⟨update, hslice, hupdate⟩
    refine ⟨_, congrArg (Option.map _) hslice, fun changed hlength => ?_⟩
    dsimp only
    rw [hupdate changed hlength]
    exact becomes_inline _ (hlength.le.trans hcap)
  | heap => exact ⟨_, rfl, fun changed _ => becomes_heap _ changed⟩

lemma Represents.dedup (h : vec.Represents N items) (differ : T → T → Bool) :
    ∃ after, vec.dedup N differ = some after ∧ Becomes N vec after (listDedup differ items) := by
  rcases h.asMutSlice with ⟨update, hslice, hupdate⟩
  rcases @dedupLoop_eq _ differ items with ⟨count, changed, hloop, hkept, hlength⟩
  have hchanged := hupdate changed hlength
  rcases hchanged.represents.truncate count with ⟨after, htruncate, hafter⟩
  rw [hkept] at hafter
  refine ⟨after, ?_, hchanged.trans hafter⟩
  unfold SmallVec.dedup
  rw [hslice, Option.bind_eq_bind, Option.bind_some]
  dsimp only
  rw [hloop]
  exact htruncate

lemma Represents.retain (h : vec.Represents N items) (keep : σ → T → Bool × T × σ) (state : σ) :
    ∃ after, vec.retain N keep state = some ((Vec.retainMut keep state items).1, after) ∧
      Becomes N vec after (Vec.retainMut keep state items).2 := by
  cases h with
  | inline h =>
    rcases ArrayVec.represents_iff.mp h with ⟨rfl, hcap⟩
    refine ⟨_, congrArg (Option.map _) (ArrayVec.retain_of keep state hcap), becomes_inline _ ?_⟩
    exact (ArrayVec.retained_length keep state items).trans hcap
  | heap => exact ⟨_, rfl, becomes_heap _ _⟩

/-- A drain, and the vector when it is dropped. -/
lemma Represents.drain_of_ok (h : vec.Represents N items) (hN : N ≤ usizeMax) {range : RangeBounds}
    {drained rest : List T} (hdrain : Vec.drain items range = (.ok drained, rest)) :
    ∃ drain after, vec.drain N range = some (.ok drain, after) ∧ drain.Represents N drained ∧
      Becomes N vec after rest := by
  cases h with
  | inline h =>
    rcases ArrayVec.represents_iff.mp h with ⟨rfl, hcap⟩
    unfold Vec.drain at hdrain
    by_cases hwithin : range.Within items.length
    · rw [if_pos hwithin] at hdrain
      cases hdrain
      refine ⟨_, _, congrArg (Option.map _) (ArrayVec.drain_of_within hcap hN hwithin), .inline ?_,
        becomes_inline _ ?_⟩
      · refine ArrayVec.IntoIter.represents_iff.mpr ⟨rfl, ?_⟩
        dsimp only [ArrayVec.IntoIter.of]
        rw [List.length_drop, List.length_take]
        omega
      · have hle := hwithin.1
        have hend := hwithin.2
        rw [List.length_append, List.length_take, List.length_drop]
        omega
    · rw [if_neg hwithin] at hdrain
      cases hdrain
  | heap =>
    unfold SmallVec.drain
    dsimp only
    rw [hdrain]
    exact ⟨_, _, rfl, .heap drained, becomes_heap _ rest⟩

lemma Represents.drain_of_error (h : vec.Represents N items) {range : RangeBounds} {panic : Panic}
    {rest : List T} (hdrain : Vec.drain items range = (.error panic, rest)) :
    ∃ after, vec.drain N range = some (.error panic, after) ∧ Becomes N vec after rest := by
  cases h with
  | inline h =>
    rcases ArrayVec.represents_iff.mp h with ⟨rfl, hcap⟩
    unfold Vec.drain at hdrain
    by_cases hwithin : range.Within items.length
    · rw [if_pos hwithin] at hdrain
      cases hdrain
    · rw [if_neg hwithin] at hdrain
      cases hdrain
      have hnone := ArrayVec.resolve_of_not_within hwithin
      exact ⟨_, congrArg (Option.map _) (ArrayVec.drain_of_none hnone), becomes_inline _ hcap⟩
  | heap =>
    unfold SmallVec.drain
    dsimp only
    rw [hdrain]
    exact ⟨_, rfl, becomes_heap _ rest⟩

/-- Each operation of the source does to the vector what it does to the list. -/
lemma Represents.apply (h : vec.Represents N items) (hN : N ≤ usizeMax) (op : Op T σ) :
    ∃ after, smallApply N vec op = some ((listApply items op).1, after) ∧
      Becomes N vec after (listApply items op).2 := by
  rcases op with value | _ | index | len | _ | additional | ⟨lower, values⟩ | ⟨copy, slice⟩ |
    differ | ⟨keep, state⟩ | ⟨range, ends⟩ <;> unfold smallApply listApply <;> dsimp only
  case push =>
    rcases h.push hN value with ⟨after, hpush, hafter⟩
    exact ⟨after, congrArg (Option.map _) hpush, hafter⟩
  case pop =>
    rcases h.pop with ⟨after, hpop, hafter⟩
    exact ⟨after, congrArg (Option.map _) hpop, hafter⟩
  case remove =>
    rcases h.remove index with ⟨after, hremove, hafter⟩
    exact ⟨after, congrArg (Option.map _) hremove, hafter⟩
  case truncate =>
    rcases h.truncate len with ⟨after, htruncate, hafter⟩
    exact ⟨after, congrArg (Option.map _) htruncate, hafter⟩
  case clear =>
    rcases h.truncate 0 with ⟨after, htruncate, hafter⟩
    exact ⟨after, congrArg (Option.map _) htruncate, hafter⟩
  case reserve =>
    rcases h.reserve hN additional with ⟨after, hreserve, hafter⟩
    exact ⟨after, congrArg (Option.map _) hreserve, hafter⟩
  case extend =>
    rcases h.extend hN lower values with ⟨after, hextend, hafter⟩
    exact ⟨after, congrArg (Option.map _) hextend, hafter⟩
  case extendFromSlice =>
    rcases h.extend hN slice.length (slice.map copy) with ⟨after, hextend, hafter⟩
    exact ⟨after, congrArg (Option.map _) hextend, hafter⟩
  case dedup =>
    rcases h.dedup differ with ⟨after, hdedup, hafter⟩
    exact ⟨after, congrArg (Option.map _) hdedup, hafter⟩
  case retain =>
    rcases h.retain keep state with ⟨after, hretain, hafter⟩
    exact ⟨after, congrArg (Option.map _) hretain, hafter⟩
  case drain =>
    rcases hdrain : Vec.drain items range with ⟨panic | drained, rest⟩
    · rcases h.drain_of_error hdrain with ⟨after, hdrain, hafter⟩
      rw [hdrain]
      exact ⟨after, rfl, hafter⟩
    · rcases h.drain_of_ok hN hdrain with ⟨drain, after, hdrain, hdrained, hafter⟩
      rw [hdrain, Option.bind_eq_bind, Option.bind_some]
      dsimp only
      rw [hdrained.consume ends]
      exact ⟨after, rfl, hafter⟩

/-! ### Making vectors -/

lemma fromIter_represents (hN : N ≤ usizeMax) (lower : ℕ) (values : List T) :
    ∃ vec, fromIter N lower values = some (.ok vec) ∧ vec.Represents N values := by
  have hnew : Represents N (new : SmallVec T) [] :=
    .inline (ArrayVec.represents_iff.mpr ⟨ArrayVec.new_eq, Nat.zero_le N⟩)
  rcases hnew.extend hN lower values with ⟨vec, hextend, hvec⟩
  refine ⟨vec, ?_, hvec.represents⟩
  unfold fromIter
  rw [hextend]
  rfl

lemma smallMake_represents (hN : N ≤ usizeMax) (source : Source T) :
    ∃ vec, smallMake N source = some (.ok vec) ∧ vec.Represents N (listMake source) := by
  rcases source with _ | ⟨capacity, values⟩ | ⟨lower, values⟩ | ⟨copy, values⟩
  case new =>
    exact ⟨new, rfl, .inline (ArrayVec.represents_iff.mpr ⟨ArrayVec.new_eq, Nat.zero_le N⟩)⟩
  case vec =>
    unfold smallMake fromVec
    dsimp only
    split_ifs
    · exact fromIter_represents hN values.length values
    · exact ⟨_, rfl, .heap values⟩
  case iter => exact fromIter_represents hN lower values
  case slice => exact fromIter_represents hN values.length (values.map copy)

lemma Represents.clone (h : vec.Represents N items) (hN : N ≤ usizeMax) (copy : T → T) :
    ∃ made, vec.clone N copy = some (.ok made) ∧ made.Represents N (items.map copy) := by
  unfold SmallVec.clone
  rw [h.asSlice]
  exact fromIter_represents hN items.length (items.map copy)

end DoomFishUtils.SmallVec
