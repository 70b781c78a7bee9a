import Mathlib.Data.List.Induction
import Mathlib.Logic.Function.Basic

/-!
# Cells of raw memory

An array of cells, each initialised with an element or not.  Reading moves the element out and
copying moves a block of cells, so that every element is in one cell at most; an access outside
the array and a read of an uninitialised cell have no result.

A block of elements at the front and another one further on are the states that the usual
operations on an array go through.
-/

namespace DoomFishUtils.Library

set_option autoImplicit false

/-- What each cell holds; an uninitialised cell holds nothing. -/
abbrev Cells (T : Type*) :=
  ℕ → Option T

namespace Cells

variable {T : Type*}

def uninit : Cells T :=
  fun _ => none

/-- Moves the element out of a cell. -/
def read (capacity : ℕ) (cells : Cells T) (index : ℕ) : Option (T × Cells T) :=
  if index < capacity then
    (cells index).map fun item => (item, Function.update cells index none)
  else none

/-- Initialises a cell. -/
def write (capacity : ℕ) (cells : Cells T) (index : ℕ) (item : T) : Option (Cells T) :=
  if index < capacity then some (Function.update cells index (some item)) else none

/-- Moves a block of cells within an array, to a place that may overlap with the block. -/
def move (capacity : ℕ) (cells : Cells T) (source target count : ℕ) : Option (Cells T) :=
  if source + count ≤ capacity ∧ target + count ≤ capacity then
    some fun index =>
      if target ≤ index ∧ index < target + count then cells (source + (index - target))
      else if source ≤ index ∧ index < source + count then none
      else cells index
  else none

/-- Moves a block of cells to another array of the same capacity. -/
def transfer (capacity : ℕ) (cells other : Cells T) (source target count : ℕ) :
    Option (Cells T × Cells T) :=
  if source + count ≤ capacity ∧ target + count ≤ capacity then
    some (fun index => if source ≤ index ∧ index < source + count then none else cells index,
      fun index =>
        if target ≤ index ∧ index < target + count then cells (source + (index - target))
        else other index)
  else none

/-- Elements at the front and elements from a place on, and nothing else. -/
def gap (front : List T) (start : ℕ) (back : List T) : Cells T :=
  fun index => if index < start then front[index]? else back[index - start]?

/-- Elements from the first cell on, and nothing else. -/
def layout (items : List T) : Cells T :=
  gap [] 0 items

/-- The elements of a block, which stay where they are. -/
def contents (capacity : ℕ) (cells : Cells T) : ℕ → ℕ → Option (List T)
  | _, 0 => some []
  | index, count + 1 =>
    if index < capacity then
      (cells index).bind fun item => (contents capacity cells (index + 1) count).map (item :: ·)
    else none

/-- Moves the elements of a block out, from the first one on. -/
def drain (capacity : ℕ) (cells : Cells T) : ℕ → ℕ → Option (List T × Cells T)
  | _, 0 => some ([], cells)
  | index, count + 1 =>
    (read capacity cells index).bind fun first =>
      (drain capacity first.2 (index + 1) count).map fun rest => (first.1 :: rest.1, rest.2)

/-- Replaces the elements of the first cells, as many as there are. -/
def overwrite (cells : Cells T) (items : List T) : Cells T :=
  fun index => if index < items.length then items[index]? else cells index

variable {capacity : ℕ} {front back items : List T} {start : ℕ} {item : T}

lemma gap_nil (start : ℕ) : gap ([] : List T) start [] = uninit := by
  funext index
  unfold gap
  split_ifs <;> rfl

lemma layout_nil : layout ([] : List T) = uninit :=
  gap_nil 0

/-- The first element after the gap counts to the front where there is no gap. -/
lemma gap_cons (front back : List T) (item : T) :
    gap front front.length (item :: back) = gap (front ++ [item]) (front.length + 1) back := by
  funext index
  unfold gap
  rcases Nat.lt_trichotomy index front.length with hlt | rfl | hgt
  · rw [if_pos hlt, if_pos (Nat.lt_succ_of_lt hlt), List.getElem?_append_left hlt]
  · rw [if_neg (Nat.lt_irrefl _), if_pos (Nat.lt_succ_self _)]
    simp
  · rw [if_neg (Nat.not_lt.mpr (Nat.le_of_lt hgt)), if_neg (Nat.not_lt.mpr hgt)]
    obtain ⟨offset, rfl⟩ : ∃ offset, index = front.length + 1 + offset :=
      ⟨_, (Nat.add_sub_of_le hgt).symm⟩
    rw [Nat.add_sub_cancel_left, show front.length + 1 + offset - front.length = offset + 1 by omega,
      List.getElem?_cons_succ]

/-- Where there is no gap the elements lie side by side. -/
lemma gap_length (front back : List T) : gap front front.length back = layout (front ++ back) := by
  induction front using List.reverseRecOn generalizing back with
  | nil => rfl
  | append_singleton front item ih =>
    rw [List.length_append, List.length_singleton, ← gap_cons, ih, List.append_assoc]
    rfl

/-- Elements at the front only, wherever the end of the gap is. -/
lemma gap_front (h : items.length ≤ start) : gap items start [] = layout items := by
  funext index
  unfold layout gap
  rw [if_neg (Nat.not_lt_zero index)]
  split_ifs with hlt
  · rfl
  · rw [List.getElem?_eq_none (Nat.zero_le _), Nat.sub_zero,
      List.getElem?_eq_none (Nat.le_trans h (Nat.le_of_not_lt hlt))]

lemma gap_of_le {index : ℕ} (h : start ≤ index) :
    gap front start back index = back[index - start]? :=
  if_neg (Nat.not_lt.mpr h)

lemma layout_apply (items : List T) (index : ℕ) : layout items index = items[index]? :=
  gap_of_le (Nat.zero_le index)

/-! ### Reading and writing -/

/-- Reading the first element after the gap widens the gap. -/
lemma read_gap (hgap : front.length ≤ start) (hstart : start < capacity) :
    read capacity (gap front start (item :: back)) start =
      some (item, gap front (start + 1) back) := by
  have hitem : gap front start (item :: back) start = some item := by
    rw [gap_of_le (Nat.le_refl start), Nat.sub_self]
    rfl
  have hrest : Function.update (gap front start (item :: back)) start none =
      gap front (start + 1) back := by
    funext index
    grind [gap, Function.update]
  unfold read
  rw [if_pos hstart, hitem, hrest]
  rfl

/-- Reading the last element after the gap. -/
lemma read_gap_last (hlast : start + items.length < capacity) :
    read capacity (gap front start (items ++ [item])) (start + items.length) =
      some (item, gap front start items) := by
  have hitem : gap front start (items ++ [item]) (start + items.length) = some item := by
    rw [gap_of_le (Nat.le_add_right _ _), Nat.add_sub_cancel_left]
    exact List.getElem?_concat_length
  have hrest : Function.update (gap front start (items ++ [item])) (start + items.length) none =
      gap front start items := by
    funext index
    grind [gap, Function.update]
  unfold read
  rw [if_pos hlast, hitem, hrest]
  rfl

/-- Writing to the first cell of the gap. -/
lemma write_gap (hgap : front.length < start) (hstart : start ≤ capacity) :
    write capacity (gap front start back) front.length item =
      some (gap (front ++ [item]) start back) := by
  have hcells : Function.update (gap front start back) front.length (some item) =
      gap (front ++ [item]) start back := by
    funext index
    grind [gap, Function.update]
  unfold write
  rw [if_pos (Nat.lt_of_lt_of_le hgap hstart), hcells]

/-! ### Moving a block -/

/-- Moving the elements after the gap changes its width. -/
lemma move_gap {target : ℕ} (hstart : front.length ≤ start) (htarget : front.length ≤ target)
    (hsource : start + back.length ≤ capacity) (hend : target + back.length ≤ capacity) :
    move capacity (gap front start back) start target back.length = some (gap front target back) := by
  unfold move
  rw [if_pos ⟨hsource, hend⟩]
  congr 1
  funext index
  grind [gap]

/-- Moving the first elements after the gap to the front of an empty array. -/
lemma transfer_gap (hgap : front.length ≤ start) (hend : start + items.length ≤ capacity) :
    transfer capacity (gap front start (items ++ back)) uninit start 0 items.length =
      some (gap front (start + items.length) back, layout items) := by
  unfold transfer
  rw [if_pos ⟨hend, Nat.le_trans (by omega) hend⟩]
  congr 2
  · funext index
    grind [gap]
  · funext index
    rw [layout_apply]
    by_cases hindex : index < items.length
    · rw [if_pos ⟨Nat.zero_le index, by omega⟩, Nat.sub_zero, gap_of_le (Nat.le_add_right _ _),
        Nat.add_sub_cancel_left, List.getElem?_append_left hindex]
    · rw [if_neg (by omega), List.getElem?_eq_none (Nat.le_of_not_lt hindex)]
      rfl

/-! ### Whole blocks -/

lemma contents_gap (before items : List T) (hend : start + before.length + items.length ≤ capacity) :
    contents capacity (gap front start (before ++ items)) (start + before.length) items.length =
      some items := by
  induction items generalizing before with
  | nil => rfl
  | cons item items ih =>
    have hitem : gap front start (before ++ item :: items) (start + before.length) = some item := by
      rw [gap_of_le (Nat.le_add_right _ _), Nat.add_sub_cancel_left, List.getElem?_append_right
        (Nat.le_refl _), Nat.sub_self]
      rfl
    rw [List.length_cons] at hend ⊢
    have hrest := ih (before ++ [item]) (by simp only [List.length_append, List.length_singleton]; omega)
    rw [List.append_assoc, List.singleton_append, List.length_append, List.length_singleton,
      ← Nat.add_assoc] at hrest
    unfold contents
    rw [if_pos (by omega), hitem, Option.bind_some, hrest]
    rfl

/-- The elements of a block depend on its cells only. -/
lemma contents_congr {cells other : Cells T} {index count : ℕ}
    (h : ∀ place, place < index + count → cells place = other place) :
    contents capacity cells index count = contents capacity other index count := by
  induction count generalizing index with
  | zero => rfl
  | succ count ih =>
    unfold contents
    rw [h index (by omega), ih fun place hplace => h place (by omega)]

lemma contents_layout (hlength : items.length ≤ capacity) :
    contents capacity (layout items) 0 items.length = some items := by
  have hcontents := @contents_gap _ capacity [] 0 [] items
  rw [List.length_nil, Nat.zero_add, Nat.zero_add] at hcontents
  exact hcontents hlength

lemma drain_gap (hgap : front.length ≤ start) (hend : start + items.length ≤ capacity) :
    drain capacity (gap front start items) start items.length =
      some (items, gap front (start + items.length) []) := by
  induction items generalizing start with
  | nil => rfl
  | cons item items ih =>
    rw [List.length_cons] at hend ⊢
    unfold drain
    rw [read_gap hgap (by omega), Option.bind_some, ih (by omega) (by omega), Option.map_some,
      Nat.add_right_comm, Nat.add_assoc]

lemma overwrite_layout {changed : List T} (hlength : changed.length = items.length) :
    overwrite (layout items) changed = layout changed := by
  funext index
  rw [overwrite, layout_apply, layout_apply, hlength]
  split_ifs with hlt
  · rfl
  · rw [List.getElem?_eq_none (Nat.le_of_not_lt hlt),
      List.getElem?_eq_none (hlength ▸ Nat.le_of_not_lt hlt)]

/-! ### Blocks among other cells -/

/-- The elements of a block, whatever the other cells hold. -/
def Block (cells : Cells T) (start : ℕ) (items : List T) : Prop :=
  ∀ index item, items[index]? = some item → cells (start + index) = some item

section Block

variable {cells : Cells T}

lemma block_nil (cells : Cells T) (start : ℕ) : Block cells start [] :=
  fun _ _ h => by cases h

lemma block_append :
    Block cells start (front ++ back) ↔
      Block cells start front ∧ Block cells (start + front.length) back := by
  constructor
  · intro h
    refine ⟨fun index item hitem => h index item ?_, fun index item hitem => ?_⟩
    · rw [List.getElem?_append_left (List.getElem?_eq_some_iff.mp hitem).1, hitem]
    · rw [Nat.add_assoc]
      refine h _ item ?_
      rw [List.getElem?_append_right (Nat.le_add_right _ _), Nat.add_sub_cancel_left, hitem]
  · rintro ⟨hfront, hback⟩ index item hitem
    rcases Nat.lt_or_ge index front.length with hlt | hge
    · rw [List.getElem?_append_left hlt] at hitem
      exact hfront index item hitem
    · rw [List.getElem?_append_right hge] at hitem
      have hcell := hback _ item hitem
      rwa [Nat.add_assoc, Nat.add_sub_cancel' hge] at hcell

lemma block_cons :
    Block cells start (item :: items) ↔ cells start = some item ∧ Block cells (start + 1) items := by
  rw [← List.singleton_append, block_append, List.length_singleton]
  refine and_congr_left fun _ => ⟨fun h => h 0 item rfl, ?_⟩
  rintro h (_ | index) item' hitem
  · cases hitem
    exact h
  · cases hitem

/-- Cells outside a block may change. -/
lemma Block.congr {other : Cells T} (h : Block cells start items)
    (hsame : ∀ place, start ≤ place → place < start + items.length → other place = cells place) :
    Block other start items := by
  intro index item hitem
  have hlt := (List.getElem?_eq_some_iff.mp hitem).1
  rw [hsame _ (Nat.le_add_right _ _) (by omega), h index item hitem]

lemma Block.update {place : ℕ} (h : Block cells start items)
    (houtside : place < start ∨ start + items.length ≤ place) (content : Option T) :
    Block (Function.update cells place content) start items :=
  h.congr fun index hlow hhigh => Function.update_of_ne (by omega) ..

lemma Block.read (h : Block cells start (item :: items)) (hstart : start < capacity) :
    ∃ cells', read capacity cells start = some (item, cells') ∧ Block cells' (start + 1) items ∧
      ∀ place, place ≠ start → cells' place = cells place := by
  rcases block_cons.mp h with ⟨hfirst, hrest⟩
  refine ⟨_, ?_, hrest.update (.inl (Nat.lt_succ_self start)) none,
    fun place hplace => Function.update_of_ne hplace ..⟩
  unfold Cells.read
  rw [if_pos hstart, hfirst]
  rfl

lemma Block.read_last (h : Block cells start (items ++ [item]))
    (hlast : start + items.length < capacity) :
    ∃ cells', Cells.read capacity cells (start + items.length) = some (item, cells') ∧
      Block cells' start items := by
  rcases block_append.mp h with ⟨hfront, hback⟩
  refine ⟨_, ?_, hfront.update (.inr (Nat.le_refl _)) none⟩
  unfold Cells.read
  rw [if_pos hlast, (block_cons.mp hback).1]
  rfl

/-- Writing behind a block. -/
lemma Block.write (h : Block cells start items) (hend : start + items.length < capacity) :
    ∃ cells', Cells.write capacity cells (start + items.length) item = some cells' ∧
      Block cells' start (items ++ [item]) := by
  refine ⟨_, if_pos hend, block_append.mpr ⟨h.update (.inr (Nat.le_refl _)) _, ?_⟩⟩
  exact block_cons.mpr ⟨Function.update_self .., block_nil _ _⟩

/-- Moving a block leaves what is before both its places. -/
lemma Block.move {target : ℕ} (h : Block cells start items) (hsource : start + items.length ≤ capacity)
    (htarget : target + items.length ≤ capacity) :
    ∃ cells', Cells.move capacity cells start target items.length = some cells' ∧
      Block cells' target items ∧
      ∀ place, place < start → place < target → cells' place = cells place := by
  refine ⟨_, if_pos ⟨hsource, htarget⟩, fun index item hitem => ?_, fun place hplace hbefore => ?_⟩
  · have hlt := (List.getElem?_eq_some_iff.mp hitem).1
    dsimp only
    rw [if_pos ⟨Nat.le_add_right _ _, Nat.add_lt_add_left hlt _⟩, Nat.add_sub_cancel_left]
    exact h index item hitem
  · rw [if_neg (by omega), if_neg (by omega)]

/-- Moving a block to another array leaves what is before and behind it. -/
lemma Block.transfer {other : Cells T} (h : Block cells start items)
    (hend : start + items.length ≤ capacity) :
    ∃ cells' other', Cells.transfer capacity cells other start 0 items.length =
        some (cells', other') ∧ Block other' 0 items ∧
      ∀ place, place < start ∨ start + items.length ≤ place → cells' place = cells place := by
  refine ⟨_, _, if_pos ⟨hend, by omega⟩, fun index item hitem => ?_, fun place houtside => ?_⟩
  · have hlt := (List.getElem?_eq_some_iff.mp hitem).1
    dsimp only
    rw [if_pos ⟨Nat.zero_le _, by omega⟩, Nat.zero_add, Nat.sub_zero]
    exact h index item hitem
  · rw [if_neg (by omega)]

lemma Block.contents (h : Block cells start items) (hend : start + items.length ≤ capacity) :
    Cells.contents capacity cells start items.length = some items := by
  induction items generalizing start with
  | nil => rfl
  | cons item items ih =>
    rcases block_cons.mp h with ⟨hfirst, hrest⟩
    rw [List.length_cons] at hend ⊢
    unfold Cells.contents
    rw [if_pos (by omega), hfirst, Option.bind_some, ih hrest (by omega)]
    rfl

end Block

end Cells

end DoomFishUtils.Library
