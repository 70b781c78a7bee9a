import DoomFishUtils.ArrayVec.Model

/-!
# The cells of the vector

A vector that holds a list has its elements in the first cells and nothing in the others.  Each
operation takes it to the vector that holds the resulting list, without an undefined access.
-/

namespace DoomFishUtils.ArrayVec

set_option autoImplicit false

open Library

variable {T σ : Type}

/-- The vector that holds these elements. -/
def of (items : List T) : ArrayVec T :=
  ⟨items.length, Cells.layout items⟩

/-- The iterator that has these elements left, from a cell on. -/
def IntoIter.of (start : ℕ) (items : List T) : IntoIter T :=
  ⟨Cells.gap [] start items, start, start + items.length⟩

variable {cap : ℕ} {items : List T}

lemma new_eq : (new : ArrayVec T) = of [] := by
  unfold new of
  rw [Cells.layout_nil]
  rfl

lemma asSlice_of (hcap : items.length ≤ cap) : (of items).asSlice cap = some items :=
  Cells.contents_layout hcap

lemma asMutSlice_of (hcap : items.length ≤ cap) :
    ∃ update, (of items).asMutSlice cap = some (items, update) ∧
      ∀ changed : List T, changed.length = items.length → update changed = of changed := by
  refine ⟨_, congrArg (Option.map _) (Cells.contents_layout hcap), fun changed hlength => ?_⟩
  dsimp only [of]
  rw [Cells.overwrite_layout hlength, hlength]

lemma isFull_of : (of items).isFull cap = decide (items.length = cap) :=
  rfl

lemma intoIter_of (items : List T) : (of items).intoIter = IntoIter.of 0 items := by
  unfold intoIter of IntoIter.of
  rw [Nat.zero_add]
  rfl

/-! ### Pushing and popping -/

lemma push_of_lt (hlt : items.length < cap) (value : T) :
    (of items).push cap value = some ⟨.ok (), of (items ++ [value]), []⟩ := by
  have hwrite := @Cells.write_gap _ cap items [] (items.length + 1) value (Nat.lt_succ_self _) hlt
  rw [Cells.gap_front (Nat.le_succ _), Cells.gap_front (by simp)] at hwrite
  unfold push of
  rw [if_pos hlt, hwrite, List.length_append]
  rfl

lemma push_of_full (hfull : ¬items.length < cap) (value : T) :
    (of items).push cap value = some ⟨.error .full, of items, [value]⟩ :=
  if_neg hfull

lemma pop_of_append (value : T) (hcap : items.length < cap) :
    (of (items ++ [value])).pop cap = some (some value, of items) := by
  have hread := @Cells.read_gap_last _ cap [] items 0 value (by omega)
  rw [Nat.zero_add] at hread
  unfold pop of
  rw [List.length_append, List.length_singleton, if_neg (Nat.succ_ne_zero _), Nat.add_sub_cancel]
  change (Cells.read cap (Cells.gap [] 0 (items ++ [value])) items.length).bind _ = _
  rw [hread]
  rfl

/-! ### Inserting and removing -/

lemma insert_of_le {front back : List T} (hlt : front.length + back.length < cap) (value : T) :
    (of (front ++ back)).insert cap front.length value =
      some ⟨.ok (), of (front ++ value :: back), []⟩ := by
  have hmove := @Cells.move_gap _ cap front back front.length (front.length + 1) (Nat.le_refl _)
    (Nat.le_succ _) (by omega) (by omega)
  have hwrite := @Cells.write_gap _ cap front back (front.length + 1) value (Nat.lt_succ_self _)
    (by omega)
  rw [Cells.gap_length] at hmove
  rw [← Cells.gap_cons, Cells.gap_length] at hwrite
  unfold insert of
  rw [List.length_append, if_pos (Nat.le_add_right _ _), if_pos hlt, Nat.add_sub_cancel_left, hmove,
    Option.bind_eq_bind, Option.bind_some, hwrite, List.length_append, List.length_cons]
  rfl

lemma insert_of_full {index : ℕ} (hle : index ≤ items.length) (hfull : ¬items.length < cap)
    (value : T) : (of items).insert cap index value = some ⟨.error .full, of items, [value]⟩ :=
  (if_pos (show index ≤ (of items).len from hle)).trans (if_neg hfull)

lemma insert_of_gt {index : ℕ} (hgt : ¬index ≤ items.length) (value : T) :
    (of items).insert cap index value = some ⟨.error .insertion, of items, [value]⟩ :=
  if_neg hgt

lemma remove_of_ge {index : ℕ} (hge : ¬index < items.length) :
    (of items).remove cap index = some ⟨.error .removal, of items, []⟩ :=
  if_neg hge

lemma remove_of_lt {front back : List T} {value : T} (hcap : front.length + 1 + back.length ≤ cap) :
    (of (front ++ value :: back)).remove cap front.length =
      some ⟨.ok value, of (front ++ back), []⟩ := by
  have hread := @Cells.read_gap _ cap front back front.length value (Nat.le_refl _) (by omega)
  have hmove := @Cells.move_gap _ cap front back (front.length + 1) front.length (Nat.le_succ _)
    (Nat.le_refl _) (by omega) (by omega)
  rw [Cells.gap_length] at hread hmove
  have hlen : (of (front ++ value :: back)).len = front.length + back.length + 1 := by
    rw [of, List.length_append, List.length_cons, Nat.add_assoc]
  have hcount : front.length + back.length + 1 - 1 - front.length = back.length := by omega
  unfold remove
  rw [hlen, if_pos (by omega), hcount]
  change (Cells.read cap (Cells.layout (front ++ value :: back)) front.length).bind _ = _
  rw [hread]
  change (Cells.move cap _ (front.length + 1) front.length back.length).bind _ = _
  rw [hmove, of, List.length_append]
  rfl

/-! ### The loops -/

lemma truncateLoop_of (len rounds : ℕ) (items : List T) (hrounds : items.length ≤ rounds)
    (hcap : items.length ≤ cap) :
    truncateLoop cap len rounds (of items) =
      some (of (items.take len), (items.drop len).reverse) := by
  induction rounds generalizing items with
  | zero =>
    rw [List.length_eq_zero_iff.mp (Nat.le_zero.mp hrounds), List.take_nil, List.drop_nil]
    rfl
  | succ rounds ih =>
    unfold truncateLoop
    by_cases hlong : len < (of items).len
    · rw [if_pos hlong]
      rcases List.eq_nil_or_concat items with rfl | ⟨front, last, rfl⟩
      · cases hlong
      · have hlen : len ≤ front.length := by
          simpa [of, Nat.lt_succ_iff] using hlong
        rw [List.concat_eq_append, List.length_append, List.length_singleton] at hrounds hcap
        rw [List.concat_eq_append, pop_of_append last hcap, List.take_append_of_le_length hlen,
          List.drop_append_of_le_length hlen, List.reverse_append]
        change (truncateLoop cap len rounds (of front)).bind _ = _
        rw [ih front (Nat.le_of_succ_le_succ hrounds) (Nat.le_of_succ_le hcap)]
        rfl
    · rw [if_neg hlong, List.take_of_length_le (Nat.le_of_not_lt hlong),
        List.drop_of_length_le (Nat.le_of_not_lt hlong)]
      rfl

lemma truncate_of (len : ℕ) (hcap : items.length ≤ cap) :
    (of items).truncate cap len = some (of (items.take len), (items.drop len).reverse) :=
  truncateLoop_of len items.length items (Nat.le_refl _) hcap

lemma clear_of (hcap : items.length ≤ cap) :
    (of items).clear cap = some (of [], items.reverse) :=
  truncate_of 0 hcap

/-- What `retain` keeps of a list and drops of it, with what the predicate has captured. -/
def retained (keep : σ → T → Bool × T × σ) : σ → List T → σ × List T × List T
  | state, [] => (state, [], [])
  | state, value :: items =>
    let now := keep state value
    let rest := retained keep now.2.2 items
    (rest.1,
      if now.1 then (now.2.1 :: rest.2.1, rest.2.2) else (rest.2.1, now.2.1 :: rest.2.2))

lemma retainLoop_of (keep : σ → T → Bool × T × σ) (front back : List T) (index : ℕ) (state : σ)
    (hgap : front.length ≤ index) (hcap : index + back.length ≤ cap) :
    retainLoop cap keep back.length index state ⟨front.length, Cells.gap front index back⟩ =
      some ((retained keep state back).1, of (front ++ (retained keep state back).2.1),
        (retained keep state back).2.2) := by
  induction back generalizing front index state with
  | nil =>
    rw [Cells.gap_front hgap]
    unfold retained
    rw [List.append_nil]
    rfl
  | cons value back ih =>
    rw [List.length_cons] at hcap ⊢
    have hread := @Cells.read_gap _ cap front back index value hgap (by omega)
    rcases hkeep : keep state value with ⟨_ | _, changed, state'⟩
    · -- The element is dropped, and the gap grows.
      have hrest := ih front (index + 1) state' (Nat.le_succ_of_le hgap) (by omega)
      simp only [retainLoop, hread, Option.bind_eq_bind, Option.bind_some, hkeep, hrest, retained]
      rfl
    · -- The element moves to the end of those that are kept.
      have hwrite := @Cells.write_gap _ cap front back (index + 1) changed
        (Nat.lt_succ_of_le hgap) (by omega)
      have hrest := ih (front ++ [changed]) (index + 1) state' (by simpa using hgap) (by omega)
      rw [List.length_append, List.length_singleton] at hrest
      simp only [retainLoop, hread, Option.bind_eq_bind, Option.bind_some, hkeep, hwrite, hrest,
        retained, List.append_assoc]
      rfl

lemma retain_of (keep : σ → T → Bool × T × σ) (state : σ) (hcap : items.length ≤ cap) :
    retain cap keep state (of items) = some ((retained keep state items).1,
      of (retained keep state items).2.1, (retained keep state items).2.2) :=
  retainLoop_of keep [] items 0 state (Nat.le_refl 0) (by rwa [Nat.zero_add])

/-! ### Ranges and iterators -/

lemma drain_of {front mid back : List T} {range : RangeBounds}
    (hrange : range.resolve (front ++ (mid ++ back)).length =
      some (front.length, front.length + mid.length))
    (hcap : front.length + mid.length + back.length ≤ cap) :
    (of (front ++ (mid ++ back))).drain cap range =
      some ⟨.ok (IntoIter.of 0 mid), of (front ++ back), []⟩ := by
  have htransfer := @Cells.transfer_gap _ cap front back mid front.length (Nat.le_refl _) (by omega)
  have hmove := @Cells.move_gap _ cap front back (front.length + mid.length) front.length
    (Nat.le_add_right _ _) (Nat.le_refl _) (by omega) (by omega)
  rw [Cells.gap_length] at htransfer hmove
  have hcount : (front ++ (mid ++ back)).length - (front.length + mid.length) = back.length := by
    simp only [List.length_append]
    omega
  have hlen : (front ++ (mid ++ back)).length - mid.length = (front ++ back).length := by
    simp only [List.length_append]
    omega
  unfold drain of
  dsimp only
  rw [hrange]
  dsimp only
  rw [Nat.add_sub_cancel_left, htransfer, Option.bind_eq_bind, Option.bind_some]
  dsimp only
  rw [hcount, hmove, Option.bind_eq_bind, Option.bind_some, hlen]
  rw [← intoIter_of]
  rfl

lemma drain_of_none {range : RangeBounds} (hrange : range.resolve items.length = none) :
    (of items).drain cap range = some ⟨.error .drain, of items, []⟩ := by
  unfold drain of
  dsimp only
  rw [hrange]

lemma drop_of (hcap : items.length ≤ cap) : (of items).drop cap = some items := by
  have hdrain := @Cells.drain_gap _ cap [] items 0 (Nat.le_refl 0) (by rwa [Nat.zero_add])
  unfold drop of
  change (Cells.drain cap (Cells.gap [] 0 items) 0 items.length).map Prod.fst = _
  rw [hdrain]
  rfl

namespace IntoIter

variable {start : ℕ}

lemma next_of_nil : (of start ([] : List T)).next cap = some (none, of start []) :=
  if_pos rfl

lemma next_of_cons (value : T) (hcap : start < cap) :
    (of start (value :: items)).next cap = some (some value, of (start + 1) items) := by
  have hread := @Cells.read_gap _ cap [] items start value (Nat.zero_le _) hcap
  unfold next of
  dsimp only
  rw [List.length_cons, if_neg (by omega), hread, Option.bind_eq_bind, Option.bind_some,
    Nat.add_right_comm, Nat.add_assoc]

lemma nextBack_of_nil : (of start ([] : List T)).nextBack cap = some (none, of start []) :=
  if_pos rfl

lemma nextBack_of_append (value : T) (hcap : start + items.length < cap) :
    (of start (items ++ [value])).nextBack cap = some (some value, of start items) := by
  have hread := @Cells.read_gap_last _ cap [] items start value hcap
  unfold nextBack of
  dsimp only
  rw [List.length_append, List.length_singleton, if_neg (by omega), ← Nat.add_assoc,
    Nat.add_sub_cancel, hread, Option.bind_eq_bind, Option.bind_some]

lemma drop_of (hcap : start + items.length ≤ cap) : (of start items).drop cap = some items := by
  have hdrain := @Cells.drain_gap _ cap [] items start (Nat.zero_le _) hcap
  unfold drop of
  dsimp only
  rw [Nat.add_sub_cancel_left, hdrain]
  rfl

end IntoIter

end DoomFishUtils.ArrayVec
