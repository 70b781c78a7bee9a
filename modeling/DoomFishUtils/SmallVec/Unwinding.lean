import DoomFishUtils.SmallVec.Refinement

/-!
# Retaining while the predicate may panic

`retain` once more, with a predicate that may unwind out of any call.  The array takes each element
out of its cell and counts from zero again, so an unwinding drops the element in hand and forgets
the elements after it; the standard library's vector keeps them.
-/

namespace DoomFishUtils

set_option autoImplicit false

open Library
open ArrayVec (Element)

variable {ι V T σ : Type}

/-- What a predicate decides about an element, unless it panics. -/
inductive Ruling where
  | keep
  | reject
  | panic
  deriving DecidableEq

/-- A predicate that panics nowhere. -/
def Ruling.quiet (keep : σ → T → Bool × T × σ) (state : σ) (value : T) : Ruling × T × σ :=
  match keep state value with
  | (true, value, state) => (.keep, value, state)
  | (false, value, state) => (.reject, value, state)

/-- How `retain` ends: whether it unwinds, what the predicate has captured by then, the vector, and
the elements that are dropped. -/
structure Retaining (A T σ : Type) where
  unwinds : Bool
  state : σ
  vec : A
  dropped : List T

/-- A predicate on values, as `retain` applies it to elements. -/
def ArrayVec.Element.rule (keep : σ → V → Ruling × V × σ) (state : σ) (element : Element ι V) :
    Ruling × Element ι V × σ :=
  let now := keep state element.value
  (now.1, ⟨element.id, now.2.1⟩, now.2.2)

/-- Whether a predicate that is called on these elements panics at one of them. -/
def panics (keep : σ → T → Ruling × T × σ) : σ → List T → Bool
  | _, [] => false
  | state, value :: items =>
    (keep state value).1 == .panic || panics keep (keep state value).2.2 items

namespace ArrayVec.Panicking

/-- The loop of `retain` over the cells from `index` on. -/
def retainLoop (cap : ℕ) (keep : σ → T → Ruling × T × σ) :
    ℕ → ℕ → σ → ArrayVec T → Option (Retaining (ArrayVec T) T σ)
  | 0, _, state, vec => some ⟨false, state, vec, []⟩
  | rounds + 1, index, state, vec => do
    let (value, items) ← vec.items.read cap index
    match keep state value with
    | (.keep, value, state) =>
      let items ← items.write cap vec.len value
      retainLoop cap keep rounds (index + 1) state ⟨vec.len + 1, items⟩
    | (.reject, value, state) =>
      let rest ← retainLoop cap keep rounds (index + 1) state ⟨vec.len, items⟩
      some { rest with dropped := value :: rest.dropped }
    -- The unwinding drops the local `value`; nothing puts the length back.
    | (.panic, value, state) => some ⟨true, state, ⟨vec.len, items⟩, [value]⟩

def retain (cap : ℕ) (keep : σ → T → Ruling × T × σ) (state : σ) (vec : ArrayVec T) :
    Option (Retaining (ArrayVec T) T σ) :=
  retainLoop cap keep vec.len 0 state { vec with len := 0 }

end ArrayVec.Panicking

namespace SmallVec.Panicking

/-- `Vec::retain_mut`, which keeps the element that the predicate panics at and those after it. -/
def Vec.retainMut (keep : σ → T → Ruling × T × σ) : σ → List T → Retaining (List T) T σ
  | state, [] => ⟨false, state, [], []⟩
  | state, value :: vec =>
    match keep state value with
    | (.keep, value, state) =>
      let rest := Vec.retainMut keep state vec
      { rest with vec := value :: rest.vec }
    | (.reject, value, state) =>
      let rest := Vec.retainMut keep state vec
      { rest with dropped := value :: rest.dropped }
    | (.panic, value, state) => ⟨true, state, value :: vec, []⟩

def retain (N : ℕ) (keep : σ → T → Ruling × T × σ) (state : σ) (vec : SmallVec T) :
    Option (Retaining (SmallVec T) T σ) :=
  match vec.storage with
  | .inline array =>
    (ArrayVec.Panicking.retain N keep state array).map fun result =>
      { result with vec := ⟨.inline result.vec⟩ }
  | .heap vec =>
    let result := Vec.retainMut keep state vec
    some { result with vec := ⟨.heap result.vec⟩ }

end SmallVec.Panicking

/-! ### The array -/

namespace ArrayVec.Panicking

/-- What the array does to a list: on a panic the element in hand is dropped and the elements after
it are in no place that the vector knows of. -/
def listRetain (keep : σ → T → Ruling × T × σ) : σ → List T → Retaining (List T) T σ
  | state, [] => ⟨false, state, [], []⟩
  | state, value :: items =>
    match keep state value with
    | (.keep, value, state) =>
      let rest := listRetain keep state items
      { rest with vec := value :: rest.vec }
    | (.reject, value, state) =>
      let rest := listRetain keep state items
      { rest with dropped := value :: rest.dropped }
    | (.panic, value, state) => ⟨true, state, [], [value]⟩

variable {cap : ℕ} {keep : σ → T → Ruling × T × σ}

/-- The vector's slice is the elements at the front, whatever stands behind them. -/
lemma asSlice_gap {front back : List T} {start : ℕ} (hgap : front.length ≤ start)
    (hcap : front.length ≤ cap) :
    (ArrayVec.mk front.length (Cells.gap front start back)).asSlice cap = some front := by
  have hsame : ∀ index, index < 0 + front.length →
      Cells.gap front start back index = Cells.layout front index := by
    intro index hindex
    rw [Cells.layout_apply, Cells.gap, if_pos (by omega)]
  exact (Cells.contents_congr hsame).trans (Cells.contents_layout hcap)

lemma retainLoop_of (front back : List T) (index : ℕ) (state : σ) (hgap : front.length ≤ index)
    (hcap : index + back.length ≤ cap) :
    ∃ array, retainLoop cap keep back.length index state
        ⟨front.length, Cells.gap front index back⟩ =
          some { listRetain keep state back with vec := array } ∧
      array.asSlice cap = some (front ++ (listRetain keep state back).vec) := by
  induction back generalizing front index state with
  | nil =>
    rw [List.length_nil] at hcap
    refine ⟨_, rfl, ?_⟩
    rw [listRetain, List.append_nil]
    exact asSlice_gap hgap (by omega)
  | cons value back ih =>
    rw [List.length_cons] at hcap ⊢
    have hread := @Cells.read_gap _ cap front back index value hgap (by omega)
    rcases hkeep : keep state value with ⟨_ | _ | _, changed, state'⟩
    case keep =>
      have hwrite := @Cells.write_gap _ cap front back (index + 1) changed
        (Nat.lt_succ_of_le hgap) (by omega)
      rcases ih (front ++ [changed]) (index + 1) state' (by simpa using hgap) (by omega) with
        ⟨array, hrest, hslice⟩
      rw [List.length_append, List.length_singleton] at hrest
      refine ⟨array, ?_, ?_⟩
      · simp only [retainLoop, hread, Option.bind_eq_bind, Option.bind_some, hkeep, hwrite, hrest,
          listRetain]
      · rw [hslice, List.append_assoc]
        simp only [listRetain, hkeep]
        rfl
    case reject =>
      rcases ih front (index + 1) state' (Nat.le_succ_of_le hgap) (by omega) with
        ⟨array, hrest, hslice⟩
      refine ⟨array, ?_, ?_⟩
      · simp only [retainLoop, hread, Option.bind_eq_bind, Option.bind_some, hkeep, hrest,
          listRetain]
      · simp only [hslice, listRetain, hkeep]
    case panic =>
      refine ⟨⟨front.length, Cells.gap front (index + 1) back⟩, ?_, ?_⟩
      · simp only [retainLoop, hread, Option.bind_eq_bind, Option.bind_some, hkeep, listRetain]
      · simp only [listRetain, hkeep, List.append_nil]
        exact asSlice_gap (Nat.le_succ_of_le hgap) (by omega)

/-- Where the predicate panics nowhere this is the loop without panics. -/
lemma retainLoop_quiet (keep : σ → T → Bool × T × σ) (rounds index : ℕ) (state : σ)
    (vec : ArrayVec T) :
    retainLoop cap (Ruling.quiet keep) rounds index state vec =
      (ArrayVec.retainLoop cap keep rounds index state vec).map fun result =>
        ⟨false, result.1, result.2.1, result.2.2⟩ := by
  induction rounds generalizing index state vec with
  | zero => rfl
  | succ rounds ih =>
    unfold retainLoop ArrayVec.retainLoop
    rcases vec.items.read cap index with _ | ⟨value, items⟩
    · rfl
    rcases hkeep : keep state value with ⟨_ | _, changed, state'⟩ <;>
      simp only [Option.bind_eq_bind, Option.bind_some, Ruling.quiet, hkeep]
    · rw [ih]
      rcases ArrayVec.retainLoop cap keep rounds (index + 1) state' ⟨vec.len, items⟩ <;> rfl
    · rcases items.write cap vec.len changed with _ | items
      · rfl
      · exact ih (index + 1) state' ⟨vec.len + 1, items⟩

lemma retain_quiet (keep : σ → T → Bool × T × σ) (state : σ) (vec : ArrayVec T) :
    retain cap (Ruling.quiet keep) state vec =
      (vec.retain cap keep state).map fun result => ⟨false, result.1, result.2.1, result.2.2⟩ :=
  retainLoop_quiet keep vec.len 0 state { vec with len := 0 }

lemma retain_of {items : List T} (keep : σ → T → Ruling × T × σ) (state : σ)
    (hcap : items.length ≤ cap) :
    ∃ array, retain cap keep state (of items) =
        some { listRetain keep state items with vec := array } ∧
      array.asSlice cap = some (listRetain keep state items).vec :=
  retainLoop_of [] items 0 state (Nat.le_refl 0) (by rwa [Nat.zero_add])

end ArrayVec.Panicking

/-! ### The two storages -/

namespace SmallVec.Panicking

open ArrayVec.Panicking (listRetain)

variable {N : ℕ} {vec : SmallVec T} {items : List T}

/-- Where the predicate does not panic the storages do the same. -/
lemma listRetain_eq (keep : σ → T → Ruling × T × σ) {state : σ}
    (h : panics keep state items = false) :
    listRetain keep state items = Vec.retainMut keep state items := by
  induction items generalizing state with
  | nil => rfl
  | cons value items ih =>
    rw [panics, Bool.or_eq_false_iff] at h
    unfold listRetain Vec.retainMut
    rcases hkeep : keep state value with ⟨_ | _ | _, changed, state'⟩ <;>
      rw [hkeep] at h <;> dsimp only at h ⊢
    case keep => rw [ih h.2]
    case reject => rw [ih h.2]
    case panic => exact absurd h.1 (by decide)

/-- Where the predicate panics the array keeps fewer elements. -/
lemma listRetain_length_lt (keep : σ → T → Ruling × T × σ) {state : σ}
    (h : panics keep state items = true) :
    (listRetain keep state items).vec.length < (Vec.retainMut keep state items).vec.length := by
  induction items generalizing state with
  | nil => cases h
  | cons value items ih =>
    rw [panics, Bool.or_eq_true] at h
    unfold listRetain Vec.retainMut
    rcases hkeep : keep state value with ⟨_ | _ | _, changed, state'⟩ <;>
      rw [hkeep] at h <;> dsimp only at h ⊢
    case keep => exact Nat.succ_lt_succ (ih (h.resolve_left (by decide)))
    case reject => exact ih (h.resolve_left (by decide))
    case panic => exact Nat.zero_lt_succ _

/-- The standard library's vector keeps or drops each element once. -/
lemma retainMut_perm (keep : σ → V → Ruling × V × σ) (state : σ) (items : List (Element ι V)) :
    (((Vec.retainMut (Element.rule keep) state items).vec ++
      (Vec.retainMut (Element.rule keep) state items).dropped).map Element.id).Perm
        (items.map Element.id) := by
  induction items generalizing state with
  | nil => exact .refl _
  | cons element items ih =>
    have hid : (Element.rule keep state element).2.1.id = element.id := rfl
    unfold Vec.retainMut
    rcases hkeep : Element.rule keep state element with ⟨_ | _ | _, changed, state'⟩ <;>
      rw [hkeep] at hid <;> dsimp only at hid ⊢
    case keep =>
      rw [List.cons_append, List.map_cons, List.map_cons, hid]
      exact (ih state').cons element.id
    case reject =>
      have hrest := ih state'
      rw [List.map_append] at hrest ⊢
      rw [List.map_cons, List.map_cons, hid]
      exact List.perm_middle.trans (hrest.cons element.id)
    case panic =>
      rw [List.append_nil, List.map_cons, List.map_cons, hid]

/-- What `retain` does to a vector that holds these elements. -/
lemma retain_inline {array : ArrayVec T} (keep : σ → T → Ruling × T × σ) (state : σ)
    (h : array.Represents N items) :
    ∃ after, retain N keep state ⟨.inline array⟩ =
        some { listRetain keep state items with vec := after } ∧
      after.asSlice N = some (listRetain keep state items).vec := by
  rcases ArrayVec.represents_iff.mp h with ⟨rfl, hcap⟩
  rcases ArrayVec.Panicking.retain_of keep state hcap with ⟨after, hretain, hslice⟩
  exact ⟨⟨.inline after⟩, congrArg (Option.map _) hretain, hslice⟩

/-- After `retain` every element is in the vector or has been dropped, once, and the vector holds
what it would hold on the heap. -/
def LosesNothing (N : ℕ) (keep : σ → V → Ruling × V × σ) (state : σ)
    (vec : SmallVec (Element ι V)) (items : List (Element ι V)) : Prop :=
  ∃ result onHeap left, retain N (Element.rule keep) state vec = some result ∧
    retain N (Element.rule keep) state ⟨.heap items⟩ = some onHeap ∧
    result.vec.asSlice N = some left ∧ onHeap.vec.asSlice N = some left ∧
    ((left ++ result.dropped).map Element.id).Perm (items.map Element.id)

lemma losesNothing_heap (keep : σ → V → Ruling × V × σ) (state : σ)
    (items : List (Element ι V)) : LosesNothing N keep state ⟨.heap items⟩ items :=
  ⟨_, _, _, rfl, rfl, rfl, rfl, retainMut_perm keep state items⟩

lemma losesNothing_inline_iff {array : ArrayVec (Element ι V)} {items : List (Element ι V)}
    (keep : σ → V → Ruling × V × σ) (state : σ) (h : array.Represents N items) :
    LosesNothing N keep state ⟨.inline array⟩ items ↔
      panics (Element.rule keep) state items = false := by
  rcases retain_inline (Element.rule keep) state h with ⟨after, hretain, hslice⟩
  constructor
  · rintro ⟨result, onHeap, left, hresult, hheap, hleft, hsame, -⟩
    cases hretain.symm.trans hresult
    cases hslice.symm.trans hleft
    cases hheap
    by_contra hpanics
    have hlt := listRetain_length_lt (Element.rule keep) (Bool.eq_true_of_not_eq_false hpanics)
    exact hlt.ne (congrArg List.length (Option.some.inj hsame)).symm
  · intro hquiet
    rw [listRetain_eq _ hquiet] at hretain hslice
    exact ⟨_, _, _, hretain, rfl, hslice, rfl, retainMut_perm keep state items⟩

/-- `retain` loses nothing on the heap, and in the array unless its predicate panics. -/
theorem retain_loses_nothing_iff {vec : SmallVec (Element ι V)} {items : List (Element ι V)}
    (keep : σ → V → Ruling × V × σ) (state : σ) (h : vec.Represents N items) :
    LosesNothing N keep state vec items ↔
      vec.OnHeap ∨ panics (Element.rule keep) state items = false := by
  cases h with
  | inline h =>
    rw [losesNothing_inline_iff keep state h, or_iff_right]
    rintro ⟨stored, hstored⟩
    cases hstored
  | heap => exact ⟨fun _ => .inl ⟨items, rfl⟩, fun _ => losesNothing_heap keep state items⟩

theorem retain_loses_nothing_iff_two :
    LosesNothing 2 (fun (_ : Unit) value => (.panic, value, ()))
      () ⟨.heap [⟨0, 'a'⟩, ⟨1, 'b'⟩]⟩ [⟨0, 'a'⟩, ⟨1, 'b'⟩] :=
  (retain_loses_nothing_iff _ () (.heap _)).mpr (.inl ⟨_, rfl⟩)

/-- A panic at the first of two elements in the array drops it and leaves the second one nowhere. -/
theorem retain_loses_elements :
    ¬LosesNothing 2 (fun (_ : Unit) value => (.panic, value, ()))
      () ⟨.inline (.of [⟨0, 'a'⟩, ⟨1, 'b'⟩])⟩ [⟨0, 'a'⟩, ⟨1, 'b'⟩] := by
  rintro ⟨result, onHeap, left, hresult, -, hleft, -, hperm⟩
  cases hresult
  cases hleft
  exact absurd hperm.length_eq (by decide)

end SmallVec.Panicking

end DoomFishUtils
