import Mathlib.Data.List.Induction
import Mathlib.Data.List.Nodup
import Mathlib.Data.List.Perm.Basic

/-!
# Registries

A registry is a list of entries in no particular order, found by their keys.  Entries are set
in place and removed by moving the last one into the gap.  Where the keys are unique, each
operation touches the entry of its own key only.
-/

namespace DoomFishUtils.Library

set_option autoImplicit false

section SwapRemove

variable {α : Type*}

/-- Removes the element at an index and moves the last one there. -/
def swapRemove (index : ℕ) (list : List α) : List α :=
  match list.getLast? with
  | none => []
  | some last => (list.set index last).dropLast

lemma swapRemove_perm {index : ℕ} {list : List α} (h : index < list.length) :
    (swapRemove index list).Perm (list.eraseIdx index) := by
  induction list using List.reverseRecOn with
  | nil => exact absurd h (Nat.not_lt_zero _)
  | append_singleton front last _ =>
    unfold swapRemove
    rw [List.getLast?_concat]
    rw [List.length_append, List.length_singleton] at h
    rcases Nat.lt_succ_iff_lt_or_eq.mp h with hlt | rfl
    · dsimp only
      rw [List.set_append_left _ _ hlt, List.dropLast_concat, List.eraseIdx_append_of_lt_length hlt,
        List.set_eq_take_append_cons_drop, if_pos hlt, List.eraseIdx_eq_take_drop_succ]
      exact List.perm_middle.trans (List.perm_append_singleton last _).symm
    · dsimp only
      rw [List.set_append_right _ _ (Nat.le_refl _), List.eraseIdx_append_of_length_le (Nat.le_refl _)]
      simp

end SwapRemove

section Entries

variable {K V : Type*}

def UniqueKeys (entries : List (K × V)) : Prop :=
  (entries.map Prod.fst).Nodup

section Operations

variable [DecidableEq K]

/-- Sets the value of the first entry with this key. -/
def setEntry (key : K) (value : V) : List (K × V) → List (K × V)
  | [] => []
  | (k, v) :: rest => if k = key then (k, value) :: rest else (k, v) :: setEntry key value rest

/-- Removes the first entry with this key, if there is one. -/
def swapRemoveEntry (key : K) (entries : List (K × V)) : List (K × V) :=
  match entries.findIdx? fun entry => entry.1 = key with
  | some index => swapRemove index entries
  | none => entries

end Operations

variable {entries : List (K × V)} {key k : K} {value v : V}

lemma UniqueKeys.cons_iff {head : K × V} {rest : List (K × V)} :
    UniqueKeys (head :: rest) ↔ (∀ v, (head.1, v) ∉ rest) ∧ UniqueKeys rest := by
  unfold UniqueKeys
  rw [List.map_cons, List.nodup_cons, List.mem_map]
  simp

lemma UniqueKeys.eq (h : UniqueKeys entries) (hvalue : (key, value) ∈ entries)
    (hv : (key, v) ∈ entries) : value = v := by
  induction entries with
  | nil => cases hvalue
  | cons head rest ih =>
    rcases UniqueKeys.cons_iff.mp h with ⟨hhead, hrest⟩
    rcases List.mem_cons.mp hvalue with rfl | hvalue <;> rcases List.mem_cons.mp hv with heq | hv
    · exact (congrArg Prod.snd heq).symm
    · exact absurd hv (hhead v)
    · rw [← heq] at hhead
      exact absurd hvalue (hhead value)
    · exact ih hrest hvalue hv

lemma UniqueKeys.append (h : UniqueKeys entries) (hfresh : ∀ v, (key, v) ∉ entries) :
    UniqueKeys (entries ++ [(key, value)]) := by
  unfold UniqueKeys at *
  rw [List.map_append, List.nodup_append]
  refine ⟨h, List.nodup_singleton key, ?_⟩
  rintro a ha b hb rfl
  rcases List.mem_map.mp ha with ⟨⟨k, v⟩, hmem, rfl⟩
  rw [List.map_singleton, List.mem_singleton] at hb
  dsimp only at hb
  exact hfresh v (hb ▸ hmem)

variable [DecidableEq K]

lemma UniqueKeys.lookup_eq_some (h : UniqueKeys entries) :
    entries.lookup key = some value ↔ (key, value) ∈ entries := by
  constructor
  · intro hlookup
    rcases List.lookup_eq_some_iff.mp hlookup with ⟨front, back, rfl, -⟩
    simp
  · intro hmem
    rcases hlookup : entries.lookup key with _ | other
    · have hnone := List.lookup_eq_none_iff.mp hlookup (key, value) hmem
      simp at hnone
    · rcases List.lookup_eq_some_iff.mp hlookup with ⟨front, back, hsplit, -⟩
      have hother : (key, other) ∈ entries := by simp [hsplit]
      rw [h.eq hmem hother]

lemma lookup_eq_none : entries.lookup key = none ↔ ∀ value, (key, value) ∉ entries := by
  rw [List.lookup_eq_none_iff]
  constructor
  · intro h value hmem
    simpa using h (key, value) hmem
  · rintro h ⟨k, v⟩ hmem
    simp only [bne_iff_ne, ne_eq]
    rintro rfl
    exact h v hmem

/-- A key that is present has one entry. -/
lemma UniqueKeys.filter_eq_singleton (h : UniqueKeys entries) (hmem : (key, value) ∈ entries) :
    (entries.filter fun entry => entry.1 = key) = [(key, value)] := by
  induction entries with
  | nil => cases hmem
  | cons head rest ih =>
    rcases UniqueKeys.cons_iff.mp h with ⟨hhead, hrest⟩
    by_cases heq : head.1 = key
    · have hnone : (rest.filter fun entry => entry.1 = key) = [] := by
        refine List.filter_eq_nil_iff.mpr fun entry hentry hkey => ?_
        rw [decide_eq_true_eq, ← heq] at hkey
        exact hhead entry.2 (hkey ▸ hentry)
      rw [List.filter_cons_of_pos (by simpa using heq), hnone]
      rcases List.mem_cons.mp hmem with rfl | hmem
      · rfl
      · exact absurd hmem (heq ▸ hhead value)
    · rw [List.filter_cons_of_neg (by simpa using heq)]
      rcases List.mem_cons.mp hmem with rfl | hmem
      · exact absurd rfl heq
      · exact ih hrest hmem

/-! ### Setting an entry -/

lemma map_fst_setEntry : (setEntry key value entries).map Prod.fst = entries.map Prod.fst := by
  induction entries with
  | nil => rfl
  | cons head rest ih =>
    unfold setEntry
    split_ifs
    · rfl
    · rw [List.map_cons, ih, List.map_cons]

lemma UniqueKeys.setEntry (h : UniqueKeys entries) : UniqueKeys (setEntry key value entries) := by
  unfold UniqueKeys
  rw [map_fst_setEntry]
  exact h

/-- Setting the value of a key that is present leaves the other entries. -/
lemma mem_setEntry (h : UniqueKeys entries) (hkey : (key, value) ∈ entries) {new : V} :
    (k, v) ∈ setEntry key new entries ↔ (k = key ∧ v = new) ∨ (k ≠ key ∧ (k, v) ∈ entries) := by
  induction entries with
  | nil => cases hkey
  | cons head rest ih =>
    rcases head with ⟨k', v'⟩
    rcases UniqueKeys.cons_iff.mp h with ⟨hhead, hrest⟩
    unfold Library.setEntry
    split_ifs with heq
    · subst heq
      have hne : (k, v) ∈ rest → k ≠ k' := by
        rintro hmem rfl
        exact hhead v hmem
      simp only [List.mem_cons, Prod.mk.injEq]
      constructor
      · rintro (hnew | hmem)
        · exact .inl hnew
        · exact .inr ⟨hne hmem, .inr hmem⟩
      · rintro (hnew | ⟨hk, ⟨rfl, -⟩ | hmem⟩)
        · exact .inl hnew
        · exact absurd rfl hk
        · exact .inr hmem
    · have hmem : (key, value) ∈ rest := by
        rcases List.mem_cons.mp hkey with hhead | hmem
        · exact absurd (congrArg Prod.fst hhead).symm heq
        · exact hmem
      simp only [List.mem_cons, ih hrest hmem, Prod.mk.injEq]
      constructor
      · rintro (⟨rfl, rfl⟩ | hnew | ⟨hk, hold⟩)
        · exact .inr ⟨heq, .inl ⟨rfl, rfl⟩⟩
        · exact .inl hnew
        · exact .inr ⟨hk, .inr hold⟩
      · rintro (hnew | ⟨hk, hold | hold⟩)
        · exact .inr (.inl hnew)
        · exact .inl hold
        · exact .inr (.inr ⟨hk, hold⟩)

/-! ### Removing an entry -/

lemma eraseP_eq_filter (h : UniqueKeys entries) :
    entries.eraseP (fun entry => entry.1 = key) = entries.filter fun entry => entry.1 ≠ key := by
  induction entries with
  | nil => rfl
  | cons head rest ih =>
    rcases UniqueKeys.cons_iff.mp h with ⟨hhead, hrest⟩
    by_cases heq : head.1 = key
    · rw [List.eraseP_cons_of_pos (by simpa using heq), List.filter_cons_of_neg (by simpa using heq)]
      refine (List.filter_eq_self.mpr fun entry hmem => ?_).symm
      rw [decide_eq_true_eq]
      intro hkey
      exact hhead entry.2 (by rw [heq, ← hkey]; exact hmem)
    · rw [List.eraseP_cons_of_neg (by simpa using heq), List.filter_cons_of_pos (by simpa using heq),
        ih hrest]

/-- The removal takes the first entry with the key out and reorders the rest. -/
lemma swapRemoveEntry_perm_eraseP (key : K) (entries : List (K × V)) :
    (swapRemoveEntry key entries).Perm (entries.eraseP fun entry => entry.1 = key) := by
  rw [List.eraseP_eq_eraseIdx]
  unfold swapRemoveEntry
  cases hindex : entries.findIdx? fun entry => decide (entry.1 = key)
  · exact .refl _
  · exact swapRemove_perm (List.findIdx?_eq_some_iff_getElem.mp hindex).1

/-- The removal keeps the entries of the other keys, in some order. -/
lemma swapRemoveEntry_perm (key : K) (h : UniqueKeys entries) :
    (swapRemoveEntry key entries).Perm (entries.filter fun entry => entry.1 ≠ key) := by
  rw [← eraseP_eq_filter h]
  exact swapRemoveEntry_perm_eraseP key entries

lemma UniqueKeys.swapRemoveEntry (h : UniqueKeys entries) :
    UniqueKeys (swapRemoveEntry key entries) := by
  have hperm := (swapRemoveEntry_perm key h).map Prod.fst
  exact hperm.nodup_iff.mpr (h.sublist (List.filter_sublist.map _))

lemma mem_swapRemoveEntry (h : UniqueKeys entries) :
    (k, v) ∈ swapRemoveEntry key entries ↔ k ≠ key ∧ (k, v) ∈ entries := by
  rw [(swapRemoveEntry_perm key h).mem_iff, List.mem_filter]
  simp [and_comm]

/-! ### What becomes of the values -/

/-- The value that a setting replaces is the only one that leaves. -/
lemma values_setEntry {old : V} (h : entries.lookup key = some old) :
    (entries.map Prod.snd ++ [value]).Perm
      ((setEntry key value entries).map Prod.snd ++ [old]) := by
  induction entries with
  | nil => cases h
  | cons head rest ih =>
    rcases head with ⟨k, v⟩
    rw [List.lookup_cons] at h
    unfold setEntry
    by_cases heq : k = key
    · rw [beq_iff_eq.mpr heq.symm, Option.some.injEq] at h
      rw [if_pos heq, ← h]
      exact (List.perm_append_singleton value _).trans
        ((List.Perm.swap v value _).trans (List.perm_append_singleton v _).symm)
    · rw [beq_eq_false_iff_ne.mpr (Ne.symm heq)] at h
      rw [if_neg heq]
      exact (ih h).cons v

/-- The value that a removal finds is the only one that leaves. -/
lemma values_swapRemoveEntry (key : K) (entries : List (K × V)) :
    (entries.map Prod.snd).Perm
      ((swapRemoveEntry key entries).map Prod.snd ++ (entries.lookup key).toList) := by
  refine .trans ?_ (((swapRemoveEntry_perm_eraseP key entries).map Prod.snd).symm.append_right _)
  induction entries with
  | nil => exact .refl _
  | cons head rest ih =>
    rcases head with ⟨k, v⟩
    rw [List.lookup_cons]
    by_cases heq : k = key
    · rw [beq_iff_eq.mpr heq.symm, List.eraseP_cons_of_pos (by simpa using heq)]
      exact (List.perm_append_singleton v _).symm
    · rw [beq_eq_false_iff_ne.mpr (Ne.symm heq), List.eraseP_cons_of_neg (by simpa using heq)]
      exact ih.cons v

end Entries

end DoomFishUtils.Library
