import DoomFishUtils.SmallVec.Runs

/-!
# Removing repeated elements in place

The loop of `dedup` has the elements that it keeps at the front, and swaps the next one that it
keeps to the place behind them.  What it has passed over lies between them and what it has not
seen.
-/

namespace DoomFishUtils.SmallVec

set_option autoImplicit false

variable {T : Type} {differ : T → T → Bool}

/-- The swap that keeps an element; `passed` may be empty. -/
lemma swap_append (front passed rest : List T) (value : T) :
    ∃ passed', passed'.length = passed.length ∧
      swap (front ++ (passed ++ value :: rest)) front.length (front.length + passed.length) =
        some (front ++ [value] ++ (passed' ++ rest)) := by
  unfold swap
  cases passed with
  | nil =>
    refine ⟨[], rfl, ?_⟩
    simp
  | cons first passed =>
    refine ⟨passed ++ [first], by simp, ?_⟩
    have hright : (front ++ (first :: passed ++ value :: rest))[front.length +
        (passed.length + 1)]? = some value := by
      simp
    rw [List.length_cons, hright]
    simp [List.set_append_right]

/-- The loop from any state: what is kept, what is passed over and what is not seen yet. -/
lemma dedupLoop_of (kept passed rest : List T) (last : T) (hlast : kept.getLast? = some last) :
    ∃ count slice, dedupLoop differ rest.length (kept.length + passed.length) kept.length
        (kept ++ (passed ++ rest)) = some (count, slice) ∧
      slice.take count = kept ++ dedupAfter differ last rest ∧
      slice.length = kept.length + passed.length + rest.length := by
  induction rest generalizing kept passed last with
  | nil =>
    refine ⟨kept.length, _, rfl, ?_, ?_⟩
    · rw [List.take_left]
      exact (List.append_nil kept).symm
    · simp only [List.length_append]
      omega
  | cons value rest ih =>
    have hpos : 0 < kept.length := List.length_pos_of_ne_nil fun hnil => by
      rw [hnil] at hlast
      cases hlast
    have hvalue : (kept ++ (passed ++ value :: rest))[kept.length + passed.length]? =
        some value := by
      simp
    have hkept : (kept ++ (passed ++ value :: rest))[kept.length - 1]? = some last := by
      rw [List.getElem?_append_left (by omega), ← List.getLast?_eq_getElem?, hlast]
    rw [List.length_cons]
    unfold dedupLoop dedupAfter
    rw [hvalue, Option.bind_eq_bind, Option.bind_some, hkept, Option.bind_eq_bind,
      Option.bind_some]
    by_cases hdiffer : differ value last = true
    · rw [if_pos hdiffer, if_pos hdiffer]
      rcases swap_append kept passed rest value with ⟨passed', hlength, hswap⟩
      rcases ih (kept ++ [value]) passed' value List.getLast?_concat with
        ⟨count, slice, hloop, htake, hslice⟩
      rw [List.length_append, List.length_singleton, hlength, Nat.add_right_comm] at hloop
      rw [List.length_append, List.length_singleton, hlength] at hslice
      rw [List.append_assoc] at htake
      refine ⟨count, slice, ?_, htake, by omega⟩
      rw [hswap]
      exact hloop
    · rw [if_neg hdiffer, if_neg hdiffer]
      rcases ih kept (passed ++ [value]) last hlast with ⟨count, slice, hloop, htake, hslice⟩
      rw [List.length_append, List.length_singleton, List.append_assoc, List.singleton_append]
        at hloop
      rw [List.length_append, List.length_singleton] at hslice
      exact ⟨count, slice, hloop, htake, by omega⟩

/-- The loop of `dedup` on a whole list, of which `truncate` then takes what is kept. -/
lemma dedupLoop_eq (items : List T) :
    ∃ count slice, dedupLoop differ (items.length - 1) 1 1 items = some (count, slice) ∧
      slice.take count = listDedup differ items ∧ slice.length = items.length := by
  cases items with
  | nil => exact ⟨1, [], rfl, rfl, rfl⟩
  | cons first rest =>
    rcases @dedupLoop_of _ differ [first] [] rest first rfl with
      ⟨count, slice, hloop, htake, hslice⟩
    refine ⟨count, slice, hloop, htake, ?_⟩
    rw [hslice, List.length_cons]
    exact Nat.add_comm 1 rest.length

end DoomFishUtils.SmallVec
