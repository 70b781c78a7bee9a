import DoomFishUtils.FfiString.Model

/-!
# Owned strings are freed

`ffi_string_owned` frees what the foreign call returns exactly once and reads it before, however it
ends.  The variant without a guard leaks where the copy of the bytes panics.
-/

namespace DoomFishUtils.FfiString

set_option autoImplicit false

open DoomFishUtils.Library

variable {P : Type}

def Event.freedPtr : Event P → Option ℕ
  | .freed ptr _ => some ptr
  | _ => none

/-- The pointers that a run frees, in order. -/
def freed {α : Type} (ran : Ran P Heap (Event P) α) : List ℕ :=
  ran.events.filterMap Event.freedPtr

/-- The text of an owned string; none for an empty one. -/
def textOf (bytes : List UInt8) : Option (List Char) :=
  if bytes.isEmpty then none else some (fromUtf8Lossy bytes)

namespace Bridge

variable (bridge : Bridge P) (ptr : ℕ) (heap : Heap)

/-- How the decoding of an owned string ends. -/
def decoded (bytes : List UInt8) : Ending P (Option (List Char)) :=
  match textOf bytes, bridge.intoOwned bytes with
  | some _, some payload => .unwound payload
  | text, _ => .returned text

/-- The part of `ffi_string_owned` under the guard. -/
lemma guarded_run :
    (do
      let bytes ← toBytes ptr
      if bytes.isEmpty then return none
      else return some (← bridge.decode bytes) : Code P Heap (Event P) (Option (List Char))) heap =
      ⟨bridge.decoded ((heap ptr).getD []), heap, [.read ptr (heap ptr)]⟩ := by
  change Code.bind _ _ heap = _
  unfold Code.bind toBytes decoded textOf
  dsimp only
  cases (heap ptr).getD [] with
  | nil => rfl
  | cons byte bytes =>
    cases hpanic : bridge.intoOwned (byte :: bytes) <;>
      simp [decode, allocate, hpanic, bind, Code.bind, pure]

lemma decoded_ne_aborted (bytes : List UInt8) : bridge.decoded bytes ≠ .aborted := by
  unfold decoded
  split <;> simp

lemma ffiStringOwned_run (ffiCall : Foreign P Heap ℕ) (hptr : ptr ≠ 0)
    (hcall : (ffiCall heap).1 = .ok ptr) :
    bridge.ffiStringOwned ffiCall heap =
      let allocated := (ffiCall heap).2
      let released := bridge.free ptr allocated
      ⟨Code.scopeEnding (bridge.decoded ((allocated ptr).getD [])) released.ending, released.state,
        .called (.ok ptr) :: .read ptr (allocated ptr) :: released.events⟩ := by
  rcases hforeign : ffiCall heap with ⟨ending, allocated⟩
  rw [hforeign] at hcall
  cases hcall
  change Code.bind _ _ heap = _
  unfold Code.bind Code.run
  rw [hforeign]
  dsimp only
  rw [if_neg hptr, Code.owning_run (guarded_run bridge ptr allocated) (bridge.decoded_ne_aborted _)]
  rfl

/-- The variant without a guard frees between the copy and the decoding. -/
lemma takeOwnedCstringC_run (hptr : ptr ≠ 0) :
    bridge.takeOwnedCstringC ptr heap =
      match bridge.toVec ((heap ptr).getD []) with
      | some payload => ⟨.unwound payload, heap, [.read ptr (heap ptr)]⟩
      | none =>
        match bridge.free ptr heap with
        | ⟨.returned (), heap', events⟩ =>
          ⟨bridge.decoded ((heap ptr).getD []), heap', .read ptr (heap ptr) :: events⟩
        | ⟨.unwound payload, heap', events⟩ =>
          ⟨.unwound payload, heap', .read ptr (heap ptr) :: events⟩
        | ⟨.aborted, heap', events⟩ => ⟨.aborted, heap', .read ptr (heap ptr) :: events⟩ := by
  unfold takeOwnedCstringC
  rw [if_neg hptr]
  change Code.bind _ _ heap = _
  unfold Code.bind toBytes
  dsimp only
  generalize (heap ptr).getD [] = bytes
  change Ran.mk (Code.bind _ _ heap).ending (Code.bind _ _ heap).state
    (_ :: (Code.bind _ _ heap).events) = _
  unfold Code.bind allocate
  cases bridge.toVec bytes with
  | some payload => rfl
  | none =>
    dsimp only
    change Ran.mk (Code.bind _ _ heap).ending (Code.bind _ _ heap).state
      (_ :: (Code.bind _ _ heap).events) = _
    unfold Code.bind
    rcases bridge.free ptr heap with ⟨⟨⟩ | payload | _, heap', events⟩
    · dsimp only
      unfold decoded textOf
      cases bytes with
      | nil => exact congrArg (Ran.mk _ _ <| _ :: ·) (List.append_nil events)
      | cons byte bytes =>
        cases hpanic : bridge.intoOwned (byte :: bytes) <;>
          simp [decode, allocate, hpanic, bind, Code.bind, pure]
    · rfl
    · rfl

end Bridge

/-- The pointer that a foreign call hands over. -/
def ownedPtr : Except P ℕ → List ℕ
  | .ok (n + 1) => [n + 1]
  | _ => []

/-- What a run with a pointer from a foreign call does with it. -/
structure FreesOnce (called : Except P ℕ) (allocated : Heap)
    (ran : Ran P Heap (Event P) (Option (List Char))) : Prop where
  freed : freed ran = ownedPtr called
  /-- Nothing is read after the pointer is freed, and what is read before is the string. -/
  last : ∀ before ptr ending after, ran.events = before ++ .freed ptr ending :: after → after = []
  live : ∀ ptr bytes, .read ptr bytes ∈ ran.events → bytes = allocated ptr
  text : ∀ text, ran.ending = .returned (some text) →
    ∃ ptr ∈ ownedPtr called, (allocated ptr).getD [] ≠ [] ∧
      text = fromUtf8Lossy ((allocated ptr).getD [])

section

variable (bridge : Bridge P)

lemma freed_free (ptr : ℕ) (heap : Heap) :
    (bridge.free ptr heap).events = [.freed ptr (bridge.freeFn ptr heap).1] := by
  unfold Bridge.free Code.run
  rcases bridge.freeFn ptr heap with ⟨_ | _, heap'⟩ <;> rfl

lemma textOf_of_decoded {bytes : List UInt8} {answer : Option (List Char)}
    (h : bridge.decoded bytes = .returned answer) : answer = textOf bytes := by
  unfold Bridge.decoded at h
  split at h
  · cases h
  · cases h
    rfl

lemma textOf_eq_some {bytes : List UInt8} {text : List Char} (h : textOf bytes = some text) :
    bytes ≠ [] ∧ text = fromUtf8Lossy bytes := by
  unfold textOf at h
  split_ifs at h with hempty
  exact ⟨fun hnil => hempty (List.isEmpty_iff.mpr hnil), (Option.some.inj h).symm⟩

/-- Without a pointer nothing is read or freed. -/
lemma ffiStringOwned_none {ffiCall : Foreign P Heap ℕ} {heap : Heap}
    (hnone : ∀ ptr, (ffiCall heap).1 = .ok ptr → ptr = 0) :
    (bridge.ffiStringOwned ffiCall heap).events = [.called (ffiCall heap).1] ∧
      ∀ text, (bridge.ffiStringOwned ffiCall heap).ending ≠ .returned (some text) := by
  unfold Bridge.ffiStringOwned
  change (Code.bind _ _ heap).events = _ ∧ ∀ text, (Code.bind _ _ heap).ending ≠ _
  unfold Code.bind Code.run
  generalize ffiCall heap = foreign at hnone ⊢
  rcases foreign with ⟨payload | ptr, allocated⟩
  · exact ⟨rfl, fun _ => by simp⟩
  · obtain rfl : ptr = 0 := hnone ptr rfl
    exact ⟨rfl, fun _ heq => by cases heq⟩

lemma ownedPtr_of_ne {ptr : ℕ} (hptr : ptr ≠ 0) : ownedPtr (.ok ptr : Except P ℕ) = [ptr] := by
  obtain ⟨n, rfl⟩ := Nat.exists_eq_succ_of_ne_zero hptr
  rfl

/-- Whether the decoding or the free function panics, or both: a pointer that is handed over is freed
exactly once, after all reads. -/
theorem ffiStringOwned_frees_once (ffiCall : Foreign P Heap ℕ) (heap : Heap) :
    FreesOnce (ffiCall heap).1 (ffiCall heap).2 (bridge.ffiStringOwned ffiCall heap) := by
  by_cases hnone : ∀ ptr, (ffiCall heap).1 = .ok ptr → ptr = 0
  · rcases ffiStringOwned_none bridge hnone with ⟨hevents, htext⟩
    refine ⟨?_, ?_, ?_, fun text heq => absurd heq (htext text)⟩
    · rw [FfiString.freed, hevents]
      rcases hcall : (ffiCall heap).1 with payload | ptr
      · rfl
      · obtain rfl : ptr = 0 := hnone ptr hcall
        rfl
    · intro before ptr ending after heq
      rw [hevents] at heq
      rcases before with _ | ⟨event, before⟩ <;> simp at heq
    · intro ptr bytes hmem
      rw [hevents] at hmem
      simp at hmem
  · push Not at hnone
    rcases hnone with ⟨ptr, hcall, hptr⟩
    have hrun := bridge.ffiStringOwned_run ptr heap ffiCall hptr hcall
    dsimp only at hrun
    rw [freed_free] at hrun
    refine ⟨?_, ?_, ?_, ?_⟩
    · rw [FfiString.freed, hrun, hcall, ownedPtr_of_ne hptr]
      rfl
    · intro before ptr' ending after heq
      rw [hrun] at heq
      rcases before with _ | ⟨called, _ | ⟨read, _ | ⟨freed, before⟩⟩⟩ <;> simp at heq
      exact heq.2.2.2
    · intro ptr' bytes hmem
      rw [hrun] at hmem
      simp at hmem
      rw [hmem.1]
      exact hmem.2
    · intro text hending
      rw [hrun] at hending
      have htext := textOf_of_decoded bridge (Code.scopeEnding_eq_returned.mp hending).1
      refine ⟨ptr, ?_, textOf_eq_some htext.symm⟩
      rw [hcall, ownedPtr_of_ne hptr]
      exact List.mem_singleton_self ptr

/-- The two variants give the same answers where the copy does not panic; where it does, the one
without a guard leaks the string. -/
theorem takeOwnedCstringC_leaks_iff {ptr : ℕ} {heap : Heap} (hptr : ptr ≠ 0) :
    freed (bridge.takeOwnedCstring ptr heap) = [ptr] ∧
      (freed (bridge.takeOwnedCstringC ptr heap) = [] ↔
        bridge.toVec ((heap ptr).getD []) ≠ none) ∧
      ∀ answer, (bridge.takeOwnedCstringC ptr heap).ending = .returned answer ↔
        (bridge.takeOwnedCstring ptr heap).ending = .returned answer ∧
          bridge.toVec ((heap ptr).getD []) = none := by
  have howned := bridge.ffiStringOwned_run ptr heap (fun heap => (.ok ptr, heap)) hptr rfl
  have hcopied := bridge.takeOwnedCstringC_run ptr heap hptr
  have hevents := freed_free bridge ptr heap
  unfold Bridge.takeOwnedCstring
  rw [if_neg hptr, howned, hcopied]
  dsimp only
  refine ⟨?_, ?_, fun answer => ?_⟩
  · rw [freed, hevents]
    rfl
  · cases bridge.toVec ((heap ptr).getD []) with
    | some payload => simp [freed, Event.freedPtr]
    | none =>
      rcases hfree : bridge.free ptr heap with ⟨⟨⟩ | payload | _, heap', events⟩ <;>
      · rw [hfree] at hevents
        rw [show events = _ from hevents]
        simp [freed, Event.freedPtr]
  · rw [Code.scopeEnding_eq_returned]
    cases bridge.toVec ((heap ptr).getD []) with
    | some payload => simp
    | none =>
      rcases bridge.free ptr heap with ⟨⟨⟩ | payload | _, heap', events⟩ <;> simp

end

/-- The copy of one byte fails. -/
theorem takeOwnedCstringC_leaks_iff_failing :
    freed (Bridge.takeOwnedCstringC
      ⟨fun _ heap => (.ok (), heap), fun _ => some "out of memory", fun _ => none⟩ 1
      fun _ => some [65]) = [] :=
  ((takeOwnedCstringC_leaks_iff (P := String) _ Nat.one_ne_zero).2.1).mpr (by simp)

end DoomFishUtils.FfiString
