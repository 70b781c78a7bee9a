import DoomFishUtils.FfiString.Model

/-!
# Strings from buffers

What a foreign call has to leave in its buffer for a string to be read, whether the buffer is on the
stack or on the heap.
-/

namespace DoomFishUtils.FfiString

set_option autoImplicit false

open DoomFishUtils.Library Utf8

variable {buffer : List Int8} {text : List Char}

/-- The buffer holds these bytes up to its first NUL. -/
def HoldsCString (buffer : List Int8) (bytes : List UInt8) : Prop :=
  0 ∉ bytes ∧ ∃ rest, buffer.map Int8.toUInt8 = bytes ++ 0 :: rest

lemma HoldsCString.unique {bytes bytes' : List UInt8} (h : HoldsCString buffer bytes)
    (h' : HoldsCString buffer bytes') : bytes = bytes' := by
  rcases h with ⟨hzero, rest, hbytes⟩
  rcases h' with ⟨hzero', rest', hbytes'⟩
  have hposition := congrArg (List.idxOf 0) (hbytes.symm.trans hbytes')
  rw [List.idxOf_append_of_notMem hzero, List.idxOf_append_of_notMem hzero', List.idxOf_cons_self,
    List.idxOf_cons_self, Nat.add_zero, Nat.add_zero] at hposition
  exact List.append_inj_left (hbytes.symm.trans hbytes') hposition

lemma HoldsCString.length_lt {bytes : List UInt8} (h : HoldsCString buffer bytes) :
    bytes.length < buffer.length := by
  rcases h with ⟨-, rest, hbytes⟩
  have hlength := congrArg List.length hbytes
  simp only [List.length_map, List.length_append, List.length_cons] at hlength
  omega

/-- The scan stops at the first NUL. -/
lemma idxOf?_cstring {bytes rest : List UInt8} (h : 0 ∉ bytes) :
    (bytes ++ 0 :: rest).idxOf? 0 = some bytes.length := by
  induction bytes with
  | nil => rfl
  | cons byte bytes ih =>
    have hbyte : byte ≠ 0 := fun heq => h (heq ▸ List.mem_cons_self)
    rw [List.cons_append, List.idxOf?_cons, if_neg (by simpa using hbyte),
      ih fun hmem => h (List.mem_cons_of_mem _ hmem)]
    rfl

lemma parseBuffer_of_holds {bytes : List UInt8} (h : HoldsCString buffer bytes) :
    parseBuffer buffer = if bytes = [] then none else some (fromUtf8Lossy bytes) := by
  rcases h with ⟨hzero, rest, hbytes⟩
  simp only [parseBuffer, hbytes, idxOf?_cstring hzero, List.take_left, List.isEmpty_iff,
    fromUtf8Lossy_eq_nil]

lemma holds_of_mem (h : 0 ∈ buffer.map Int8.toUInt8) : ∃ bytes, HoldsCString buffer bytes := by
  rcases List.eq_append_cons_of_mem h with ⟨bytes, rest, hbytes, hzero⟩
  exact ⟨bytes, hzero, rest, hbytes⟩

lemma parseBuffer_eq_some_iff :
    parseBuffer buffer = some text ↔
      ∃ bytes, HoldsCString buffer bytes ∧ bytes ≠ [] ∧ text = fromUtf8Lossy bytes := by
  by_cases hmem : 0 ∈ buffer.map Int8.toUInt8
  · rcases holds_of_mem hmem with ⟨bytes, hbytes⟩
    rw [parseBuffer_of_holds hbytes]
    refine ⟨fun h => ?_, ?_⟩
    · split_ifs at h with hempty
      exact ⟨bytes, hbytes, hempty, (Option.some.inj h).symm⟩
    · rintro ⟨bytes', hbytes', hne, rfl⟩
      rw [hbytes.unique hbytes', if_neg hne]
  · refine ⟨fun h => ?_, ?_⟩
    · simp [parseBuffer, List.idxOf?_eq_none_iff.mpr hmem] at h
    · rintro ⟨bytes, ⟨-, rest, hbytes⟩, -⟩
      exact absurd (hbytes ▸ by simp) hmem

section

variable {bufferSize : ℕ} {ffiCall : FfiCall}

/-- The cells that the call leaves in a buffer of zeros. -/
def written (ffiCall : FfiCall) (bufferSize : ℕ) : List Int8 :=
  (ffiCall.write (.replicate bufferSize 0)).2

lemma length_written : (written ffiCall bufferSize).length = bufferSize := by
  rw [written, ffiCall.length_write, List.length_replicate]

/-- A part of the stack buffer serves like a buffer of its own on the heap. -/
lemma ffiStringFromBuffer_eq (hsize : bufferSize ≤ isizeMax) :
    ffiStringFromBuffer bufferSize ffiCall =
      .ok (if (ffiCall.write (.replicate bufferSize 0)).1 then parseBuffer (written ffiCall bufferSize)
        else none) := by
  have hcall : ∀ extra, bufferSize ≤ extra → ffiCall.call (.replicate extra 0) bufferSize =
      ((ffiCall.write (.replicate bufferSize 0)).1,
        written ffiCall bufferSize ++ .replicate (extra - bufferSize) 0) := by
    intro extra hextra
    rw [FfiCall.call, List.take_replicate, List.drop_replicate, Nat.min_eq_left hextra]
    rfl
  unfold ffiStringFromBuffer
  by_cases hstack : bufferSize ≤ stackBufferBytes
  · rw [if_pos hstack, hcall stackBufferBytes hstack]
    dsimp only
    rw [List.take_left' length_written]
    cases (ffiCall.write (.replicate bufferSize 0)).1 <;> rfl
  · rw [if_neg hstack, if_neg (Nat.not_lt.mpr hsize), hcall bufferSize le_rfl]
    dsimp only
    rw [Nat.sub_self, List.replicate_zero, List.append_nil]
    cases (ffiCall.write (.replicate bufferSize 0)).1 <;> rfl

lemma ffiStringFromBuffer_eq_some_iff :
    ffiStringFromBuffer bufferSize ffiCall = .ok (some text) ↔
      bufferSize ≤ isizeMax ∧ (ffiCall.write (.replicate bufferSize 0)).1 = true ∧
        ∃ bytes, HoldsCString (written ffiCall bufferSize) bytes ∧ bytes ≠ [] ∧
          text = fromUtf8Lossy bytes := by
  rcases Nat.lt_or_ge isizeMax bufferSize with hlarge | hsize
  · have hheap : ¬bufferSize ≤ stackBufferBytes :=
      Nat.not_le.mpr (lt_trans (by decide) hlarge)
    unfold ffiStringFromBuffer
    rw [if_neg hheap, if_pos hlarge]
    simp [Nat.not_le.mpr hlarge]
  · rw [ffiStringFromBuffer_eq hsize, ← parseBuffer_eq_some_iff]
    simp [hsize]

end

/-- A text without U+FFFD is read exactly if the call succeeds and leaves its bytes and a NUL; on the
stack and on the heap alike. -/
theorem ffiStringFromBuffer_reads_back {bufferSize : ℕ} {ffiCall : FfiCall} {text : List Char}
    (hnone : replacement ∉ text) :
    ffiStringFromBuffer bufferSize ffiCall = .ok (some text) ↔
      bufferSize ≤ isizeMax ∧ (ffiCall.write (.replicate bufferSize 0)).1 = true ∧
        text ≠ [] ∧ HoldsCString (written ffiCall bufferSize) (utf8 text) := by
  rw [ffiStringFromBuffer_eq_some_iff]
  refine and_congr_right fun _ => and_congr_right fun _ => ⟨?_, ?_⟩
  · rintro ⟨bytes, hbytes, hne, htext⟩
    have hutf8 := (fromUtf8Lossy_eq_iff hnone).mp htext.symm
    refine ⟨?_, hutf8 ▸ hbytes⟩
    rintro rfl
    exact hne hutf8
  · rintro ⟨hne, hbytes⟩
    refine ⟨utf8 text, hbytes, fun hnil => hne ?_, (fromUtf8Lossy_utf8 text).symm⟩
    rw [← fromUtf8Lossy_utf8 text, hnil]
    rfl

/-- A call that copies a string that fits. -/
def copying (bytes : List Int8) : FfiCall where
  write cells :=
    if bytes.length ≤ cells.length then (true, bytes ++ cells.drop bytes.length) else (false, cells)
  length_write cells := by
    split_ifs with h
    · simp [Nat.add_sub_cancel' h]
    · rfl

theorem ffiStringFromBuffer_reads_back_euro :
    ffiStringFromBuffer 16 (copying [-30, -126, -84, 0]) = .ok (some ['€']) :=
  (ffiStringFromBuffer_reads_back (by decide)).mpr
    ⟨by decide, rfl, by decide, by decide, .replicate 12 0, by decide⟩

/-- Damaged bytes inside a text change nothing before and after them, and whatever the call leaves,
what is read has no NUL, is not empty and has fewer characters than the buffer has cells. -/
theorem ffiStringFromBuffer_contains_damage (bufferSize : ℕ) (ffiCall : FfiCall) (text : List Char)
    (h : ffiStringFromBuffer bufferSize ffiCall = .ok (some text)) :
    (text ≠ [] ∧ Char.ofNat 0 ∉ text ∧ text.length < bufferSize) ∧
      ∀ front damaged back, HoldsCString (written ffiCall bufferSize)
          (utf8 front ++ damaged ++ utf8 back) →
        text = front ++ fromUtf8Lossy damaged ++ back := by
  rcases ffiStringFromBuffer_eq_some_iff.mp h with ⟨-, -, bytes, hbytes, hne, rfl⟩
  refine ⟨⟨fromUtf8Lossy_eq_nil.not.mpr hne, zero_mem_fromUtf8Lossy.not.mpr hbytes.1, ?_⟩, ?_⟩
  · have hlength := (decodes_fromUtf8Lossy bytes).length_le
    have hlt := hbytes.length_lt
    rw [length_written] at hlt
    rw [List.length_map] at hlength
    exact lt_of_le_of_lt hlength hlt
  · intro front damaged back hdamaged
    rw [hbytes.unique hdamaged, fromUtf8Lossy_between]

theorem ffiStringFromBuffer_contains_damage_small :
    ∃ text, ffiStringFromBuffer 8 (copying [102, -1, 111, 0]) = .ok (some text) ∧
      text = ['f'] ++ fromUtf8Lossy [0xFF] ++ ['o'] ∧ text.length < 8 := by
  have hread : ffiStringFromBuffer 8 (copying [102, -1, 111, 0]) =
      .ok (some ['f', replacement, 'o']) := by decide +kernel
  rcases ffiStringFromBuffer_contains_damage 8 _ _ hread with ⟨⟨-, -, hlength⟩, hdamage⟩
  exact ⟨_, hread, hdamage ['f'] [0xFF] ['o'] ⟨by decide, .replicate 4 0, by decide⟩, hlength⟩

end DoomFishUtils.FfiString
