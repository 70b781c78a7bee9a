import Mathlib.Algebra.BigOperators.Group.List.Basic
import Mathlib.Algebra.Order.Ring.Nat
import Mathlib.Data.Nat.Notation

/-!
# Texts addressed by byte position

A text is a list of Unicode scalar values whose positions count the bytes of its UTF-8
form.  A position between two characters is a boundary; a slice is defined only when both
of its ends are boundaries.
-/

namespace DoomFishUtils.Library

set_option autoImplicit false

/-- The UTF-8 form of a text. -/
def utf8 (text : List Char) : List UInt8 :=
  text.flatMap String.utf8EncodeChar

/-- The number of bytes in the UTF-8 form. -/
def byteLength (text : List Char) : ℕ :=
  (text.map Char.utf8Size).sum

/-- The byte of an ASCII character. -/
def asciiByte (c : Char) : UInt8 :=
  UInt8.ofNat c.toNat

/-- The first byte of the UTF-8 form of a character. -/
def leadByte (c : Char) : UInt8 :=
  (String.utf8EncodeChar c).headD 0

/-- The text from byte `n` on, when `n` is a boundary. -/
def dropBytes : List Char → ℕ → Option (List Char)
  | text, 0 => some text
  | [], _ + 1 => none
  | c :: text, n + 1 => if c.utf8Size ≤ n + 1 then dropBytes text (n + 1 - c.utf8Size) else none

/-- The first `n` bytes of the text, when `n` is a boundary. -/
def takeBytes : List Char → ℕ → Option (List Char)
  | _, 0 => some []
  | [], _ + 1 => none
  | c :: text, n + 1 =>
    if c.utf8Size ≤ n + 1 then (takeBytes text (n + 1 - c.utf8Size)).map (c :: ·) else none

/-- The text between two byte positions in order, when both are boundaries. -/
def slice (text : List Char) (start stop : ℕ) : Option (List Char) :=
  if start ≤ stop then (dropBytes text start).bind (takeBytes · (stop - start)) else none

section Lengths

@[simp] lemma byteLength_nil : byteLength [] = 0 :=
  rfl

@[simp] lemma byteLength_cons (c : Char) (text : List Char) :
    byteLength (c :: text) = c.utf8Size + byteLength text := by
  simp [byteLength]

@[simp] lemma byteLength_append (front back : List Char) :
    byteLength (front ++ back) = byteLength front + byteLength back := by
  simp [byteLength]

@[simp] lemma utf8_nil : utf8 [] = [] :=
  rfl

@[simp] lemma utf8_cons (c : Char) (text : List Char) :
    utf8 (c :: text) = String.utf8EncodeChar c ++ utf8 text := by
  simp [utf8]

@[simp] lemma utf8_append (front back : List Char) :
    utf8 (front ++ back) = utf8 front ++ utf8 back := by
  simp [utf8]

lemma length_utf8 (text : List Char) : (utf8 text).length = byteLength text := by
  induction text with
  | nil => rfl
  | cons c text ih => simp [ih]

lemma length_le_byteLength (text : List Char) : text.length ≤ byteLength text := by
  induction text with
  | nil => simp
  | cons c text ih =>
    have := c.utf8Size_pos
    simp only [List.length_cons, byteLength_cons]
    omega

end Lengths

section Slices

lemma exists_byteLength_cons (c : Char) (front : List Char) :
    ∃ n, byteLength (c :: front) = n + 1 ∧ c.utf8Size ≤ n + 1 ∧
      n + 1 - c.utf8Size = byteLength front := by
  have hpos := c.utf8Size_pos
  refine ⟨c.utf8Size + byteLength front - 1, ?_, ?_, ?_⟩
  · rw [byteLength_cons]
    omega
  · omega
  · omega

lemma dropBytes_append (front back : List Char) :
    dropBytes (front ++ back) (byteLength front) = some back := by
  induction front with
  | nil => cases back <;> simp [dropBytes]
  | cons c front ih =>
    obtain ⟨n, hlen, hle, hrest⟩ := exists_byteLength_cons c front
    rw [hlen]
    simp only [List.cons_append, dropBytes, hrest, ih, if_pos hle]

lemma takeBytes_append (front back : List Char) :
    takeBytes (front ++ back) (byteLength front) = some front := by
  induction front with
  | nil => cases back <;> simp [takeBytes]
  | cons c front ih =>
    obtain ⟨n, hlen, hle, hrest⟩ := exists_byteLength_cons c front
    rw [hlen]
    simp only [List.cons_append, takeBytes, hrest, ih, Option.map_some, if_pos hle]

lemma slice_append (front piece back : List Char) :
    slice (front ++ (piece ++ back)) (byteLength front) (byteLength front + byteLength piece) =
      some piece := by
  simp [slice, dropBytes_append, takeBytes_append]

end Slices

section Bytes

lemma utf8EncodeChar_of_ascii {c : Char} (h : c.toNat < 128) :
    String.utf8EncodeChar c = [asciiByte c] := by
  have h' : c.val.toNat ≤ 127 := Nat.lt_succ_iff.mp h
  unfold String.utf8EncodeChar
  exact if_pos h'

lemma utf8Size_of_ascii {c : Char} (h : c.toNat < 128) : c.utf8Size = 1 := by
  rw [← String.length_utf8EncodeChar, utf8EncodeChar_of_ascii h, List.length_singleton]

/-- Every byte of a character beyond ASCII has its top bit set. -/
lemma le_of_mem_utf8EncodeChar {c : Char} (h : 128 ≤ c.toNat) {byte : UInt8}
    (hmem : byte ∈ String.utf8EncodeChar c) : 128 ≤ byte.toNat := by
  have h' : ¬ c.val.toNat ≤ 127 := Nat.not_le.mpr h
  unfold String.utf8EncodeChar at hmem
  simp only [if_neg h'] at hmem
  split_ifs at hmem with htwo hthree <;>
    simp only [List.mem_cons, List.not_mem_nil, or_false] at hmem
  · rcases hmem with rfl | rfl <;> simp only [UInt8.toNat_ofNat'] <;> omega
  · rcases hmem with rfl | rfl | rfl <;> simp only [UInt8.toNat_ofNat'] <;> omega
  · rcases hmem with rfl | rfl | rfl | rfl <;> simp only [UInt8.toNat_ofNat'] <;> omega

lemma leadByte_mem (c : Char) : leadByte c ∈ String.utf8EncodeChar c := by
  have hlen := String.length_utf8EncodeChar c
  have hpos := c.utf8Size_pos
  unfold leadByte
  cases henc : String.utf8EncodeChar c with
  | nil =>
    rw [henc, List.length_nil] at hlen
    omega
  | cons byte bytes => simp

lemma utf8EncodeChar_getElem?_zero (c : Char) :
    (String.utf8EncodeChar c)[0]? = some (leadByte c) := by
  have hmem := leadByte_mem c
  unfold leadByte at hmem ⊢
  cases henc : String.utf8EncodeChar c with
  | nil => simp [henc] at hmem
  | cons byte bytes => rfl

lemma leadByte_of_ascii {c : Char} (h : c.toNat < 128) : leadByte c = asciiByte c := by
  simp [leadByte, utf8EncodeChar_of_ascii h]

lemma toNat_leadByte_of_ascii {c : Char} (h : c.toNat < 128) : (leadByte c).toNat = c.toNat := by
  rw [leadByte_of_ascii h, asciiByte, UInt8.toNat_ofNat']
  omega

lemma le_leadByte {c : Char} (h : 128 ≤ c.toNat) : 128 ≤ (leadByte c).toNat :=
  le_of_mem_utf8EncodeChar h (leadByte_mem c)

/-- A character's first byte tells which ASCII character it is, if any. -/
lemma leadByte_eq_asciiByte {c d : Char} (hd : d.toNat < 128) :
    leadByte c = asciiByte d ↔ c = d := by
  rw [← leadByte_of_ascii hd]
  constructor
  · intro heq
    have hnat := congrArg UInt8.toNat heq
    rw [toNat_leadByte_of_ascii hd] at hnat
    rcases Nat.lt_or_ge c.toNat 128 with hc | hc
    · rw [toNat_leadByte_of_ascii hc] at hnat
      exact Char.toNat_inj.mp hnat
    · have := le_leadByte hc
      omega
  · rintro rfl
    rfl

/-- The byte at a boundary is the first byte of the character behind it. -/
lemma utf8_getElem?_boundary (front back : List Char) :
    (utf8 (front ++ back))[byteLength front]? = back.head?.map leadByte := by
  rw [utf8_append, ← length_utf8, List.getElem?_append_right (Nat.le_refl _), Nat.sub_self]
  cases back with
  | nil => rfl
  | cons c back =>
    have hpos : 0 < (String.utf8EncodeChar c).length := by
      rw [String.length_utf8EncodeChar]
      exact c.utf8Size_pos
    rw [utf8_cons, List.getElem?_append_left hpos, utf8EncodeChar_getElem?_zero]
    rfl

/-- The bytes inside a character. -/
lemma utf8_getElem?_inside (front : List Char) (c : Char) (back : List Char) {i : ℕ}
    (hi : i < c.utf8Size) :
    (utf8 (front ++ c :: back))[byteLength front + i]? = (String.utf8EncodeChar c)[i]? := by
  rw [utf8_append, ← length_utf8, List.getElem?_append_right (Nat.le_add_right _ _),
    Nat.add_sub_cancel_left, utf8_cons, List.getElem?_append_left]
  rwa [String.length_utf8EncodeChar]

/-- A run of ASCII bytes, counted in characters instead. -/
lemma takeWhile_utf8_length {p : UInt8 → Bool} (hp : ∀ byte, p byte = true → byte.toNat < 128)
    (text : List Char) :
    ((utf8 text).takeWhile p).length = byteLength (text.takeWhile (p ∘ leadByte)) := by
  induction text with
  | nil => rfl
  | cons c text ih =>
    rw [utf8_cons]
    rcases Nat.lt_or_ge c.toNat 128 with hc | hc
    · rw [utf8EncodeChar_of_ascii hc, List.singleton_append, ← leadByte_of_ascii hc]
      by_cases hpc : p (leadByte c) = true
      · simp [hpc, ih, utf8Size_of_ascii hc, Nat.add_comm]
      · simp [hpc]
    · have hpc : p (leadByte c) = false := by
        have hlead := le_leadByte hc
        by_contra hne
        have := hp _ (by simpa using hne)
        omega
      cases henc : String.utf8EncodeChar c with
      | nil => simpa [henc] using leadByte_mem c
      | cons byte bytes =>
        have hbyte : byte = leadByte c := by simp [leadByte, henc]
        simp [hbyte, hpc]

end Bytes

end DoomFishUtils.Library
