import DoomFishUtils.Library.Text

/-!
# Lossy decoding of UTF-8

The decoder that replaces every ill-formed sequence by U+FFFD, as a machine that reads byte after
byte.  A sequence ends at the first byte that cannot continue it, and that byte is read anew.
-/

namespace DoomFishUtils.Library

set_option autoImplicit false

/-- The bytes of the UTF-8 form of a scalar value. -/
def scalarBytes (n : ℕ) : List ℕ :=
  if n < 0x80 then [n]
  else if n < 0x800 then [0xC0 + n / 64, 0x80 + n % 64]
  else if n < 0x10000 then [0xE0 + n / 4096, 0x80 + n / 64 % 64, 0x80 + n % 64]
  else [0xF0 + n / 262144, 0x80 + n / 4096 % 64, 0x80 + n / 64 % 64, 0x80 + n % 64]

namespace Utf8

def replacement : Char :=
  '\uFFFD'

/-- A sequence that needs another byte: the range of that byte, the number of bytes after it and the
bits so far. -/
structure Unfinished where
  lower : ℕ
  upper : ℕ
  more : ℕ
  scalar : ℕ
  le_lower : 0x80 ≤ lower
  upper_le : upper ≤ 0xBF

/-- The sequences of several bytes, by their first; no overlong forms, no surrogates, nothing beyond
U+10FFFF. -/
def opening (byte : ℕ) : Option Unfinished :=
  if byte < 0xC2 then none
  else if byte < 0xE0 then some ⟨0x80, 0xBF, 0, byte % 32, by decide, by decide⟩
  else if byte < 0xF0 then
    some ⟨if byte = 0xE0 then 0xA0 else 0x80, if byte = 0xED then 0x9F else 0xBF, 1, byte % 16,
      by split <;> decide, by split <;> decide⟩
  else if byte < 0xF5 then
    some ⟨if byte = 0xF0 then 0x90 else 0x80, if byte = 0xF4 then 0x8F else 0xBF, 2, byte % 8,
      by split <;> decide, by split <;> decide⟩
  else none

/-- Reads a byte between sequences. -/
def first (byte : ℕ) : List Char × Option Unfinished :=
  if byte < 0x80 then ([Char.ofNat byte], none)
  else match opening byte with
    | some sequence => ([], some sequence)
    | none => ([replacement], none)

/-- Reads a byte in the range of a sequence. -/
def Unfinished.read (sequence : Unfinished) (byte : ℕ) : List Char × Option Unfinished :=
  match sequence.more with
  | 0 => ([Char.ofNat (sequence.scalar * 64 + byte % 64)], none)
  | more + 1 =>
    ([], some ⟨0x80, 0xBF, more, sequence.scalar * 64 + byte % 64, by decide, by decide⟩)

def step (state : Option Unfinished) (byte : ℕ) : List Char × Option Unfinished :=
  match state with
  | none => first byte
  | some sequence =>
    if sequence.lower ≤ byte ∧ byte ≤ sequence.upper then sequence.read byte
    else (replacement :: (first byte).1, (first byte).2)

/-- The characters that the bytes complete, and the sequence that they leave open. -/
def run : Option Unfinished → List ℕ → List Char × Option Unfinished
  | state, [] => ([], state)
  | state, byte :: bytes =>
    let (chars, state) := step state byte
    let (rest, state) := run state bytes
    (chars ++ rest, state)

/-- The end of the bytes cuts an open sequence off. -/
def cut : Option Unfinished → List Char
  | none => []
  | some _ => [replacement]

def decode (state : Option Unfinished) (bytes : List ℕ) : List Char :=
  (run state bytes).1 ++ cut (run state bytes).2

end Utf8

/-- `String::from_utf8_lossy`. -/
def fromUtf8Lossy (bytes : List UInt8) : List Char :=
  Utf8.decode none (bytes.map UInt8.toNat)

namespace Utf8

section Encoding

lemma toNat_lt (c : Char) : c.toNat < 0x110000 := by
  rcases c.valid with h | ⟨-, h⟩
  · exact lt_trans h (by decide)
  · exact h

lemma map_toNat_utf8EncodeChar (c : Char) :
    (String.utf8EncodeChar c).map UInt8.toNat = scalarBytes c.toNat := by
  have hlt := toNat_lt c
  have hval : c.val.toNat = c.toNat := rfl
  unfold String.utf8EncodeChar scalarBytes
  rw [hval]
  generalize c.toNat = n at hlt
  dsimp only
  split_ifs <;> simp only [List.map_cons, List.map_nil, UInt8.toNat_ofNat', List.cons.injEq,
    and_true] <;> omega

lemma map_toNat_utf8_cons (c : Char) (text : List Char) :
    (utf8 (c :: text)).map UInt8.toNat = scalarBytes c.toNat ++ (utf8 text).map UInt8.toNat := by
  rw [utf8_cons, List.map_append, map_toNat_utf8EncodeChar]

lemma map_toNat_injective {bytes bytes' : List UInt8}
    (h : bytes.map UInt8.toNat = bytes'.map UInt8.toNat) : bytes = bytes' :=
  List.map_injective_iff.mpr (fun _ _ => UInt8.toNat_inj.mp) h

end Encoding

/-! ### Runs -/

section Runs

variable {state : Option Unfinished} {bytes bytes' : List ℕ}

@[simp] lemma run_nil (state : Option Unfinished) : run state [] = ([], state) :=
  rfl

@[simp] lemma run_cons (state : Option Unfinished) (byte : ℕ) (bytes : List ℕ) :
    run state (byte :: bytes) =
      ((step state byte).1 ++ (run (step state byte).2 bytes).1,
        (run (step state byte).2 bytes).2) :=
  rfl

lemma run_append (state : Option Unfinished) (bytes bytes' : List ℕ) :
    run state (bytes ++ bytes') =
      ((run state bytes).1 ++ (run (run state bytes).2 bytes').1,
        (run (run state bytes).2 bytes').2) := by
  induction bytes generalizing state with
  | nil => rfl
  | cons byte bytes ih =>
    rw [List.cons_append, run_cons, run_cons, ih]
    simp only [List.append_assoc]

lemma decode_append (state : Option Unfinished) (bytes bytes' : List ℕ) :
    decode state (bytes ++ bytes') =
      (run state bytes).1 ++ decode (run state bytes).2 bytes' := by
  unfold decode
  rw [run_append, List.append_assoc]

lemma decode_cons (state : Option Unfinished) (byte : ℕ) (bytes : List ℕ) :
    decode state (byte :: bytes) = (step state byte).1 ++ decode (step state byte).2 bytes := by
  unfold decode
  rw [run_cons, List.append_assoc]

end Runs

/-! ### Well-formed text -/

section WellFormed

/-! The first bytes of sequences of two, three and four bytes. -/

lemma step_two {n : ℕ} (hle : 2 ≤ n) (hlt : n < 32) :
    step none (0xC0 + n) = ([], some ⟨0x80, 0xBF, 0, n, by decide, by decide⟩) := by
  have hopening : opening (0xC0 + n) = some ⟨0x80, 0xBF, 0, n, by decide, by decide⟩ := by
    unfold opening
    rw [if_neg (by omega), if_pos (by omega)]
    simp only [Option.some.injEq, Unfinished.mk.injEq, true_and]
    omega
  simp only [step, first, hopening]
  rw [if_neg (by omega)]

lemma step_three {n : ℕ} (hlt : n < 16) :
    step none (0xE0 + n) = ([], some ⟨if n = 0 then 0xA0 else 0x80, if n = 0xD then 0x9F else 0xBF, 1,
      n, by split <;> decide, by split <;> decide⟩) := by
  have hopening : opening (0xE0 + n) = some ⟨if n = 0 then 0xA0 else 0x80,
      if n = 0xD then 0x9F else 0xBF, 1, n, by split <;> decide, by split <;> decide⟩ := by
    unfold opening
    rw [if_neg (by omega), if_neg (by omega), if_pos (by omega)]
    simp only [Option.some.injEq, Unfinished.mk.injEq, true_and]
    refine ⟨?_, ?_, ?_⟩
    · split_ifs <;> omega
    · split_ifs <;> omega
    · omega
  simp only [step, first, hopening]
  rw [if_neg (by omega)]

lemma step_four {n : ℕ} (hlt : n < 5) :
    step none (0xF0 + n) = ([], some ⟨if n = 0 then 0x90 else 0x80, if n = 4 then 0x8F else 0xBF, 2,
      n, by split <;> decide, by split <;> decide⟩) := by
  have hopening : opening (0xF0 + n) = some ⟨if n = 0 then 0x90 else 0x80,
      if n = 4 then 0x8F else 0xBF, 2, n, by split <;> decide, by split <;> decide⟩ := by
    unfold opening
    rw [if_neg (by omega), if_neg (by omega), if_neg (by omega), if_pos (by omega)]
    simp only [Option.some.injEq, Unfinished.mk.injEq, true_and]
    refine ⟨?_, ?_, ?_⟩
    · split_ifs <;> omega
    · split_ifs <;> omega
    · omega
  simp only [step, first, hopening]
  rw [if_neg (by omega)]

/-- A byte in the range of a sequence. -/
lemma step_some {sequence : Unfinished} {byte : ℕ}
    (h : sequence.lower ≤ byte ∧ byte ≤ sequence.upper) :
    step (some sequence) byte = sequence.read byte := by
  simp only [step, if_pos h]

/-- The UTF-8 form of a character is one sequence. -/
lemma run_scalarBytes (c : Char) : run none (scalarBytes c.toNat) = ([c], none) := by
  have hlt := toNat_lt c
  have hsurrogate : ¬(0xD800 ≤ c.toNat ∧ c.toNat < 0xE000) := by
    rcases c.valid with h | ⟨h, -⟩
    · exact fun hn => absurd (lt_of_le_of_lt hn.1 h) (by decide)
    · exact fun hn => absurd h (Nat.not_lt.mpr (Nat.lt_succ_iff.mp hn.2))
  have hofNat : ∀ n, n = c.toNat → Char.ofNat n = c := by
    rintro n rfl
    exact Char.ofNat_toNat c
  unfold scalarBytes
  generalize c.toNat = n at *
  split_ifs with hone htwo hthree
  · simp [step, first, hone, hofNat n rfl]
  · rw [run_cons, step_two (by omega) (by omega), run_cons, step_some (by dsimp only; omega)]
    simp only [Unfinished.read, run_nil, List.nil_append, List.append_nil]
    rw [hofNat _ (by omega)]
  · rw [run_cons, step_three (by omega), run_cons, step_some (by dsimp only; split_ifs <;> omega)]
    simp only [Unfinished.read]
    rw [run_cons, step_some (by dsimp only; omega)]
    simp only [Unfinished.read, run_nil, List.nil_append, List.append_nil]
    rw [hofNat _ (by omega)]
  · rw [run_cons, step_four (by omega), run_cons, step_some (by dsimp only; split_ifs <;> omega)]
    simp only [Unfinished.read]
    rw [run_cons, step_some (by dsimp only; omega)]
    simp only [Unfinished.read]
    rw [run_cons, step_some (by dsimp only; omega)]
    simp only [Unfinished.read, run_nil, List.nil_append, List.append_nil]
    rw [hofNat _ (by omega)]

lemma run_utf8 (text : List Char) : run none ((utf8 text).map UInt8.toNat) = (text, none) := by
  induction text with
  | nil => rfl
  | cons c text ih =>
    rw [map_toNat_utf8_cons, run_append, run_scalarBytes, ih]
    rfl

/-- The first byte of a character continues no sequence. -/
lemma decode_utf8 (state : Option Unfinished) (text : List Char) :
    decode state ((utf8 text).map UInt8.toNat) = cut state ++ text := by
  have hnone : decode none ((utf8 text).map UInt8.toNat) = text := by
    unfold decode
    rw [run_utf8]
    exact List.append_nil text
  rcases state with _ | sequence
  · exact hnone
  rcases text with _ | ⟨c, text⟩
  · rfl
  rw [map_toNat_utf8_cons] at hnone ⊢
  have hfirst : ∃ byte bytes, scalarBytes c.toNat = byte :: bytes ∧ (byte < 0x80 ∨ 0xC0 ≤ byte) := by
    have hlt := toNat_lt c
    unfold scalarBytes
    split_ifs with hone
    · exact ⟨_, _, rfl, .inl hone⟩
    · exact ⟨_, _, rfl, .inr (by omega)⟩
    · exact ⟨_, _, rfl, .inr (by omega)⟩
    · exact ⟨_, _, rfl, .inr (by omega)⟩
  rcases hfirst with ⟨byte, bytes, hbytes, hrange⟩
  rw [hbytes, List.cons_append, decode_cons] at hnone ⊢
  have hout : ¬(sequence.lower ≤ byte ∧ byte ≤ sequence.upper) := by
    have := sequence.le_lower
    have := sequence.upper_le
    omega
  simp only [step, if_neg hout] at hnone ⊢
  rw [List.cons_append, hnone]
  rfl

end WellFormed

/-! ### Arbitrary bytes -/

/-- The bytes are cut into characters and ill-formed sequences, each read as one U+FFFD. -/
inductive Decodes : List ℕ → List Char → Prop
  | nil : Decodes [] []
  | char (c : Char) {bytes : List ℕ} {text : List Char} (h : Decodes bytes text) :
    Decodes (scalarBytes c.toNat ++ bytes) (c :: text)
  | replaced {sequence bytes : List ℕ} {text : List Char} (hne : sequence ≠ [])
    (hlength : sequence.length ≤ 3) (hhigh : ∀ byte ∈ sequence, 0x80 ≤ byte)
    (h : Decodes bytes text) : Decodes (sequence ++ bytes) (replacement :: text)

/-- Any bytes in the ranges that follow complete a character of these bytes. -/
def Extends : ℕ → ℕ → ℕ → ℕ → List ℕ → Prop
  | 0, lower, upper, scalar, bytes => ∀ byte, lower ≤ byte → byte ≤ upper →
    (scalar * 64 + byte % 64).isValidChar ∧
      scalarBytes (scalar * 64 + byte % 64) = bytes ++ [byte]
  | more + 1, lower, upper, scalar, bytes => ∀ byte, lower ≤ byte → byte ≤ upper →
    Extends more 0x80 0xBF (scalar * 64 + byte % 64) (bytes ++ [byte])

/-- The bytes that a state has read since the last character. -/
structure Tracks (sequence : Unfinished) (bytes : List ℕ) : Prop where
  ne_nil : bytes ≠ []
  length : bytes.length + sequence.more ≤ 3
  high : ∀ byte ∈ bytes, 0x80 ≤ byte
  completes : Extends sequence.more sequence.lower sequence.upper sequence.scalar bytes

section Arbitrary

/-- A scalar value that is no surrogate is the code of a character with these bytes. -/
lemma extends_of_opening {byte : ℕ} {sequence : Unfinished} (h : opening byte = some sequence) :
    Extends sequence.more sequence.lower sequence.upper sequence.scalar [byte] := by
  unfold opening at h
  by_cases hlow : byte < 0xC2
  · rw [if_pos hlow] at h
    cases h
  rw [if_neg hlow] at h
  by_cases htwo : byte < 0xE0
  · rw [if_pos htwo] at h
    cases h
    change Extends 0 0x80 0xBF (byte % 32) [byte]
    intro second hsecond hsecond'
    refine ⟨.inl (by omega), ?_⟩
    unfold scalarBytes
    rw [if_neg (by omega), if_pos (by omega)]
    simp only [List.cons_append, List.nil_append, List.cons.injEq, and_true]
    omega
  rw [if_neg htwo] at h
  by_cases hthree : byte < 0xF0
  · rw [if_pos hthree] at h
    cases h
    change Extends 1 (if byte = 0xE0 then 0xA0 else 0x80) (if byte = 0xED then 0x9F else 0xBF)
      (byte % 16) [byte]
    intro second hsecond hsecond' third hthird hthird'
    have hrange : 0x80 ≤ second ∧ second ≤ 0xBF ∧ (byte = 0xE0 → 0xA0 ≤ second) ∧
        (byte = 0xED → second ≤ 0x9F) := by
      split_ifs at hsecond hsecond' <;> omega
    refine ⟨?_, ?_⟩
    · unfold Nat.isValidChar
      omega
    · unfold scalarBytes
      rw [if_neg (by omega), if_neg (by omega), if_pos (by omega)]
      simp only [List.cons_append, List.nil_append, List.cons.injEq, and_true]
      omega
  rw [if_neg hthree] at h
  by_cases hfour : byte < 0xF5
  · rw [if_pos hfour] at h
    cases h
    change Extends 2 (if byte = 0xF0 then 0x90 else 0x80) (if byte = 0xF4 then 0x8F else 0xBF)
      (byte % 8) [byte]
    intro second hsecond hsecond' third hthird hthird' fourth hfourth hfourth'
    have hrange : 0x80 ≤ second ∧ second ≤ 0xBF ∧ (byte = 0xF0 → 0x90 ≤ second) ∧
        (byte = 0xF4 → second ≤ 0x8F) := by
      split_ifs at hsecond hsecond' <;> omega
    refine ⟨?_, ?_⟩
    · unfold Nat.isValidChar
      omega
    · unfold scalarBytes
      rw [if_neg (by omega), if_neg (by omega), if_neg (by omega)]
      simp only [List.cons_append, List.nil_append, List.cons.injEq, and_true]
      omega
  · rw [if_neg hfour] at h
    cases h

lemma tracks_of_opening {byte : ℕ} {sequence : Unfinished} (h : opening byte = some sequence) :
    Tracks sequence [byte] where
  ne_nil := List.cons_ne_nil _ _
  length := by
    unfold opening at h
    split_ifs at h <;> cases h <;> simp
  high := by
    unfold opening at h
    split_ifs at h with hlow <;> simp <;> omega
  completes := extends_of_opening h

lemma toNat_ofNat {n : ℕ} (h : n.isValidChar) : (Char.ofNat n).toNat = n := by
  rw [Char.ofNat, dif_pos h]
  rfl

/-- What the bytes of a state leave to be decoded. -/
def Pending (state : Option Unfinished) (bytes : List ℕ) : Prop :=
  match state with
  | none => bytes = []
  | some sequence => Tracks sequence bytes

lemma decodes_first {byte : ℕ} {bytes : List ℕ}
    (ih : ∀ state pending, Pending state pending → Decodes (pending ++ bytes) (decode state bytes)) :
    Decodes (byte :: bytes) ((first byte).1 ++ decode (first byte).2 bytes) := by
  unfold first
  by_cases hone : byte < 0x80
  · have hchar := Decodes.char (Char.ofNat byte) (ih none [] rfl)
    rw [toNat_ofNat (.inl (by omega)), scalarBytes, if_pos hone] at hchar
    rw [if_pos hone]
    exact hchar
  · rw [if_neg hone]
    rcases hopening : opening byte with _ | sequence
    · have hbyte : ∀ other ∈ [byte], 0x80 ≤ other := by simpa using Nat.not_lt.mp hone
      exact (ih none [] rfl).replaced (List.cons_ne_nil byte []) (by simp) hbyte
    · exact ih (some sequence) [byte] (tracks_of_opening hopening)

/-- A byte in its range completes a character or is another byte of the sequence. -/
lemma decodes_read {sequence : Unfinished} {pending bytes : List ℕ} {byte : ℕ}
    (h : Tracks sequence pending) (hbyte : sequence.lower ≤ byte ∧ byte ≤ sequence.upper)
    (ih : ∀ state pending, Pending state pending → Decodes (pending ++ bytes) (decode state bytes)) :
    Decodes (pending ++ byte :: bytes)
      ((sequence.read byte).1 ++ decode (sequence.read byte).2 bytes) := by
  have hcompletes := h.completes
  rw [← List.singleton_append, ← List.append_assoc]
  unfold Unfinished.read
  cases hmore : sequence.more with
  | zero =>
    rw [hmore] at hcompletes
    rcases hcompletes byte hbyte.1 hbyte.2 with ⟨hvalid, hbytes⟩
    have hchar := Decodes.char (Char.ofNat (sequence.scalar * 64 + byte % 64)) (ih none [] rfl)
    rw [toNat_ofNat hvalid, hbytes] at hchar
    exact hchar
  | succ more =>
    rw [hmore] at hcompletes
    have hlength := h.length
    refine ih (some _) (pending ++ [byte]) ⟨?_, ?_, ?_, hcompletes byte hbyte.1 hbyte.2⟩
    · simp
    · simp only [List.length_append, List.length_singleton]
      omega
    · intro other hother
      rcases List.mem_append.mp hother with hold | hnew
      · exact h.high other hold
      · rw [List.mem_singleton.mp hnew]
        exact sequence.le_lower.trans hbyte.1

lemma decodes_decode (bytes : List ℕ) (state : Option Unfinished) (pending : List ℕ)
    (h : Pending state pending) : Decodes (pending ++ bytes) (decode state bytes) := by
  induction bytes generalizing state pending with
  | nil =>
    rcases state with _ | sequence
    · cases h
      exact .nil
    · exact Decodes.nil.replaced h.ne_nil (le_of_add_le_left h.length) h.high
  | cons byte bytes ih =>
    rw [decode_cons]
    rcases state with _ | sequence
    · cases h
      exact decodes_first ih
    · unfold step
      dsimp only
      split_ifs with hbyte
      · exact decodes_read h hbyte ih
      · -- the byte ends the sequence and is read anew
        exact (decodes_first ih).replaced h.ne_nil (le_of_add_le_left h.length) h.high

section

variable {bytes : List ℕ} {text : List Char} (h : Decodes bytes text)
include h

lemma Decodes.length_le : text.length ≤ bytes.length := by
  induction h with
  | nil => exact le_rfl
  | char c h ih =>
    have hpos : 0 < (scalarBytes c.toNat).length := by
      unfold scalarBytes
      split_ifs <;> simp
    rw [List.length_cons, List.length_append]
    omega
  | replaced hne _ _ h ih =>
    have hpos := List.length_pos_iff.mpr hne
    rw [List.length_cons, List.length_append]
    omega

lemma Decodes.nil_iff : text = [] ↔ bytes = [] := by
  refine ⟨fun htext => ?_, fun hbytes => ?_⟩
  · cases h with
    | nil => rfl
    | char | replaced => cases htext
  · have hlength := h.length_le
    rw [hbytes] at hlength
    exact List.eq_nil_of_length_eq_zero (Nat.le_zero.mp hlength)

/-- A NUL byte is its own character and nothing else reads as one. -/
lemma Decodes.zero_mem_iff : 0 ∈ bytes ↔ Char.ofNat 0 ∈ text := by
  induction h with
  | nil => simp
  | char c h ih =>
    have hzero : 0 ∈ scalarBytes c.toNat ↔ c = Char.ofNat 0 := by
      rw [← Char.toNat_inj]
      unfold scalarBytes
      split_ifs <;> simp <;> omega
    rw [List.mem_append, List.mem_cons, ih, hzero, eq_comm]
  | replaced hne _ hhigh h ih =>
    rw [List.mem_append, List.mem_cons, ih]
    refine or_congr ⟨fun hmem => absurd (hhigh 0 hmem) (by decide), fun heq => ?_⟩ Iff.rfl
    exact absurd heq (by decide)

/-- A text without U+FFFD is what the bytes encode. -/
lemma Decodes.eq_utf8 (hnone : replacement ∉ text) : bytes = (utf8 text).map UInt8.toNat := by
  induction h with
  | nil => rfl
  | char c h ih =>
    rw [map_toNat_utf8_cons, ← ih fun hmem => hnone (List.mem_cons_of_mem _ hmem)]
  | replaced => exact absurd List.mem_cons_self hnone

end

end Arbitrary

end Utf8

section Lossy

open Utf8

lemma decodes_fromUtf8Lossy (bytes : List UInt8) :
    Decodes (bytes.map UInt8.toNat) (fromUtf8Lossy bytes) :=
  decodes_decode _ none [] rfl

/-- Damage does not spread to the text before and after it. -/
lemma fromUtf8Lossy_between (front back : List Char) (bytes : List UInt8) :
    fromUtf8Lossy (utf8 front ++ bytes ++ utf8 back) = front ++ fromUtf8Lossy bytes ++ back := by
  unfold fromUtf8Lossy
  rw [List.map_append, List.map_append, List.append_assoc, decode_append, run_utf8, decode_append,
    decode_utf8, List.append_assoc]
  unfold decode
  rw [List.append_assoc]

@[simp] lemma fromUtf8Lossy_utf8 (text : List Char) : fromUtf8Lossy (utf8 text) = text := by
  have h := fromUtf8Lossy_between text [] []
  rwa [utf8_nil, List.append_nil, List.append_nil, List.append_nil, show fromUtf8Lossy [] = [] from rfl,
    List.append_nil] at h

@[simp] lemma fromUtf8Lossy_eq_nil {bytes : List UInt8} : fromUtf8Lossy bytes = [] ↔ bytes = [] := by
  rw [(decodes_fromUtf8Lossy bytes).nil_iff, List.map_eq_nil_iff]

lemma zero_mem_fromUtf8Lossy {bytes : List UInt8} :
    Char.ofNat 0 ∈ fromUtf8Lossy bytes ↔ 0 ∈ bytes := by
  rw [← (decodes_fromUtf8Lossy bytes).zero_mem_iff, List.mem_map]
  refine ⟨?_, fun hmem => ⟨0, hmem, rfl⟩⟩
  rintro ⟨byte, hmem, hzero⟩
  rwa [← UInt8.toNat_inj.mp (hzero.trans rfl : byte.toNat = (0 : UInt8).toNat)]

/-- A text without U+FFFD comes from its own bytes only. -/
lemma fromUtf8Lossy_eq_iff {bytes : List UInt8} {text : List Char} (hnone : replacement ∉ text) :
    fromUtf8Lossy bytes = text ↔ bytes = utf8 text := by
  refine ⟨?_, ?_⟩
  · rintro rfl
    exact map_toNat_injective ((decodes_fromUtf8Lossy bytes).eq_utf8 hnone)
  · rintro rfl
    exact fromUtf8Lossy_utf8 text

end Lossy

end DoomFishUtils.Library
