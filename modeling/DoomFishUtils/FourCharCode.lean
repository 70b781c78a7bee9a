import DoomFishUtils.Library.Utf8

/-!
# Four-character codes

Codes of four bytes with their numbers and their texts.  A text is parsed into the code that it
displays; most codes have no text that is parsed into them.
-/

namespace DoomFishUtils

set_option autoImplicit false

open Library Utf8

structure FourCharCode where
  value : UInt32
  deriving DecidableEq

namespace FourCharCode

/-- `u32::from_be_bytes`. -/
def fromBeBytes (b0 b1 b2 b3 : UInt8) : UInt32 :=
  UInt32.ofNat (b0.toNat * 2 ^ 24 + b1.toNat * 2 ^ 16 + b2.toNat * 2 ^ 8 + b3.toNat)

/-- `u32::to_be_bytes`. -/
def toBeBytes (value : UInt32) : List UInt8 :=
  [UInt8.ofNat (value.toNat / 2 ^ 24), UInt8.ofNat (value.toNat / 2 ^ 16),
    UInt8.ofNat (value.toNat / 2 ^ 8), UInt8.ofNat value.toNat]

def fromBytes (b0 b1 b2 b3 : UInt8) : FourCharCode :=
  ⟨fromBeBytes b0 b1 b2 b3⟩

def fromSlice : List UInt8 → Option FourCharCode
  | [b0, b1, b2, b3] => some ⟨fromBeBytes b0 b1 b2 b3⟩
  | _ => none

def asU32 (code : FourCharCode) : UInt32 :=
  code.value

def asBytes (code : FourCharCode) : List UInt8 :=
  toBeBytes code.value

def fromU32 (value : UInt32) : FourCharCode :=
  ⟨value⟩

def equals (code other : FourCharCode) : Bool :=
  code.value == other.value

def display (code : FourCharCode) : List Char :=
  fromUtf8Lossy (toBeBytes code.value)

def lengthError : String :=
  "FourCharCode must be exactly 4 characters"

def asciiError : String :=
  "FourCharCode must contain only ASCII characters"

/-- `from_str`; a length counts bytes. -/
def fromStr (s : List Char) : Except String FourCharCode :=
  match utf8 s with
  | [b0, b1, b2, b3] =>
    if [b0, b1, b2, b3].all (· < 128) then .ok ⟨fromBeBytes b0 b1 b2 b3⟩ else .error asciiError
  | _ => .error lengthError

section Bytes

variable {code : FourCharCode} {b0 b1 b2 b3 : UInt8}

@[simp] lemma asBytes_fromBytes : (fromBytes b0 b1 b2 b3).asBytes = [b0, b1, b2, b3] := by
  have h0 := b0.toNat_lt
  have h1 := b1.toNat_lt
  have h2 := b2.toNat_lt
  have h3 := b3.toNat_lt
  unfold fromBytes asBytes fromBeBytes toBeBytes
  simp only [UInt32.toNat_ofNat', List.cons.injEq, and_true, ← UInt8.toNat_inj, UInt8.toNat_ofNat']
  omega

lemma exists_fromBytes (code : FourCharCode) : ∃ b0 b1 b2 b3, code = fromBytes b0 b1 b2 b3 := by
  refine ⟨UInt8.ofNat (code.value.toNat / 2 ^ 24), UInt8.ofNat (code.value.toNat / 2 ^ 16),
    UInt8.ofNat (code.value.toNat / 2 ^ 8), UInt8.ofNat code.value.toNat, ?_⟩
  have hlt := code.value.toNat_lt
  rcases code with ⟨value⟩
  unfold fromBytes fromBeBytes
  rw [FourCharCode.mk.injEq, ← UInt32.toNat_inj]
  simp only [UInt32.toNat_ofNat', UInt8.toNat_ofNat'] at hlt ⊢
  omega

lemma asBytes_injective {code code' : FourCharCode} (h : code.asBytes = code'.asBytes) :
    code = code' := by
  rcases exists_fromBytes code with ⟨b0, b1, b2, b3, rfl⟩
  rcases exists_fromBytes code' with ⟨c0, c1, c2, c3, rfl⟩
  rw [asBytes_fromBytes, asBytes_fromBytes] at h
  simp only [List.cons.injEq, and_true] at h
  rcases h with ⟨rfl, rfl, rfl, rfl⟩
  rfl

/-- A slice has a code exactly if it holds the bytes of that code. -/
lemma fromSlice_eq_some {bytes : List UInt8} : fromSlice bytes = some code ↔ code.asBytes = bytes := by
  unfold fromSlice
  split
  · next b0 b1 b2 b3 =>
    rw [← asBytes_fromBytes, Option.some.injEq]
    exact ⟨fun h => h ▸ rfl, fun h => (asBytes_injective h).symm⟩
  · next hlength =>
    rcases exists_fromBytes code with ⟨b0, b1, b2, b3, rfl⟩
    rw [asBytes_fromBytes]
    exact ⟨(fun h => nomatch h), fun h => absurd h.symm (hlength b0 b1 b2 b3)⟩

end Bytes

section Text

variable {code : FourCharCode} {s : List Char}

def IsAscii (code : FourCharCode) : Prop :=
  ∀ byte ∈ code.asBytes, byte < 128

lemma fromStr_eq_ok : fromStr s = .ok code ↔ utf8 s = code.asBytes ∧ code.IsAscii := by
  unfold fromStr IsAscii
  split
  · next b0 b1 b2 b3 hbytes =>
    have hcode : (⟨fromBeBytes b0 b1 b2 b3⟩ : FourCharCode).asBytes = [b0, b1, b2, b3] :=
      asBytes_fromBytes
    rw [hbytes, ← hcode]
    split_ifs with hascii
    · rw [Except.ok.injEq]
      refine ⟨?_, fun h => asBytes_injective h.1⟩
      rintro rfl
      exact ⟨rfl, by simpa using hascii⟩
    · refine ⟨(fun h => nomatch h), fun h => absurd ?_ hascii⟩
      rw [h.1]
      simpa using h.2
  · next hlength =>
    rcases exists_fromBytes code with ⟨b0, b1, b2, b3, rfl⟩
    rw [asBytes_fromBytes]
    exact ⟨(fun h => nomatch h), fun h => absurd h.1 (hlength b0 b1 b2 b3)⟩

/-- A text whose bytes are ASCII is a text of ASCII characters. -/
lemma replacement_notMem (h : ∀ byte ∈ utf8 s, byte < 128) : replacement ∉ s := by
  intro hmem
  have hlead : leadByte replacement ∈ utf8 s :=
    List.mem_flatMap.mpr ⟨replacement, hmem, leadByte_mem replacement⟩
  exact absurd (h _ hlead) (by decide)

lemma exists_utf8_of_ascii {bytes : List UInt8} (h : ∀ byte ∈ bytes, byte < 128) :
    ∃ text, utf8 text = bytes := by
  induction bytes with
  | nil => exact ⟨[], rfl⟩
  | cons byte bytes ih =>
    rcases ih fun other hother => h other (List.mem_cons_of_mem _ hother) with ⟨text, htext⟩
    have hbyte : byte.toNat < 128 := h byte List.mem_cons_self
    have hnat : (Char.ofNat byte.toNat).toNat = byte.toNat := toNat_ofNat (.inl (by omega))
    refine ⟨Char.ofNat byte.toNat :: text, ?_⟩
    rw [utf8_cons, utf8EncodeChar_of_ascii (by omega), htext, asciiByte, hnat, UInt8.ofNat_toNat]
    rfl

/-- A text is parsed into the ASCII code that it displays, and the text that a code displays is parsed
into nothing but that code. -/
theorem fromStr_eq_ok_iff_display :
    (∀ s code, fromStr s = .ok code ↔ code.display = s ∧ code.IsAscii) ∧
      ∀ code code', fromStr code.display = .ok code' ↔ code' = code ∧ code.IsAscii := by
  have hparse : ∀ s code, fromStr s = .ok code ↔ code.display = s ∧ code.IsAscii := by
    intro s code
    rw [fromStr_eq_ok]
    refine and_congr_left fun hascii => ?_
    have hnone : utf8 s = code.asBytes → replacement ∉ s := by
      intro h
      exact replacement_notMem (h ▸ hascii)
    refine ⟨fun h => ((fromUtf8Lossy_eq_iff (hnone h)).mpr h.symm), ?_⟩
    rintro rfl
    rcases exists_utf8_of_ascii hascii with ⟨text, htext⟩
    rw [display, show toBeBytes code.value = utf8 text from htext.symm, fromUtf8Lossy_utf8, htext]
  refine ⟨hparse, fun code code' => ?_⟩
  rw [hparse]
  constructor
  · rintro ⟨hdisplay, hascii⟩
    rcases exists_utf8_of_ascii hascii with ⟨text, htext⟩
    have htext' : code'.display = text := by
      rw [display, show toBeBytes code'.value = utf8 text from htext.symm, fromUtf8Lossy_utf8]
    have hbytes := (fromUtf8Lossy_eq_iff (replacement_notMem (htext ▸ hascii))).mp
      (hdisplay.symm.trans htext')
    obtain rfl : code = code' := asBytes_injective (hbytes.trans htext)
    exact ⟨rfl, hascii⟩
  · rintro ⟨rfl, hascii⟩
    exact ⟨rfl, hascii⟩

end Text

end FourCharCode

end DoomFishUtils
