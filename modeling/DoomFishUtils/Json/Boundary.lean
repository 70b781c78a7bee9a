import DoomFishUtils.Json.Grammar
import DoomFishUtils.Library.Outcome

/-!
# The reader between two characters

`Reader.between before after` is the reader that has read `before` and has `after` ahead of
it.  On such readers the byte-level operations are operations on the characters ahead.
-/

namespace DoomFishUtils.Json

set_option autoImplicit false

open DoomFishUtils.Library

section Classes

lemma toNat_asciiByte {c : Char} (hc : c.toNat < 128) : (asciiByte c).toNat = c.toNat := by
  rw [← leadByte_of_ascii hc, toNat_leadByte_of_ascii hc]

/-- A range of ASCII bytes contains the first byte of a character exactly when the range of
ASCII characters contains the character. -/
lemma leadByte_range (c : Char) {low high : Char} (hlow : low.toNat < 128) (hhigh : high.toNat < 128) :
    asciiByte low ≤ leadByte c ∧ leadByte c ≤ asciiByte high ↔ low ≤ c ∧ c ≤ high := by
  have hchar : ∀ a b : Char, a ≤ b ↔ a.toNat ≤ b.toNat := fun a b => Iff.rfl
  rw [UInt8.le_iff_toNat_le, UInt8.le_iff_toNat_le, toNat_asciiByte hlow, toNat_asciiByte hhigh,
    hchar, hchar]
  rcases Nat.lt_or_ge c.toNat 128 with hc | hc
  · rw [toNat_leadByte_of_ascii hc]
  · have := le_leadByte hc
    omega

lemma isDigit_leadByte (c : Char) : isDigit (leadByte c) = c.isDigit := by
  have hrange := leadByte_range c (show '0'.toNat < 128 by decide)
    (show '9'.toNat < 128 by decide)
  rw [Bool.eq_iff_iff]
  simp only [isDigit, decide_eq_true_eq, hrange, Char.isDigit, Bool.and_eq_true]
  exact Iff.rfl

lemma isSpace_leadByte (c : Char) : isSpace (leadByte c) = isBlank c := by
  unfold isSpace isBlank
  simp only [leadByte_eq_asciiByte (show ' '.toNat < 128 by decide),
    leadByte_eq_asciiByte (show '\t'.toNat < 128 by decide),
    leadByte_eq_asciiByte (show '\n'.toNat < 128 by decide),
    leadByte_eq_asciiByte (show '\r'.toNat < 128 by decide)]

lemma hexDigit_leadByte (c : Char) : hexDigit (leadByte c) = hexDigitValue c := by
  unfold hexDigit hexDigitValue
  simp only [leadByte_range c (show '0'.toNat < 128 by decide) (show '9'.toNat < 128 by decide),
    leadByte_range c (show 'a'.toNat < 128 by decide) (show 'f'.toNat < 128 by decide),
    leadByte_range c (show 'A'.toNat < 128 by decide) (show 'F'.toNat < 128 by decide)]
  rcases Nat.lt_or_ge c.toNat 128 with hc | hc
  · simp only [toNat_leadByte_of_ascii hc]
  · have hnot : ∀ high : Char, high.toNat < 128 → ¬ c ≤ high := fun high hhigh hle => by
      have : c.toNat ≤ high.toNat := hle
      omega
    simp [hnot '9' (by decide), hnot 'f' (by decide), hnot 'F' (by decide)]

lemma escaped_leadByte (c : Char) : escaped (leadByte c) = shortEscape c := by
  unfold shortEscape
  split
  case h_9 hquote hbackslash hslash hb hf hn hr ht =>
    have hne : ∀ {d : Char}, d.toNat < 128 → c ≠ d → leadByte c ≠ asciiByte d := fun hd hcd heq =>
      hcd ((leadByte_eq_asciiByte hd).mp heq)
    unfold escaped
    rw [if_neg (hne (by decide) hquote), if_neg (hne (by decide) hbackslash),
      if_neg (hne (by decide) hslash), if_neg (hne (by decide) hb), if_neg (hne (by decide) hf),
      if_neg (hne (by decide) hn), if_neg (hne (by decide) hr), if_neg (hne (by decide) ht)]
  all_goals rfl

/-- A run of a class ends where the first character outside it stands. -/
lemma takeWhile_of_end {p : Char → Bool} {part rest : List Char} (hpart : ∀ c ∈ part, p c = true)
    (hrest : ∀ c, rest.head? = some c → p c = false) :
    (part ++ rest).takeWhile p = part ∧ (part ++ rest).dropWhile p = rest := by
  have htake : rest.takeWhile p = [] ∧ rest.dropWhile p = rest := by
    cases rest with
    | nil => exact ⟨rfl, rfl⟩
    | cons c rest =>
      have hc := hrest c rfl
      simp [hc]
  rw [List.takeWhile_append_of_pos hpart, List.dropWhile_append_of_pos hpart, htake.1, htake.2,
    List.append_nil]
  exact ⟨rfl, rfl⟩

end Classes

namespace Reader

/-- The reader behind `before` and ahead of `after`. -/
def between (before after : List Char) : Reader :=
  ⟨before ++ after, byteLength before⟩

variable (before : List Char)

@[simp] lemma text_between (after : List Char) : (between before after).text = before ++ after :=
  rfl

@[simp] lemma position_between (after : List Char) :
    (between before after).position = byteLength before :=
  rfl

lemma peek_between (after : List Char) :
    (between before after).peek = after.head?.map leadByte :=
  utf8_getElem?_boundary before after

@[simp] lemma peek_between_nil : (between before []).peek = none := by
  rw [peek_between]
  rfl

@[simp] lemma peek_between_cons (c : Char) (after : List Char) :
    (between before (c :: after)).peek = some (leadByte c) := by
  rw [peek_between]
  rfl

/-- Looking for an ASCII byte is looking for its character. -/
lemma peek_between_eq {after : List Char} {d : Char} (hd : d.toNat < 128) :
    (between before after).peek = some (asciiByte d) ↔ after.head? = some d := by
  rw [peek_between]
  cases after with
  | nil => simp
  | cons c after => simp [leadByte_eq_asciiByte hd]

lemma peek_between_ne {c d : Char} (hd : d.toNat < 128) (hne : c ≠ d) (after : List Char) :
    (between before (c :: after)).peek ≠ some (asciiByte d) := by
  rw [Ne, peek_between_eq before hd]
  simpa using hne

lemma advance_between (part after : List Char) :
    (between before (part ++ after)).advance (byteLength part) =
      between (before ++ part) after := by
  simp [between, advance]

lemma advance_between_ascii {d : Char} (hd : d.toNat < 128) (after : List Char) :
    (between before (d :: after)).advance 1 = between (before ++ [d]) after := by
  have h := advance_between before [d] after
  simpa [utf8Size_of_ascii hd] using h

lemma consume_between_cons {d : Char} (hd : d.toNat < 128) (after : List Char) :
    (between before (d :: after)).consume (asciiByte d) =
      (true, between (before ++ [d]) after) := by
  unfold consume
  rw [if_pos ((peek_between_eq before hd).mpr rfl), advance_between_ascii before hd]

lemma consume_between_of_ne {d : Char} (hd : d.toNat < 128) {after : List Char}
    (hne : after.head? ≠ some d) :
    (between before after).consume (asciiByte d) = (false, between before after) := by
  unfold consume
  rw [if_neg fun h => hne ((peek_between_eq before hd).mp h)]

lemma skipWhile_between {p : UInt8 → Bool} (hp : ∀ byte, p byte = true → byte.toNat < 128)
    (after : List Char) :
    (between before after).skipWhile p =
      between (before ++ after.takeWhile (p ∘ leadByte)) (after.dropWhile (p ∘ leadByte)) := by
  have hdrop : (utf8 (between before after).text).drop (between before after).position =
      utf8 after := by
    simp [← length_utf8]
  have h := advance_between before (after.takeWhile (p ∘ leadByte))
    (after.dropWhile (p ∘ leadByte))
  rw [List.takeWhile_append_dropWhile] at h
  unfold skipWhile
  rw [hdrop, takeWhile_utf8_length hp, h]

lemma isDigit_ascii {byte : UInt8} (h : isDigit byte = true) : byte.toNat < 128 := by
  simp only [isDigit, decide_eq_true_eq] at h
  have hle := UInt8.le_iff_toNat_le.mp h.2
  rw [toNat_asciiByte (by decide)] at hle
  exact lt_of_le_of_lt hle (by decide)

lemma isSpace_ascii {byte : UInt8} (h : isSpace byte = true) : byte.toNat < 128 := by
  simp only [isSpace, decide_eq_true_eq] at h
  rcases h with rfl | rfl | rfl | rfl <;> decide

/-- Whitespace ends at the first character that is not blank. -/
lemma whitespace_between (after : List Char) :
    (between before after).whitespace =
      between (before ++ after.takeWhile isBlank) (after.dropWhile isBlank) := by
  have hclass : isSpace ∘ leadByte = isBlank := funext isSpace_leadByte
  unfold whitespace
  rw [skipWhile_between before (fun _ => isSpace_ascii), hclass]

lemma whitespace_of_blank {blank rest : List Char} (hblank : Blank blank)
    (hrest : ∀ c, rest.head? = some c → isBlank c = false) :
    (between before (blank ++ rest)).whitespace = between (before ++ blank) rest := by
  rw [whitespace_between, (takeWhile_of_end hblank hrest).1, (takeWhile_of_end hblank hrest).2]

lemma exists_whitespace (after : List Char) :
    ∃ blank rest, after = blank ++ rest ∧ Blank blank ∧
      (between before after).whitespace = between (before ++ blank) rest :=
  ⟨_, _, List.takeWhile_append_dropWhile.symm, List.all_eq_true.mp List.all_takeWhile,
    whitespace_between before after⟩

lemma skipDigits_between (after : List Char) :
    (between before after).skipWhile isDigit =
      between (before ++ after.takeWhile Char.isDigit) (after.dropWhile Char.isDigit) := by
  have hclass : isDigit ∘ leadByte = Char.isDigit := funext isDigit_leadByte
  rw [skipWhile_between before (fun _ => isDigit_ascii), hclass]

lemma since_between (piece after : List Char) :
    (between (before ++ piece) after).since (byteLength before) = .ok piece := by
  unfold since
  simp [slice_append]

lemma remaining_between (after : List Char) : (between before after).remaining = .ok after := by
  unfold remaining
  simp [dropBytes_append]

end Reader

section Reads

variable {α β : Type} {before after : List Char}

/-- The failures that the source reports as errors. -/
def Failure.IsError : Failure → Prop
  | .err _ => True
  | .panic | .timeout => False

/-- The code either reports an error or reads a token off the text ahead and returns a value
related to it. -/
def Reads (before after : List Char) (x : Except Failure (α × Reader))
    (spec : List Char → α → Prop) : Prop :=
  Yields Failure.IsError x fun (a, reader) =>
    ∃ token rest, after = token ++ rest ∧ reader = Reader.between (before ++ token) rest ∧
      spec token a

/-- The same for code that returns only the reader. -/
def Reaches (before after : List Char) (x : Except Failure Reader)
    (spec : List Char → Prop) : Prop :=
  Yields Failure.IsError x fun reader =>
    ∃ token rest, after = token ++ rest ∧ reader = Reader.between (before ++ token) rest ∧
      spec token

lemma Reads.fail {reader : Reader} {message : String} {spec : List Char → α → Prop} :
    Reads before after (reader.fail message) spec :=
  trivial

lemma Reaches.fail {reader : Reader} {message : String} {spec : List Char → Prop} :
    Reaches before after (reader.fail message) spec :=
  trivial

lemma Reads.ok (token : List Char) {rest : List Char} {a : α} {reader : Reader}
    {spec : List Char → α → Prop} (hafter : after = token ++ rest)
    (hreader : reader = Reader.between (before ++ token) rest) (h : spec token a) :
    Reads before after (.ok (a, reader)) spec :=
  ⟨token, rest, hafter, hreader, h⟩

lemma Reaches.ok (token : List Char) {rest : List Char} {reader : Reader} {spec : List Char → Prop}
    (hafter : after = token ++ rest)
    (hreader : reader = Reader.between (before ++ token) rest) (h : spec token) :
    Reaches before after (.ok reader) spec :=
  ⟨token, rest, hafter, hreader, h⟩

lemma Reads.mono {x : Except Failure (α × Reader)} {spec spec' : List Char → α → Prop}
    (h : Reads before after x spec) (himp : ∀ token a, spec token a → spec' token a) :
    Reads before after x spec' :=
  Yields.mono h fun _ ⟨token, rest, hafter, hreader, hspec⟩ =>
    ⟨token, rest, hafter, hreader, himp token _ hspec⟩

lemma Reads.ite {c : Prop} [Decidable c] {x y : Except Failure (α × Reader)}
    {spec : List Char → α → Prop} (hpos : c → Reads before after x spec)
    (hneg : ¬c → Reads before after y spec) :
    Reads before after (if c then x else y) spec :=
  Yields.ite hpos hneg

lemma Reads.bind {x : Except Failure (α × Reader)} {f : α × Reader → Except Failure (β × Reader)}
    {spec : List Char → α → Prop} {spec' : List Char → β → Prop} (hx : Reads before after x spec)
    (hf : ∀ token rest a, after = token ++ rest → spec token a →
      Reads (before ++ token) rest (f (a, Reader.between (before ++ token) rest))
        fun token' b => spec' (token ++ token') b) :
    Reads before after (x >>= f) spec' := by
  apply Yields.bind hx
  rintro ⟨a, reader⟩ ⟨token, rest, rfl, rfl, hspec⟩
  apply Yields.mono (hf token rest a rfl hspec)
  rintro ⟨b, reader⟩ ⟨token', rest', rfl, rfl, hspec'⟩
  exact ⟨token ++ token', rest', by simp, by simp, hspec'⟩

lemma Reaches.bind {x : Except Failure Reader} {f : Reader → Except Failure (β × Reader)}
    {spec : List Char → Prop} {spec' : List Char → β → Prop} (hx : Reaches before after x spec)
    (hf : ∀ token rest, after = token ++ rest → spec token →
      Reads (before ++ token) rest (f (Reader.between (before ++ token) rest))
        fun token' b => spec' (token ++ token') b) :
    Reads before after (x >>= f) spec' := by
  apply Yields.bind hx
  rintro reader ⟨token, rest, rfl, rfl, hspec⟩
  apply Yields.mono (hf token rest rfl hspec)
  rintro ⟨b, reader⟩ ⟨token', rest', rfl, rfl, hspec'⟩
  exact ⟨token ++ token', rest', by simp, by simp, hspec'⟩

/-- Prepends a token that has been read before the code started. -/
lemma Reads.after_token (token : List Char) {x : Except Failure (α × Reader)}
    {rest : List Char} {spec : List Char → α → Prop}
    (h : Reads (before ++ token) rest x fun token' a => spec (token ++ token') a) :
    Reads before (token ++ rest) x spec := by
  apply Yields.mono h
  rintro ⟨a, reader⟩ ⟨token', rest', rfl, rfl, hspec⟩
  exact ⟨token ++ token', rest', by simp, by simp, hspec⟩

lemma expect_reaches {d : Char} (hd : d.toNat < 128) (message : String) :
    Reaches before after ((Reader.between before after).expect (asciiByte d) message)
      fun token => token = [d] := by
  unfold Reader.expect
  by_cases hhead : after.head? = some d
  · rcases List.head?_eq_some_iff.mp hhead with ⟨rest, rfl⟩
    rw [Reader.consume_between_cons before hd]
    exact Reaches.ok [d] rfl rfl rfl
  · rw [Reader.consume_between_of_ne before hd hhead]
    exact Reaches.fail

lemma expect_between {d : Char} (hd : d.toNat < 128) (rest : List Char) (message : String) :
    (Reader.between before (d :: rest)).expect (asciiByte d) message =
      .ok (Reader.between (before ++ [d]) rest) := by
  unfold Reader.expect
  rw [Reader.consume_between_cons before hd]
  rfl

end Reads

end DoomFishUtils.Json
