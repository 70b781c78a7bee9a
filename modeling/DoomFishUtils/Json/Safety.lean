import DoomFishUtils.Json.Sound
import DoomFishUtils.Json.Trace

/-!
# The parser is safe on every text

The reader with its trace returns what the reader returns.  Its positions stay inside of the text,
its slices are cut between characters, its arithmetic stays inside of its words and containers nest
as deep as the limit at most.
-/

namespace DoomFishUtils.Json

set_option autoImplicit false

open DoomFishUtils.Library

variable {F : Type} {floats : Floats F}

namespace Reading

open Traced

/-! ### What the trace leaves alone -/

section Outcomes

variable (reader : Reader)

@[simp] lemma outcome_checkedU32 (value : ℕ) :
    (checkedU32 value).outcome = Json.checkedU32 value := by
  simp [checkedU32]

@[simp] lemma outcome_subU32 (left right : ℕ) :
    (subU32 left right).outcome = Json.subU32 left right := by
  simp [subU32]

@[simp] lemma outcome_advance (count : ℕ) :
    (advance reader count).outcome = .ok (reader.advance count) := by
  simp [advance]

@[simp] lemma outcome_consume (byte : UInt8) :
    (consume reader byte).outcome = .ok (reader.consume byte) := by
  unfold consume Reader.consume
  split_ifs <;> simp

@[simp] lemma outcome_skipWhile (p : UInt8 → Bool) :
    (skipWhile reader p).outcome = .ok (reader.skipWhile p) :=
  rfl

@[simp] lemma outcome_whitespace : (whitespace reader).outcome = .ok reader.whitespace :=
  rfl

@[simp] lemma outcome_since (start : ℕ) : (since reader start).outcome = reader.since start := by
  simp [since]

@[simp] lemma outcome_remaining : (remaining reader).outcome = reader.remaining := by
  simp [remaining]

@[simp] lemma outcome_fail {α : Type} (message : String) :
    (fail reader message : Reading α).outcome = reader.fail message :=
  rfl

@[simp] lemma outcome_expect (byte : UInt8) (message : String) :
    (expect reader byte message).outcome = reader.expect byte message := by
  unfold expect Reader.expect
  rw [outcome_bind, outcome_consume, ok_bind]
  rcases reader.consume byte with ⟨_ | _, reader⟩ <;> rfl

@[simp] lemma outcome_hexQuad : (hexQuad reader).outcome = reader.hexQuad := by
  have hloop : ∀ (count : ℕ) (reader : Reader) (value : ℕ),
      (hexQuadLoop count reader value).outcome = Reader.hexQuadLoop count reader value := by
    intro count
    induction count with
    | zero => intro reader value; rfl
    | succ count ih =>
      intro reader value
      rcases hdigit : reader.peek.bind hexDigit with _ | digit <;>
        simp [hexQuadLoop, Reader.hexQuadLoop, hdigit, ih]
  exact hloop 4 reader 0

@[simp] lemma outcome_combine (first second : ℕ) :
    (combine first second).outcome = Reader.combine first second := by
  simp [combine, Reader.combine]

@[simp] lemma outcome_unicodeCode : (unicodeCode reader).outcome = reader.unicodeCode := by
  refine outcome_bind_eq (outcome_hexQuad reader) ?_
  rintro ⟨first, reader⟩
  dsimp only
  split_ifs
  · refine outcome_bind_eq (outcome_expect reader _ _) fun reader => ?_
    refine outcome_bind_eq (outcome_expect reader _ _) fun reader => ?_
    refine outcome_bind_eq (outcome_hexQuad reader) ?_
    rintro ⟨second, reader⟩
    dsimp only
    split_ifs
    · exact outcome_bind_eq (outcome_combine first second) fun code => rfl
    · rfl
  · rfl

@[simp] lemma outcome_escape : (escape reader).outcome = reader.escape := by
  unfold escape Reader.escape
  rcases reader.peek with _ | byte
  · rfl
  · dsimp only
    split_ifs
    · rw [outcome_bind, outcome_advance, ok_bind]
      refine outcome_bind_eq (outcome_unicodeCode _) ?_
      rintro ⟨code, reader⟩
      dsimp only
      rcases charFromU32 code with _ | character <;> rfl
    · rcases escaped byte with _ | character <;> simp

@[simp] lemma outcome_string : (string reader).outcome = reader.string := by
  have hloop : ∀ (fuel : ℕ) (reader : Reader) (value : List Char) (start : ℕ),
      (stringLoop fuel reader value start).outcome = Reader.stringLoop fuel reader value start := by
    intro fuel
    induction fuel with
    | zero => intro reader value start; rfl
    | succ fuel ih =>
      intro reader value start
      unfold stringLoop Reader.stringLoop
      rcases reader.peek with _ | byte
      · rfl
      · dsimp only
        split_ifs
        · exact outcome_bind_eq (outcome_since reader start) fun piece => rfl
        · refine outcome_bind_eq (outcome_since reader start) fun piece => ?_
          rw [outcome_bind, outcome_advance, ok_bind]
          refine outcome_bind_eq (outcome_escape _) ?_
          rintro ⟨character, reader⟩
          exact ih reader _ _
        · rfl
        · rw [outcome_bind, outcome_advance, ok_bind]
          exact ih _ value start
  rw [string, outcome_bind, outcome_advance, ok_bind]
  exact hloop _ _ _ _

@[simp] lemma outcome_integerPart : (integerPart reader).outcome = reader.integerPart := by
  unfold integerPart Reader.integerPart
  split_ifs <;> rfl

@[simp] lemma outcome_digits (message : String) :
    (digits reader message).outcome = reader.digits message := by
  unfold digits Reader.digits
  rw [outcome_bind, outcome_skipWhile, ok_bind, outcome_ite]
  rfl

@[simp] lemma outcome_fraction : (fraction reader).outcome = reader.fraction := by
  unfold fraction Reader.fraction
  rw [outcome_bind, outcome_consume, ok_bind]
  rcases reader.consume (asciiByte '.') with ⟨_ | _, reader⟩
  · rfl
  · exact outcome_bind_eq (outcome_digits reader _) fun reader => rfl

@[simp] lemma outcome_exponentSign :
    (exponentSign reader).outcome = .ok reader.exponentSign := by
  unfold exponentSign Reader.exponentSign
  rw [outcome_bind, outcome_consume, ok_bind]
  rcases reader.consume (asciiByte '+') with ⟨_ | _, reader⟩
  · dsimp only
    rw [if_neg Bool.false_ne_true, if_neg Bool.false_ne_true, outcome_bind, outcome_consume, ok_bind]
    rfl
  · rfl

@[simp] lemma outcome_exponent : (exponent reader).outcome = reader.exponent := by
  unfold exponent Reader.exponent
  rw [outcome_ite]
  split_ifs
  · rw [outcome_bind, outcome_advance, ok_bind, outcome_bind, outcome_exponentSign, ok_bind]
    exact outcome_bind_eq (outcome_digits _ _) fun reader => rfl
  · rfl

@[simp] lemma outcome_number : (number floats reader).outcome = reader.number floats := by
  unfold number Reader.number
  rw [outcome_bind, outcome_consume, ok_bind]
  refine outcome_bind_eq (outcome_integerPart _) fun integral => ?_
  refine outcome_bind_eq (outcome_fraction integral) ?_
  rintro ⟨hasFraction, fractional⟩
  refine outcome_bind_eq (outcome_exponent fractional) ?_
  rintro ⟨hasExponent, complete⟩
  refine outcome_bind_eq (outcome_since complete reader.position) fun token => ?_
  exact outcome_bind_eq rfl fun value => rfl

@[simp] lemma outcome_literal (word : List Char) (length : ℕ) (value : Value F) :
    (literal reader word length value).outcome = reader.literal word length value := by
  refine outcome_bind_eq (outcome_remaining reader) fun rest => ?_
  split_ifs <;> rfl

/-- The five functions of the value reader at one amount of fuel. -/
structure SameOutcomes (floats : Floats F) (limit fuel : ℕ) : Prop where
  value : ∀ reader depth, (value floats limit fuel reader depth).outcome =
    Reader.value floats limit fuel reader depth
  object : ∀ reader depth, (object floats limit fuel reader depth).outcome =
    Reader.object floats limit fuel reader depth
  members : ∀ reader depth values, (members floats limit fuel reader depth values).outcome =
    Reader.members floats limit fuel reader depth values
  array : ∀ reader depth, (array floats limit fuel reader depth).outcome =
    Reader.array floats limit fuel reader depth
  elements : ∀ reader depth values, (elements floats limit fuel reader depth values).outcome =
    Reader.elements floats limit fuel reader depth values

lemma sameOutcomes (floats : Floats F) (limit fuel : ℕ) : SameOutcomes floats limit fuel := by
  induction fuel with
  | zero =>
    constructor
    case value => exact fun _ _ => by rw [value, Reader.value, outcome_silent]
    case object => exact fun _ _ => by rw [object, Reader.object, outcome_silent]
    case members => exact fun _ _ _ => by rw [members, Reader.members, outcome_silent]
    case array => exact fun _ _ => by rw [array, Reader.array, outcome_silent]
    case elements => exact fun _ _ _ => by rw [elements, Reader.elements, outcome_silent]
  | succ fuel ih =>
    constructor
    case value =>
      intro reader depth
      rw [value, Reader.value, outcome_bind, outcome_whitespace, ok_bind]
      refine outcome_ite_eq (fun _ => rfl) fun _ => ?_
      refine outcome_ite_eq (fun _ => ih.object _ _) fun _ => ?_
      refine outcome_ite_eq (fun _ => ih.array _ _) fun _ => ?_
      refine outcome_ite_eq (fun _ => ?_) fun _ => ?_
      · refine outcome_bind_eq (outcome_string _) ?_
        rintro ⟨text, reader⟩
        rfl
      refine outcome_ite_eq (fun _ => outcome_number _) fun _ => ?_
      refine outcome_ite_eq (fun _ => outcome_literal _ _ _ _) fun _ => ?_
      refine outcome_ite_eq (fun _ => outcome_literal _ _ _ _) fun _ => ?_
      exact outcome_ite_eq (fun _ => outcome_literal _ _ _ _) fun _ => rfl
    case object =>
      intro reader depth
      rw [object, Reader.object, outcome_bind, outcome_advance, ok_bind, outcome_bind,
        outcome_whitespace, ok_bind, outcome_bind, outcome_consume, ok_bind]
      rcases (reader.advance 1).whitespace.consume (asciiByte '\x7d') with ⟨_ | _, reader⟩
      · exact ih.members _ _ _
      · rfl
    case members =>
      intro reader depth values
      rw [members, Reader.members, outcome_ite]
      split_ifs
      · rfl
      · refine outcome_bind_eq (outcome_string _) ?_
        rintro ⟨key, reader⟩
        rw [outcome_bind, outcome_whitespace, ok_bind]
        refine outcome_bind_eq (outcome_expect _ _ _) fun reader => ?_
        refine outcome_bind_eq (ih.value _ _) ?_
        rintro ⟨value, reader⟩
        rw [outcome_bind, outcome_whitespace, ok_bind, outcome_bind, outcome_consume, ok_bind]
        dsimp only
        rcases reader.whitespace.consume (asciiByte '\x7d') with ⟨_ | _, reader⟩
        · refine outcome_bind_eq (outcome_expect _ _ _) fun reader => ?_
          rw [outcome_bind, outcome_whitespace, ok_bind]
          exact ih.members _ _ _
        · rfl
    case array =>
      intro reader depth
      rw [array, Reader.array, outcome_bind, outcome_advance, ok_bind, outcome_bind,
        outcome_whitespace, ok_bind, outcome_bind, outcome_consume, ok_bind]
      rcases (reader.advance 1).whitespace.consume (asciiByte ']') with ⟨_ | _, reader⟩
      · exact ih.elements _ _ _
      · rfl
    case elements =>
      intro reader depth values
      rw [elements, Reader.elements]
      refine outcome_bind_eq (ih.value _ _) ?_
      rintro ⟨value, reader⟩
      rw [outcome_bind, outcome_whitespace, ok_bind, outcome_bind, outcome_consume, ok_bind]
      dsimp only
      rcases reader.whitespace.consume (asciiByte ']') with ⟨_ | _, reader⟩
      · refine outcome_bind_eq (outcome_expect _ _ _) fun reader => ?_
        exact ih.elements _ _ _
      · rfl

lemma outcome_parseWithin (floats : Floats F) (limit : ℕ) (text : List Char) :
    (parseWithin floats limit text).outcome = Json.parseWithin floats limit text := by
  refine outcome_bind_eq ((sameOutcomes floats limit _).value _ _) ?_
  rintro ⟨value, reader⟩
  rw [outcome_bind, outcome_whitespace, ok_bind, outcome_ite]
  rfl

end Outcomes

end Reading

/-! ### Where the reader may be -/

/-- A position between two characters. -/
def Boundary (text : List Char) (position : ℕ) : Prop :=
  ∃ before after, text = before ++ after ∧ position = byteLength before

/-- An event that does not go wrong.  The bytes of a slice are those of some characters. -/
def Event.Safe (text : List Char) : Event → Prop
  | .moved position => position ≤ byteLength text
  | .sliced start stop =>
    start ≤ stop ∧ stop ≤ byteLength text ∧ Boundary text start ∧ Boundary text stop ∧
      ∃ piece, ((utf8 text).drop start).take (stop - start) = utf8 piece
  | .computed value => 0 ≤ value ∧ value < 2 ^ 32
  | .container => True

/-- A reader of the text between two characters, at `start` or later. -/
def At (text : List Char) (start : ℕ) (reader : Reader) : Prop :=
  start ≤ reader.position ∧
    ∃ before after, text = before ++ after ∧ reader = Reader.between before after

section Positions

variable {text : List Char} {start : ℕ} {reader : Reader}

lemma Boundary.le (h : Boundary text start) : start ≤ byteLength text := by
  rcases h with ⟨before, after, rfl, rfl⟩
  rw [byteLength_append]
  exact Nat.le_add_right _ _

lemma At.boundary (h : At text start reader) : Boundary text reader.position := by
  rcases h with ⟨-, before, after, rfl, rfl⟩
  exact ⟨before, after, rfl, rfl⟩

lemma At.weaken {start' : ℕ} (h : At text start reader) (hle : start' ≤ reader.position) :
    At text start' reader :=
  ⟨hle, h.2⟩

/-- Between two boundaries stand whole characters. -/
lemma sliced_safe {stop : ℕ} (hstart : Boundary text start) (hstop : Boundary text stop)
    (hle : start ≤ stop) : (Event.sliced start stop).Safe text := by
  refine ⟨hle, hstop.le, hstart, hstop, ?_⟩
  rcases hstart with ⟨before, after, htext, rfl⟩
  rcases hstop with ⟨before', after', htext', rfl⟩
  have hpiece : ∃ piece, before' = before ++ piece := by
    rcases List.append_eq_append_iff.mp (htext.symm.trans htext') with
      ⟨piece, hpiece, -⟩ | ⟨excess, rfl, -⟩
    · exact ⟨piece, hpiece⟩
    · have hnone := length_le_byteLength excess
      rw [byteLength_append] at hle
      rcases List.length_eq_zero_iff.mp (show excess.length = 0 by omega) with rfl
      exact ⟨[], by simp⟩
  rcases hpiece with ⟨piece, rfl⟩
  refine ⟨piece, ?_⟩
  rw [htext', List.append_assoc, utf8_append, utf8_append, byteLength_append, ← length_utf8,
    ← length_utf8, List.drop_left, Nat.add_sub_cancel_left, List.take_left]

lemma at_of_boundary (htext : reader.text = text) (hle : start ≤ reader.position)
    (h : Boundary text reader.position) : At text start reader := by
  rcases h with ⟨before, after, hsplit, hposition⟩
  refine ⟨hle, before, after, hsplit, ?_⟩
  rw [Reader.between, ← hsplit, ← hposition, ← htext]

/-- Bytes of characters beyond ASCII are no ASCII bytes. -/
lemma boundary_of_ascii {position : ℕ} {byte : UInt8} (hbyte : (utf8 text)[position]? = some byte)
    (hascii : byte.toNat < 128) : Boundary text position := by
  induction text generalizing position with
  | nil => cases hbyte
  | cons c text ih =>
    rw [utf8_cons] at hbyte
    rcases Nat.lt_or_ge position (String.utf8EncodeChar c).length with hinside | hbeyond
    · rw [List.getElem?_append_left hinside] at hbyte
      have hc : c.toNat < 128 := by
        by_contra hc
        have hle := le_of_mem_utf8EncodeChar (Nat.not_lt.mp hc) (List.mem_of_getElem? hbyte)
        omega
      rw [utf8EncodeChar_of_ascii hc, List.length_singleton] at hinside
      exact ⟨[], c :: text, rfl, Nat.lt_one_iff.mp hinside⟩
    · rw [List.getElem?_append_right hbeyond] at hbyte
      rcases ih hbyte with ⟨before, after, rfl, hposition⟩
      rw [String.length_utf8EncodeChar] at *
      exact ⟨c :: before, after, rfl, by rw [byteLength_cons]; omega⟩

/-- An ASCII byte is a character. -/
lemma At.step (h : At text start reader) {byte : UInt8} (hpeek : reader.peek = some byte)
    (hbyte : byte.toNat < 128) :
    At text start (reader.advance 1) ∧ reader.position + 1 ≤ byteLength text := by
  rcases h with ⟨hle, before, after, rfl, rfl⟩
  rcases after with _ | ⟨c, after⟩
  · rw [Reader.peek_between_nil] at hpeek
    cases hpeek
  · rw [Reader.peek_between_cons] at hpeek
    have hascii : c.toNat < 128 := by
      by_contra hbeyond
      have hlead := le_leadByte (Nat.not_lt.mp hbeyond)
      rw [Option.some.inj hpeek] at hlead
      omega
    have hsize := utf8Size_of_ascii hascii
    refine ⟨⟨Nat.le_succ_of_le hle, before ++ [c], after, by simp, ?_⟩, ?_⟩
    · exact Reader.advance_between_ascii before hascii after
    · simp [hsize]

end Positions

/-! ### Every function is safe -/

namespace Reading

open Traced

section Functions

variable {text : List Char} {start bound : ℕ} {reader : Reader}

lemma hexDigit_bounds {byte : UInt8} {digit : ℕ} (h : hexDigit byte = some digit) :
    byte.toNat < 128 ∧ digit < 16 := by
  unfold hexDigit at h
  simp only [UInt8.le_iff_toNat_le, toNat_asciiByte (show '0'.toNat < 128 by decide),
    toNat_asciiByte (show '9'.toNat < 128 by decide), toNat_asciiByte (show 'a'.toNat < 128 by decide),
    toNat_asciiByte (show 'f'.toNat < 128 by decide), toNat_asciiByte (show 'A'.toNat < 128 by decide),
    toNat_asciiByte (show 'F'.toNat < 128 by decide), Char.reduceToNat] at h
  split_ifs at h with hdecimal hlower hupper <;> cases h <;> omega

lemma toNat_asciiByte_lt {d : Char} (hd : d.toNat < 128) : (asciiByte d).toNat < 128 := by
  rw [toNat_asciiByte hd]
  exact hd

lemma escaped_ascii {byte : UInt8} {c : Char} (h : escaped byte = some c) : byte.toNat < 128 := by
  by_contra hge
  have hne : ∀ d : Char, d.toNat < 128 → byte ≠ asciiByte d :=
    fun d hd heq => hge (heq ▸ toNat_asciiByte_lt hd)
  rw [escaped, if_neg (hne '"' (by decide)), if_neg (hne '\\' (by decide)),
    if_neg (hne '/' (by decide)), if_neg (hne 'b' (by decide)), if_neg (hne 'f' (by decide)),
    if_neg (hne 'n' (by decide)), if_neg (hne 'r' (by decide)),
    if_neg (hne 't' (by decide))] at h
  cases h

lemma safe_move {count : ℕ} (hinside : reader.position + count ≤ byteLength text) :
    (advance reader count).Safe (Event.Safe text) bound fun moved =>
      moved = reader.advance count := by
  have hevent : (Event.moved (reader.position + count)).Safe text := hinside
  exact (safe_emit hevent).bind fun _ _ => safe_pure rfl

lemma safe_advance (h : At text start reader) {byte : UInt8} (hpeek : reader.peek = some byte)
    (hbyte : byte.toNat < 128) :
    (advance reader 1).Safe (Event.Safe text) bound (At text start) := by
  rcases h.step hpeek hbyte with ⟨hat, hinside⟩
  exact (safe_move hinside).mono fun moved hmoved => hmoved ▸ hat

lemma safe_consume (h : At text start reader) {d : Char} (hd : d.toNat < 128) :
    (consume reader (asciiByte d)).Safe (Event.Safe text) bound fun r => At text start r.2 := by
  unfold consume
  split_ifs with hpeek
  · exact (safe_advance h hpeek (toNat_asciiByte_lt hd)).bind fun reader hat => safe_pure hat
  · exact safe_pure h

lemma safe_skipWhile (h : At text start reader) {p : UInt8 → Bool}
    (hp : ∀ byte, p byte = true → byte.toNat < 128) :
    (skipWhile reader p).Safe (Event.Safe text) bound (At text start) := by
  rcases h with ⟨hle, before, after, rfl, rfl⟩
  constructor
  · intro entry hmem
    rcases List.mem_map.mp hmem with ⟨turn, hturn, rfl⟩
    have hcount := (List.takeWhile_prefix p
      (l := (utf8 (before ++ after)).drop (byteLength before))).length_le
    have hturn' := List.mem_range.mp hturn
    rw [List.length_drop, length_utf8, byteLength_append] at hcount
    refine ⟨Nat.zero_le _, ?_⟩
    simp only [Event.Safe, Reader.position_between, Reader.text_between, byteLength_append] at *
    omega
  · intro reader hreader
    rw [outcome_skipWhile, Reader.skipWhile_between before hp] at hreader
    rcases Except.ok.inj hreader with rfl
    refine ⟨?_, _, _, ?_, rfl⟩
    · rw [Reader.position_between] at *
      rw [byteLength_append]
      omega
    · rw [List.append_assoc, List.takeWhile_append_dropWhile]

lemma safe_whitespace (h : At text start reader) :
    (whitespace reader).Safe (Event.Safe text) bound (At text start) :=
  safe_skipWhile h fun _ => Reader.isSpace_ascii

lemma safe_since (h : At text start reader) (hstart : Boundary text start) :
    (since reader start).Safe (Event.Safe text) bound fun _ => True :=
  (safe_emit (sliced_safe hstart h.boundary h.1)).bind fun _ _ => safe_silent fun _ _ => trivial

lemma safe_fail {α : Type} {post : α → Prop} {message : String} :
    (fail reader message : Reading α).Safe (Event.Safe text) bound post :=
  safe_silent fun _ h => nomatch h

lemma safe_expect (h : At text start reader) {d : Char} (hd : d.toNat < 128) {message : String} :
    (expect reader (asciiByte d) message).Safe (Event.Safe text) bound (At text start) := by
  refine (safe_consume h hd).bind ?_
  rintro ⟨found, reader⟩ hat
  dsimp only
  split_ifs
  · exact safe_pure hat
  · exact safe_fail

lemma safe_checkedU32 {value : ℕ} (h : value < 2 ^ 32) :
    (checkedU32 value).Safe (Event.Safe text) bound fun result => result = value := by
  have hevent : (Event.computed value).Safe text := by
    constructor <;> omega
  refine (safe_emit hevent).bind fun _ _ => safe_silent fun result hresult => ?_
  rw [checkedU32_of_lt h] at hresult
  exact (Except.ok.inj hresult).symm

lemma safe_subU32 {left right : ℕ} (hle : right ≤ left) (h : left < 2 ^ 32) :
    (subU32 left right).Safe (Event.Safe text) bound fun result => result = left - right := by
  have hevent : (Event.computed (left - right)).Safe text := by
    constructor <;> omega
  refine (safe_emit hevent).bind fun _ _ => safe_silent fun result hresult => ?_
  rw [show Json.subU32 left right = .ok (left - right) from if_pos hle] at hresult
  exact (Except.ok.inj hresult).symm

/-- After each digit the value leaves room for those that follow. -/
lemma safe_hexQuadLoop (count : ℕ) : ∀ {reader : Reader} {value : ℕ}, At text start reader →
    (value + 1) * 16 ^ count ≤ 2 ^ 16 →
    (hexQuadLoop count reader value).Safe (Event.Safe text) bound fun r =>
      r.1 < 2 ^ 16 ∧ At text start r.2 := by
  induction count with
  | zero =>
    intro reader value h hroom
    rw [Nat.pow_zero, Nat.mul_one] at hroom
    exact safe_pure ⟨hroom, h⟩
  | succ count ih =>
    intro reader value h hroom
    unfold hexQuadLoop
    rcases hbyte : reader.peek with _ | byte
    · exact safe_fail
    · rw [Option.bind_some]
      rcases hdigit : hexDigit byte with _ | digit
      · exact safe_fail
      · rcases hexDigit_bounds hdigit with ⟨hascii, hdigit⟩
        have hpos : 1 ≤ 16 ^ count := Nat.one_le_pow _ _ (by decide)
        have hnext : (value * 16 + digit + 1) * 16 ^ count ≤ 2 ^ 16 := by
          calc (value * 16 + digit + 1) * 16 ^ count
              ≤ ((value + 1) * 16) * 16 ^ count := Nat.mul_le_mul_right _ (by omega)
            _ = (value + 1) * 16 ^ (count + 1) := by
              rw [Nat.pow_succ, Nat.mul_assoc, Nat.mul_comm 16]
            _ ≤ 2 ^ 16 := hroom
        have hvalue : value * 16 + digit + 1 ≤ 2 ^ 16 :=
          le_trans (Nat.le_mul_of_pos_right _ hpos) hnext
        refine (safe_checkedU32 (by omega)).bind fun shifted hshifted => ?_
        rw [hshifted]
        refine (safe_checkedU32 (by omega)).bind fun value' hvalue' => ?_
        rw [hvalue']
        exact (safe_advance h hbyte hascii).bind fun reader hat => ih hat hnext

lemma safe_hexQuad (h : At text start reader) :
    (hexQuad reader).Safe (Event.Safe text) bound fun r => r.1 < 2 ^ 16 ∧ At text start r.2 :=
  safe_hexQuadLoop 4 h (by decide)

lemma safe_combine {first second : ℕ} (hfirst : 0xd800 ≤ first ∧ first ≤ 0xdbff)
    (hsecond : 0xdc00 ≤ second ∧ second ≤ 0xdfff) :
    (combine first second).Safe (Event.Safe text) bound fun _ => True := by
  refine (safe_subU32 hfirst.1 (by omega)).bind fun high hhigh => ?_
  have hevent : (Event.computed (high * 2 ^ 10)).Safe text := by
    constructor <;> omega
  have hshift : high * 2 ^ 10 % 2 ^ 32 = high * 2 ^ 10 := Nat.mod_eq_of_lt (by omega)
  refine (safe_emit hevent).bind fun _ _ => ?_
  rw [hshift]
  refine (safe_checkedU32 (by omega)).bind fun code hcode => ?_
  refine (safe_checkedU32 (by omega)).bind fun sum hsum => ?_
  exact (safe_subU32 (by omega) (by omega)).mono fun _ _ => trivial

lemma safe_unicodeCode (h : At text start reader) :
    (unicodeCode reader).Safe (Event.Safe text) bound fun r => At text start r.2 := by
  refine (safe_hexQuad h).bind ?_
  rintro ⟨first, reader⟩ ⟨-, hat⟩
  dsimp only
  split_ifs with hhigh
  · refine (safe_expect hat (by decide)).bind fun reader hat => ?_
    refine (safe_expect hat (by decide)).bind fun reader hat => ?_
    refine (safe_hexQuad hat).bind ?_
    rintro ⟨second, reader⟩ ⟨-, hat⟩
    dsimp only
    split_ifs with hlow
    · exact (safe_combine hhigh hlow).bind fun code _ => safe_pure hat
    · exact safe_fail
  · exact safe_pure hat

lemma safe_escape (h : At text start reader) :
    (escape reader).Safe (Event.Safe text) bound fun r => At text start r.2 := by
  unfold escape
  rcases hbyte : reader.peek with _ | byte
  · exact safe_fail
  · dsimp only
    split_ifs with hu
    · rw [hu] at hbyte
      refine (safe_advance h hbyte (by decide)).bind fun reader hat => ?_
      refine (safe_unicodeCode hat).bind ?_
      rintro ⟨code, reader⟩ hat
      dsimp only
      rcases charFromU32 code with _ | character
      · exact safe_fail
      · exact safe_pure hat
    · rcases hescaped : escaped byte with _ | character
      · exact safe_fail
      · exact (safe_advance h hbyte (escaped_ascii hescaped)).bind fun reader hat => safe_pure hat

/-- The string loop may stand inside of a character, but a quote or a backslash is one. -/
lemma safe_stringLoop (fuel : ℕ) : ∀ {reader : Reader} {value : List Char} {piece : ℕ},
    reader.text = text → Boundary text piece → start ≤ piece → piece ≤ reader.position →
    (stringLoop fuel reader value piece).Safe (Event.Safe text) bound
      fun r => At text start r.2 := by
  induction fuel with
  | zero =>
    intro reader value piece _ _ _ _
    exact safe_silent fun _ h => nomatch h
  | succ fuel ih =>
    intro reader value piece htext hpiece hstart hle
    unfold stringLoop
    rcases hbyte : reader.peek with _ | byte
    · exact safe_fail
    · have hspecial : byte.toNat < 128 → At text piece reader := by
        intro hascii
        refine at_of_boundary htext hle (boundary_of_ascii ?_ hascii)
        rw [← htext]
        exact hbyte
      dsimp only
      split_ifs with hquote hbackslash hcontrol
      · have hascii : byte.toNat < 128 := by
          rw [hquote]
          decide
        refine (safe_since (hspecial hascii) hpiece).bind fun text' _ => ?_
        refine (safe_advance (hspecial hascii) hbyte hascii).bind fun reader hat => ?_
        exact safe_pure (hat.weaken (hstart.trans hat.1))
      · have hascii : byte.toNat < 128 := by
          rw [hbackslash]
          decide
        refine (safe_since (hspecial hascii) hpiece).bind fun text' _ => ?_
        refine (safe_advance (hspecial hascii) hbyte hascii).bind fun reader hat => ?_
        refine (safe_escape hat).bind ?_
        rintro ⟨character, reader⟩ hat
        refine ih ?_ hat.boundary (hstart.trans hat.1) le_rfl
        rcases hat with ⟨-, before, after, hsplit, rfl⟩
        exact hsplit.symm
      · exact safe_fail
      · have hinside : reader.position + 1 ≤ byteLength text := by
          unfold Reader.peek at hbyte
          rw [htext] at hbyte
          have hlt := (List.getElem?_eq_some_iff.mp hbyte).1
          rwa [length_utf8] at hlt
        refine (safe_move hinside).bind fun moved hmoved => ?_
        rw [hmoved]
        exact ih htext hpiece hstart (Nat.le_succ_of_le hle)

lemma safe_string (h : At text start reader) (hpeek : reader.peek = some (asciiByte '"')) :
    (string reader).Safe (Event.Safe text) bound fun r => At text start r.2 := by
  refine (safe_advance h hpeek (by decide)).bind fun reader hat => ?_
  refine safe_stringLoop _ ?_ hat.boundary hat.1 le_rfl
  rcases hat with ⟨-, before, after, hsplit, rfl⟩
  exact hsplit.symm

lemma safe_digits (h : At text start reader) (message : String) :
    (digits reader message).Safe (Event.Safe text) bound (At text start) := by
  refine (safe_skipWhile h fun _ => Reader.isDigit_ascii).bind fun reader hat => ?_
  split_ifs
  · exact safe_fail
  · exact safe_pure hat

lemma safe_integerPart (h : At text start reader) :
    (integerPart reader).Safe (Event.Safe text) bound (At text start) := by
  unfold integerPart
  split_ifs with hzero
  · exact safe_advance h hzero (by decide)
  · exact safe_skipWhile h fun _ => Reader.isDigit_ascii
  · exact safe_fail

lemma safe_fraction (h : At text start reader) :
    (fraction reader).Safe (Event.Safe text) bound fun r => At text start r.2 := by
  refine (safe_consume h (by decide)).bind ?_
  rintro ⟨found, reader⟩ hat
  dsimp only
  split_ifs
  · exact (safe_digits hat _).bind fun reader hat => safe_pure hat
  · exact safe_pure hat

lemma safe_exponentSign (h : At text start reader) :
    (exponentSign reader).Safe (Event.Safe text) bound (At text start) := by
  refine (safe_consume h (by decide)).bind ?_
  rintro ⟨found, reader⟩ hat
  dsimp only
  split_ifs
  · exact safe_pure hat
  · refine (safe_consume hat (by decide)).bind ?_
    rintro ⟨_, reader⟩ hat
    exact safe_pure hat

lemma safe_exponent (h : At text start reader) :
    (exponent reader).Safe (Event.Safe text) bound fun r => At text start r.2 := by
  unfold exponent
  split_ifs with hmark
  · have hadvance : (advance reader 1).Safe (Event.Safe text) bound (At text start) := by
      rcases hmark with hmark | hmark <;> exact safe_advance h hmark (by decide)
    refine hadvance.bind fun reader hat => ?_
    refine (safe_exponentSign hat).bind fun reader hat => ?_
    exact (safe_digits hat _).bind fun reader hat => safe_pure hat
  · exact safe_pure h

lemma safe_number (h : At text start reader) :
    (number floats reader).Safe (Event.Safe text) bound fun r => At text start r.2 := by
  have hhere : At text reader.position reader := h.weaken le_rfl
  refine (safe_consume hhere (by decide)).bind ?_
  rintro ⟨_, signed⟩ hat
  refine (safe_integerPart hat).bind fun integral hat => ?_
  refine (safe_fraction hat).bind ?_
  rintro ⟨hasFraction, fractional⟩ hat
  refine (safe_exponent hat).bind ?_
  rintro ⟨hasExponent, complete⟩ hat
  refine (safe_since hat h.boundary).bind fun token _ => ?_
  refine (safe_silent (Q := fun _ => True) fun _ _ => trivial).bind fun value _ => ?_
  exact safe_pure (hat.weaken (h.1.trans hat.1))

lemma safe_literal (h : At text start reader) {word : List Char} {length : ℕ} {value : Value F}
    (hlength : length = byteLength word) :
    (literal reader word length value).Safe (Event.Safe text) bound fun r => At text start r.2 := by
  have hboundary := h.boundary
  have hend : Boundary text (byteLength text) := ⟨text, [], by simp, rfl⟩
  rcases h with ⟨hle, before, after, rfl, rfl⟩
  refine Safe.bind (Q := fun rest => rest = after) ?_ fun rest hrest => ?_
  · refine (safe_emit (sliced_safe hboundary hend hboundary.le)).bind fun _ _ =>
      safe_silent fun rest hrest => ?_
    rw [Reader.remaining_between] at hrest
    exact (Except.ok.inj hrest).symm
  · rw [hrest]
    split_ifs with hword
    · rcases List.isPrefixOf_iff_prefix.mp hword with ⟨rest, rfl⟩
      refine (safe_move ?_).bind fun moved hmoved => safe_pure ?_
      · simp only [Reader.position_between, byteLength_append, hlength]
        omega
      · rw [hmoved, hlength, Reader.advance_between]
        refine ⟨?_, before ++ word, rest, by simp, rfl⟩
        rw [Reader.position_between] at *
        rw [byteLength_append]
        exact Nat.le_add_right_of_le hle
    · exact safe_fail

end Functions

/-- The five functions of the value reader at one amount of fuel: containers inside of a value nest
as far as the limit is above its depth. -/
structure SafeSpec (floats : Floats F) (limit fuel : ℕ) (text : List Char) : Prop where
  value : ∀ reader depth, At text 0 reader →
    (value floats limit fuel reader depth).Safe (Event.Safe text) (limit - depth)
      fun r => At text 0 r.2
  object : ∀ reader depth, At text 0 reader → reader.peek = some (asciiByte '{') →
    (object floats limit fuel reader depth).Safe (Event.Safe text) (limit - depth)
      fun r => At text 0 r.2
  members : ∀ reader depth values, At text 0 reader →
    (members floats limit fuel reader depth values).Safe (Event.Safe text) (limit - depth)
      fun r => At text 0 r.2
  array : ∀ reader depth, At text 0 reader → reader.peek = some (asciiByte '[') →
    (array floats limit fuel reader depth).Safe (Event.Safe text) (limit - depth)
      fun r => At text 0 r.2
  elements : ∀ reader depth values, At text 0 reader →
    (elements floats limit fuel reader depth values).Safe (Event.Safe text) (limit - depth)
      fun r => At text 0 r.2

section Values

variable {text : List Char} {limit fuel depth : ℕ} {reader : Reader}

lemma safe_timeout {α : Type} {bound : ℕ} {post : α → Prop} :
    (silent (.error .timeout) : Reading α).Safe (Event.Safe text) bound post :=
  safe_silent fun _ h => nomatch h

/-- A container of this depth inside of a value of the depth before. -/
lemma safe_container {x : Reading (Value F × Reader)} {post : Value F × Reader → Prop}
    (h : x.Safe (Event.Safe text) (limit - (depth + 1)) post) (hdepth : depth < limit) :
    (nested .container x).Safe (Event.Safe text) (limit - depth) post := by
  have hlevel : limit - (depth + 1) + 1 = limit - depth :=
    Nat.succ_pred_eq_of_pos (Nat.sub_pos_of_lt hdepth)
  exact hlevel ▸ h.nested trivial

lemma safe_value (h : SafeSpec floats limit fuel text) (hat : At text 0 reader) :
    (value floats limit (fuel + 1) reader depth).Safe (Event.Safe text) (limit - depth)
      fun r => At text 0 r.2 := by
  rw [value]
  refine (safe_whitespace hat).bind fun reader hat => ?_
  refine safe_ite (fun _ => safe_fail) fun hlimit => ?_
  refine safe_ite (fun hobject => ?_) fun _ => safe_ite (fun harray => ?_) fun _ => ?_
  · have hlt : depth < limit := Nat.lt_of_not_le fun hle => hlimit ⟨.inl hobject, hle⟩
    exact safe_container (h.object reader _ hat hobject) hlt
  · have hlt : depth < limit := Nat.lt_of_not_le fun hle => hlimit ⟨.inr harray, hle⟩
    exact safe_container (h.array reader _ hat harray) hlt
  refine safe_ite (fun hstring => ?_) fun _ => ?_
  · refine (safe_string hat hstring).bind ?_
    rintro ⟨text, reader⟩ hat
    exact safe_pure hat
  refine safe_ite (fun _ => safe_number hat) fun _ => ?_
  refine safe_ite (fun _ => safe_literal hat (by decide)) fun _ => ?_
  refine safe_ite (fun _ => safe_literal hat (by decide)) fun _ => ?_
  exact safe_ite (fun _ => safe_literal hat (by decide)) fun _ => safe_fail

/-- Where a container may close: after blanks its closing character, or none. -/
lemma safe_closing {d : Char} {body : Bool × Reader → Reading (Value F × Reader)} {bound : ℕ}
    (hat : At text 0 reader) (hd : d.toNat < 128)
    (hclosed : ∀ reader, At text 0 reader →
      (body (true, reader)).Safe (Event.Safe text) bound fun r => At text 0 r.2)
    (hopen : ∀ reader, At text 0 reader →
      (body (false, reader)).Safe (Event.Safe text) bound fun r => At text 0 r.2) :
    (whitespace reader >>= fun reader => consume reader (asciiByte d) >>= body).Safe
      (Event.Safe text) bound fun r => At text 0 r.2 := by
  refine (safe_whitespace hat).bind fun reader hat => ?_
  refine (safe_consume hat hd).bind ?_
  rintro ⟨_ | _, reader⟩ hat
  · exact hopen reader hat
  · exact hclosed reader hat

lemma safe_object (h : SafeSpec floats limit fuel text) (hat : At text 0 reader)
    (hpeek : reader.peek = some (asciiByte '{')) :
    (object floats limit (fuel + 1) reader depth).Safe (Event.Safe text) (limit - depth)
      fun r => At text 0 r.2 := by
  rw [object]
  refine (safe_advance hat hpeek (by decide)).bind fun reader hat => ?_
  exact safe_closing hat (by decide) (fun reader hat => safe_pure hat) fun reader hat =>
    h.members reader depth _ hat

lemma safe_members (h : SafeSpec floats limit fuel text) {values : List (List Char × Value F)}
    (hat : At text 0 reader) :
    (members floats limit (fuel + 1) reader depth values).Safe (Event.Safe text) (limit - depth)
      fun r => At text 0 r.2 := by
  rw [members]
  split_ifs with hkey
  · exact safe_fail
  · refine (safe_string hat (not_not.mp hkey)).bind ?_
    rintro ⟨key, reader⟩ hat
    refine (safe_whitespace hat).bind fun reader hat => ?_
    refine (safe_expect hat (by decide)).bind fun reader hat => ?_
    refine (h.value reader depth hat).bind ?_
    rintro ⟨value, reader⟩ hat
    refine safe_closing hat (by decide) (fun reader hat => safe_pure hat) fun reader hat => ?_
    refine (safe_expect hat (by decide)).bind fun reader hat => ?_
    refine (safe_whitespace hat).bind fun reader hat => ?_
    exact h.members reader depth _ hat

lemma safe_array (h : SafeSpec floats limit fuel text) (hat : At text 0 reader)
    (hpeek : reader.peek = some (asciiByte '[')) :
    (array floats limit (fuel + 1) reader depth).Safe (Event.Safe text) (limit - depth)
      fun r => At text 0 r.2 := by
  rw [array]
  refine (safe_advance hat hpeek (by decide)).bind fun reader hat => ?_
  exact safe_closing hat (by decide) (fun reader hat => safe_pure hat) fun reader hat =>
    h.elements reader depth _ hat

lemma safe_elements (h : SafeSpec floats limit fuel text) {values : List (Value F)}
    (hat : At text 0 reader) :
    (elements floats limit (fuel + 1) reader depth values).Safe (Event.Safe text) (limit - depth)
      fun r => At text 0 r.2 := by
  rw [elements]
  refine (h.value reader depth hat).bind ?_
  rintro ⟨value, reader⟩ hat
  refine safe_closing hat (by decide) (fun reader hat => safe_pure hat) fun reader hat => ?_
  refine (safe_expect hat (by decide)).bind fun reader hat => ?_
  exact h.elements reader depth _ hat

lemma safeSpec (floats : Floats F) (limit fuel : ℕ) (text : List Char) :
    SafeSpec floats limit fuel text := by
  induction fuel with
  | zero =>
    constructor
    case value => exact fun _ _ _ => by rw [value]; exact safe_timeout
    case object => exact fun _ _ _ _ => by rw [object]; exact safe_timeout
    case members => exact fun _ _ _ _ => by rw [members]; exact safe_timeout
    case array => exact fun _ _ _ _ => by rw [array]; exact safe_timeout
    case elements => exact fun _ _ _ _ => by rw [elements]; exact safe_timeout
  | succ fuel ih =>
    exact ⟨fun _ _ hat => safe_value ih hat,
      fun _ _ hat hpeek => safe_object ih hat hpeek,
      fun _ _ _ hat => safe_members ih hat,
      fun _ _ hat hpeek => safe_array ih hat hpeek,
      fun _ _ _ hat => safe_elements ih hat⟩

lemma safe_parseWithin (floats : Floats F) (limit : ℕ) (text : List Char) :
    (parseWithin floats limit text).Safe (Event.Safe text) limit fun _ => True := by
  have hat : At text 0 ⟨text, 0⟩ := ⟨Nat.le_refl 0, [], text, rfl, rfl⟩
  refine ((safeSpec floats limit _ text).value _ 0 hat).bind ?_
  rintro ⟨value, reader⟩ hat
  refine (safe_whitespace hat).bind fun reader hat => ?_
  split_ifs
  · exact safe_fail
  · exact safe_pure trivial

end Values

end Reading

/-- Every run of `parse` ends with a value or with an error, and nothing on its way goes wrong:
with its trace it is the parser, every event is safe and stands in 128 containers at most. -/
theorem parse_never_panics (floats : Floats F) (text : List Char) :
    (∃ answer : Except JsonError (Value F), parse floats text = answer.mapError .err) ∧
      (Reading.parse floats text).outcome = parse floats text ∧
      ∀ entry ∈ (Reading.parse floats text).events, entry.1 ≤ 128 ∧ entry.2.Safe text := by
  refine ⟨?_, Reading.outcome_parseWithin floats nestingLimit text,
    (Reading.safe_parseWithin floats nestingLimit text).within⟩
  rcases hparse : parse floats text with failure | value
  · rcases parse_error hparse with ⟨error, rfl⟩
    exact ⟨.error error, rfl⟩
  · exact ⟨.ok value, rfl⟩

end DoomFishUtils.Json
