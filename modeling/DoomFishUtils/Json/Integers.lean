import DoomFishUtils.Json.RoundTrip

/-!
# Reading integers back

The source's `integer_from_json!`, which converts a parsed value to one of twelve integer types.
The parser keeps an integer literal as an integer only where it fits in an `i64`, and stores any
other one as a float, which no integer type accepts.
-/

namespace DoomFishUtils.Json

set_option autoImplicit false

open DoomFishUtils.Library

/-- The types that the macro is applied to. -/
inductive IntType where
  | i8
  | i16
  | i32
  | i64
  | i128
  | isize
  | u8
  | u16
  | u32
  | u64
  | u128
  | usize
  deriving DecidableEq

namespace IntType

/-- `stringify!($type)`. -/
def name : IntType → String
  | .i8 => "i8"
  | .i16 => "i16"
  | .i32 => "i32"
  | .i64 => "i64"
  | .i128 => "i128"
  | .isize => "isize"
  | .u8 => "u8"
  | .u16 => "u16"
  | .u32 => "u32"
  | .u64 => "u64"
  | .u128 => "u128"
  | .usize => "usize"

/-- The width, where pointers have 64 bits. -/
def bits : IntType → ℕ
  | .i8 | .u8 => 8
  | .i16 | .u16 => 16
  | .i32 | .u32 => 32
  | .i64 | .u64 | .isize | .usize => 64
  | .i128 | .u128 => 128

def signed : IntType → Bool
  | .i8 | .i16 | .i32 | .i64 | .i128 | .isize => true
  | .u8 | .u16 | .u32 | .u64 | .u128 | .usize => false

/-- The integer is in the range of the type. -/
def Holds (type : IntType) (n : ℤ) : Prop :=
  if type.signed then -2 ^ (type.bits - 1) ≤ n ∧ n < 2 ^ (type.bits - 1)
  else 0 ≤ n ∧ n < 2 ^ type.bits

instance (type : IntType) (n : ℤ) : Decidable (type.Holds n) :=
  inferInstanceAs (Decidable (if type.signed then _ else _))

end IntType

/-- A value of an integer type. -/
structure Integer (type : IntType) where
  val : ℤ
  holds : type.Holds val

variable {F : Type}

/-- `TryFrom<i64>`. -/
def Integer.tryFrom (type : IntType) (value : I64) : Option (Integer type) :=
  if h : type.Holds value.val then some ⟨value.val, h⟩ else none

/-- `from_json` of an integer type. -/
def integerFromJson (type : IntType) : Value F → Except JsonError (Integer type)
  | .integer value =>
    match Integer.tryFrom type value with
    | some value => .ok value
    | none => .error ⟨"integer out of range for " ++ type.name⟩
  | _ => .error ⟨"expected an integer for " ++ type.name⟩

/-- `T::from_json(&parse(text)?)`. -/
def integerFromText (floats : Floats F) (type : IntType) (text : List Char) :
    Except Failure (Integer type) := do
  let value ← parse floats text
  (integerFromJson type value).mapError .err

/-! ### What a literal is parsed to -/

section Literals

variable {floats : Floats F} {n : ℤ}

/-- No character of a number without fraction and exponent is blank. -/
lemma NumberToken.not_blank {token : List Char} (h : NumberToken false token) :
    ∀ c ∈ token, isBlank c = false := by
  have hdigit : ∀ c : Char, c.isDigit = true → isBlank c = false := by
    intro c hc
    refine decide_eq_false ?_
    rintro (rfl | rfl | rfl | rfl) <;> exact absurd hc (by decide)
  rcases h.false_iff with ⟨sign, int, rfl, hsign, hint⟩
  refine List.forall_mem_append.mpr ⟨?_, fun c hc => hdigit c (hint.digits_of.2 c hc)⟩
  rcases hsign with rfl | rfl
  · exact List.forall_mem_nil _
  · exact List.forall_mem_singleton.mpr rfl

lemma Blank.eq_nil {blank : List Char} (h : Blank blank) (hnot : ∀ c ∈ blank, isBlank c = false) :
    blank = [] := by
  refine List.eq_nil_iff_forall_not_mem.mpr fun c hc => ?_
  cases (hnot c hc).symm.trans (h c hc)

/-- A document that is a number denotes what the number does. -/
lemma Document.numberValue {depth : ℕ} {token : List Char} {m : I64}
    (h : Document floats depth token (.integer m)) (htoken : NumberToken false token) :
    m.val = tokenInt token := by
  rcases h with ⟨front, inner, back, rfl, hfront, hinner, hback⟩
  have hnot := htoken.not_blank
  rcases hfront.eq_nil fun c hc => hnot c (by simp [hc]) with rfl
  rcases hback.eq_nil fun c hc => hnot c (by simp [hc]) with rfl
  rw [List.nil_append, List.append_nil]
  cases hinner with
  | number _ hvalue =>
    cases hvalue with
    | integer _ _ hval => exact hval

/-- A literal in the range of `i64` is parsed to its integer. -/
lemma parse_decimalLiteral (floats : Floats F) (h : IntType.i64.Holds n) :
    ∃ value : I64, value.val = n ∧ parse floats (decimalLiteral n) = .ok (.integer value) := by
  rcases decimalLiteral_token n with ⟨htoken, hzero, hint⟩
  refine ⟨⟨n, h.1, h.2⟩, rfl, parseWithin_of_document ?_⟩
  refine ⟨[], decimalLiteral n, [], ?_, .nil, ?_, .nil⟩
  · rw [List.nil_append, List.append_nil]
  · exact .number htoken (.integer rfl hzero hint.symm)

/-- Any other literal is parsed to no integer. -/
lemma parse_decimalLiteral_ne (h : ¬IntType.i64.Holds n) (m : I64) :
    parse floats (decimalLiteral n) ≠ .ok (.integer m) := by
  intro hparse
  rcases decimalLiteral_token n with ⟨htoken, -, hint⟩
  have hdocument := (parseWithin_yields floats nestingLimit _).of_eq_ok hparse
  have hval := hdocument.numberValue htoken
  rw [hint] at hval
  exact h (hval ▸ ⟨m.lower, m.upper⟩)

end Literals

/-! ### The conversions -/

section Conversions

variable {floats : Floats F} {type : IntType} {n : ℤ}

/-- The range of every type but four is within the range of `i64`. -/
lemma IntType.Holds.i64 (h : type.Holds n) (hnarrow : type ∉ [.i128, .u64, .u128, .usize]) :
    IntType.i64.Holds n := by
  have hi64 : IntType.i64.Holds n ↔ -2 ^ 63 ≤ n ∧ n < 2 ^ 63 := Iff.rfl
  rw [hi64]
  cases type <;> simp [Holds, signed, bits] at h hnarrow <;> omega

lemma integerFromJson_integer (value : I64) :
    integerFromJson type (.integer value : Value F) =
      if h : type.Holds value.val then .ok ⟨value.val, h⟩
      else .error ⟨"integer out of range for " ++ type.name⟩ := by
  unfold integerFromJson Integer.tryFrom
  dsimp only
  split_ifs <;> rfl

lemma integerFromText_of_holds (hi64 : IntType.i64.Holds n) :
    integerFromText floats type (decimalLiteral n) =
      if h : type.Holds n then .ok ⟨n, h⟩
      else .error (.err ⟨"integer out of range for " ++ type.name⟩) := by
  rcases parse_decimalLiteral floats hi64 with ⟨value, rfl, hparse⟩
  unfold integerFromText
  rw [hparse, ok_bind, integerFromJson_integer]
  split_ifs <;> rfl

/-- A literal beyond `i64` is an error, of the parser or of the conversion. -/
lemma integerFromText_error (floats : Floats F) (type : IntType) (h : ¬IntType.i64.Holds n) :
    ∃ error, integerFromText floats type (decimalLiteral n) = .error (.err error) := by
  unfold integerFromText
  rcases hparse : parse floats (decimalLiteral n) with failure | value
  · rcases parse_error hparse with ⟨error, rfl⟩
    exact ⟨error, rfl⟩
  · cases value with
    | integer m => exact absurd hparse (parse_decimalLiteral_ne h m)
    | _ => exact ⟨_, rfl⟩

end Conversions

/-- The literal of an integer in the ranges of the type and of `i64` reads back as that integer, and
any other literal is an error. -/
theorem integers_read_back (floats : Floats F) (type : IntType) (n : ℤ) :
    if h : type.Holds n ∧ IntType.i64.Holds n then
      integerFromText floats type (decimalLiteral n) = .ok ⟨n, h.1⟩
    else ∃ error, integerFromText floats type (decimalLiteral n) = .error (.err error) := by
  split_ifs with h
  · rw [integerFromText_of_holds h.2, dif_pos h.1]
  · by_cases hi64 : IntType.i64.Holds n
    · exact ⟨_, (integerFromText_of_holds hi64).trans (dif_neg fun htype => h ⟨htype, hi64⟩)⟩
    · exact integerFromText_error floats type hi64

/-- Floats that are whole numbers and read an integer token exactly. -/
def wholeFloats : Floats ℤ where
  parse token := some (tokenInt token)
  isFinite _ := true
  debug value := decimalLiteral value ++ ['.', '0']

/-- `u64` holds 2^63 and does not read it back. -/
theorem u64_rejects_two_pow_63 :
    ¬∀ (type : IntType) (n : ℤ) (h : type.Holds n),
      integerFromText wholeFloats type (decimalLiteral n) = .ok ⟨n, h⟩ := by
  intro h
  have hread := h .u64 (2 ^ 63) (by decide)
  have hbeyond : ¬IntType.i64.Holds (2 ^ 63) := by decide
  rcases integerFromText_error wholeFloats .u64 hbeyond with ⟨error, herror⟩
  rw [hread] at herror
  cases herror

end DoomFishUtils.Json
