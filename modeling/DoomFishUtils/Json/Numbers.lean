import DoomFishUtils.Json.Boundary

/-!
# Reading numbers

The number reader accepts exactly the number tokens of the grammar that the text ahead does
not continue, and gives each the value of the grammar.
-/

namespace DoomFishUtils.Json

set_option autoImplicit false

open DoomFishUtils.Library

variable {F : Type} {before after : List Char}

section Decimal

/-- The text ahead does not continue a number. -/
def EndsNumber (rest : List Char) : Prop :=
  ∀ c, rest.head? = some c → c.isDigit = false ∧ c ≠ '.' ∧ c ≠ 'e' ∧ c ≠ 'E'

lemma isDigit_iff {c : Char} : c.isDigit = true ↔ 48 ≤ c.toNat ∧ c.toNat ≤ 57 := by
  simp only [Char.isDigit, Bool.and_eq_true, decide_eq_true_eq]
  exact Iff.rfl

namespace Reader

lemma skipDigits_of_end {part rest : List Char} (hpart : ∀ c ∈ part, c.isDigit = true)
    (hrest : ∀ c, rest.head? = some c → c.isDigit = false) :
    (between before (part ++ rest)).skipWhile isDigit = between (before ++ part) rest := by
  rw [skipDigits_between, (takeWhile_of_end hpart hrest).1, (takeWhile_of_end hpart hrest).2]

lemma mem_takeWhile_isDigit : ∀ c ∈ after.takeWhile Char.isDigit, c.isDigit = true :=
  List.all_eq_true.mp List.all_takeWhile

lemma digits_reads (message : String) :
    Reaches before after ((between before after).digits message) Digits := by
  unfold digits
  rw [skipDigits_between]
  dsimp only
  split_ifs with hsame
  · exact Reaches.fail
  · apply Reaches.ok _ List.takeWhile_append_dropWhile.symm rfl
    refine ⟨fun hnil => hsame ?_, mem_takeWhile_isDigit⟩
    rw [hnil, List.append_nil]
    rfl

lemma digits_between {part rest : List Char} (h : Digits part)
    (hrest : ∀ c, rest.head? = some c → c.isDigit = false) (message : String) :
    (between before (part ++ rest)).digits message = .ok (between (before ++ part) rest) := by
  unfold digits
  rw [skipDigits_of_end h.2 hrest]
  refine if_neg fun hsame => h.1 ?_
  simp only [position_between, byteLength_append] at hsame
  have := length_le_byteLength part
  exact List.length_eq_zero_iff.mp (by omega)

lemma integerPart_reads : Reaches before after (between before after).integerPart IntPart := by
  unfold integerPart
  split_ifs with hzero hdigit
  · rcases List.head?_eq_some_iff.mp ((peek_between_eq before (by decide)).mp hzero) with
      ⟨rest, rfl⟩
    rw [advance_between_ascii before (by decide)]
    exact Reaches.ok ['0'] rfl rfl .zero
  · cases after with
    | nil => simp at hdigit
    | cons c rest =>
      have hne : c ≠ '0' := fun h => hzero ((peek_between_eq before (by decide)).mpr (by simp [h]))
      have hc : c.isDigit = true := by
        rw [peek_between_cons, Option.any_some, isDigit_leadByte, Bool.and_eq_true] at hdigit
        exact hdigit.1
      rw [skipDigits_between]
      apply Reaches.ok _ List.takeWhile_append_dropWhile.symm rfl
      rw [List.takeWhile_cons_of_pos hc]
      exact .digits hc hne mem_takeWhile_isDigit
  · exact Reaches.fail

lemma integerPart_between {int rest : List Char} (h : IntPart int)
    (hrest : ∀ c, rest.head? = some c → c.isDigit = false) :
    (between before (int ++ rest)).integerPart = .ok (between (before ++ int) rest) := by
  unfold integerPart
  cases h with
  | zero =>
    rw [if_pos ((peek_between_eq before (by decide)).mpr rfl)]
    exact congrArg Except.ok (advance_between_ascii before (by decide) rest)
  | @digits first digits hfirst hne hdigits =>
    have hmem : ∀ c ∈ first :: digits, c.isDigit = true :=
      List.forall_mem_cons.mpr ⟨hfirst, hdigits⟩
    have hzero : ¬ (between before (first :: digits ++ rest)).peek = some (asciiByte '0') := by
      rw [peek_between_eq before (by decide)]
      simpa using hne
    have hdigit : (between before (first :: digits ++ rest)).peek.any
        (fun byte => isDigit byte && byte != asciiByte '0') = true := by
      have hne' : leadByte first ≠ asciiByte '0' := fun h =>
        hne ((leadByte_eq_asciiByte (by decide)).mp h)
      simp [isDigit_leadByte, hfirst, hne']
    rw [if_neg hzero, if_pos hdigit, skipDigits_of_end hmem hrest]

lemma fraction_reads :
    Reads before after (between before after).fraction
      fun token hasFraction => FractionPart hasFraction token := by
  unfold fraction
  by_cases hhead : after.head? = some '.'
  · rcases List.head?_eq_some_iff.mp hhead with ⟨rest, rfl⟩
    rw [consume_between_cons before (by decide)]
    apply Reads.after_token ['.']
    apply Reaches.bind (digits_reads _)
    intro digits rest _ hdigits
    apply Reads.ok [] rfl (by simp)
    simpa using FractionPart.some hdigits
  · rw [consume_between_of_ne before (by decide) hhead]
    exact Reads.ok [] rfl (by simp) .none

lemma fraction_between {frac rest : List Char} {hasFraction : Bool}
    (h : FractionPart hasFraction frac)
    (hrest : ∀ c, rest.head? = some c → c.isDigit = false ∧ c ≠ '.') :
    (between before (frac ++ rest)).fraction =
      .ok (hasFraction, between (before ++ frac) rest) := by
  unfold fraction
  cases h with
  | none =>
    have hhead : rest.head? ≠ some '.' := fun h => (hrest _ h).2 rfl
    rw [List.nil_append, consume_between_of_ne before (by decide) hhead, List.append_nil]
    rfl
  | @some digits hdigits =>
    rw [List.cons_append, consume_between_cons before (by decide)]
    refine (if_pos rfl).trans ?_
    rw [digits_between hdigits fun c hc => (hrest c hc).1, ok_bind]
    simp only [List.append_assoc, List.cons_append, List.nil_append]
    rfl

/-- The optional sign of an exponent. -/
lemma exponentSign_between {sign digits rest : List Char}
    (hsign : sign = [] ∨ sign = ['+'] ∨ sign = ['-']) (hdigits : Digits digits) :
    (between before (sign ++ (digits ++ rest))).exponentSign =
      between (before ++ sign) (digits ++ rest) := by
  unfold exponentSign
  rcases hsign with rfl | rfl | rfl
  · cases digits with
    | nil => exact absurd rfl hdigits.1
    | cons c digits =>
      have hc := isDigit_iff.mp (hdigits.2 c (by simp))
      have hplus : (c :: digits ++ rest).head? ≠ some '+' := by
        rintro ⟨rfl⟩
        exact absurd hc (by decide)
      have hminus : (c :: digits ++ rest).head? ≠ some '-' := by
        rintro ⟨rfl⟩
        exact absurd hc (by decide)
      rw [List.nil_append, consume_between_of_ne before (by decide) hplus]
      refine (if_neg (by decide)).trans ?_
      rw [consume_between_of_ne before (by decide) hminus, List.append_nil]
  · rw [List.singleton_append, consume_between_cons before (by decide)]
    rfl
  · rw [List.singleton_append, consume_between_of_ne before (by decide) (by simp)]
    refine (if_neg (by decide)).trans ?_
    rw [consume_between_cons before (by decide)]

/-- Whatever sign the reader finds is one of the grammar's. -/
lemma exponentSign_reads :
    ∃ sign rest, after = sign ++ rest ∧ (sign = [] ∨ sign = ['+'] ∨ sign = ['-']) ∧
      (between before after).exponentSign = between (before ++ sign) rest := by
  unfold exponentSign
  by_cases hplus : after.head? = some '+'
  · rcases List.head?_eq_some_iff.mp hplus with ⟨rest, rfl⟩
    rw [consume_between_cons before (by decide)]
    exact ⟨['+'], rest, rfl, .inr (.inl rfl), rfl⟩
  · rw [consume_between_of_ne before (by decide) hplus]
    by_cases hminus : after.head? = some '-'
    · rcases List.head?_eq_some_iff.mp hminus with ⟨rest, rfl⟩
      exact ⟨['-'], rest, rfl, .inr (.inr rfl),
        congrArg Prod.snd (consume_between_cons before (by decide) rest)⟩
    · refine ⟨[], after, rfl, .inl rfl, ?_⟩
      rw [List.append_nil]
      exact congrArg Prod.snd (consume_between_of_ne before (by decide) hminus)

lemma exponent_reads :
    Reads before after (between before after).exponent
      fun token hasExponent => ExponentPart hasExponent token := by
  unfold exponent
  split_ifs with hmark
  · have hhead : ∃ mark rest, after = mark :: rest ∧ (mark = 'e' ∨ mark = 'E') := by
      rcases hmark with h | h
      · rcases List.head?_eq_some_iff.mp ((peek_between_eq before (by decide)).mp h) with
          ⟨rest, hrest⟩
        exact ⟨'e', rest, hrest, .inl rfl⟩
      · rcases List.head?_eq_some_iff.mp ((peek_between_eq before (by decide)).mp h) with
          ⟨rest, hrest⟩
        exact ⟨'E', rest, hrest, .inr rfl⟩
    rcases hhead with ⟨mark, rest, rfl, hletter⟩
    have hascii : mark.toNat < 128 := by rcases hletter with rfl | rfl <;> decide
    rw [advance_between_ascii before hascii]
    rcases @exponentSign_reads (before ++ [mark]) rest with ⟨sign, rest, rfl, hsign, heq⟩
    rw [heq, ← List.singleton_append, ← List.append_assoc, List.append_assoc before]
    apply Reads.after_token ([mark] ++ sign)
    apply Reaches.bind (digits_reads _)
    intro digits rest _ hdigits
    apply Reads.ok [] rfl (by simp)
    simpa using ExponentPart.some hletter hsign hdigits
  · exact Reads.ok [] rfl (by simp) .none

lemma exponent_between {exp rest : List Char} {hasExponent : Bool}
    (h : ExponentPart hasExponent exp) (hrest : EndsNumber rest) :
    (between before (exp ++ rest)).exponent =
      .ok (hasExponent, between (before ++ exp) rest) := by
  unfold exponent
  cases h with
  | none =>
    have hmark : ¬((between before ([] ++ rest)).peek = some (asciiByte 'e') ∨
        (between before ([] ++ rest)).peek = some (asciiByte 'E')) := by
      rw [peek_between_eq before (by decide), peek_between_eq before (by decide)]
      rintro (h | h)
      · exact (hrest _ h).2.2.1 rfl
      · exact (hrest _ h).2.2.2 rfl
    rw [if_neg hmark, List.append_nil]
    rfl
  | @some mark sign digits hmark hsign hdigits =>
    have hascii : mark.toNat < 128 := by rcases hmark with rfl | rfl <;> decide
    have hpeek : (between before (mark :: (sign ++ digits) ++ rest)).peek =
          some (asciiByte 'e') ∨
        (between before (mark :: (sign ++ digits) ++ rest)).peek = some (asciiByte 'E') := by
      rw [peek_between_eq before (by decide), peek_between_eq before (by decide)]
      exact hmark.imp (fun h => by simp [h]) (fun h => by simp [h])
    rw [if_pos hpeek, List.cons_append, advance_between_ascii before hascii, List.append_assoc,
      exponentSign_between hsign hdigits, digits_between hdigits fun c hc => (hrest c hc).1,
      ok_bind]
    simp only [List.append_assoc, List.cons_append, List.nil_append]
    rfl

end Reader

end Decimal

section Value

lemma I64.ofInt?_eq_some {z : ℤ} {n : I64} : I64.ofInt? z = some n ↔ n.val = z := by
  unfold I64.ofInt?
  constructor
  · intro h
    split_ifs at h
    rw [← Option.some.inj h]
  · rintro rfl
    rw [dif_pos ⟨n.lower, n.upper⟩]

lemma NumberToken.false_iff {token : List Char} (h : NumberToken false token) :
    ∃ sign int, token = sign ++ int ∧ (sign = [] ∨ sign = ['-']) ∧ IntPart int := by
  generalize hfloat : false = float at h
  rcases h with @⟨sign, int, frac, exp, hasFraction, hasExponent, hsign, hint, hfrac, hexp⟩
  cases hfrac with
  | some => simp at hfloat
  | none =>
    cases hexp with
    | some => simp at hfloat
    | none => exact ⟨sign, int, by simp, hsign, hint⟩

lemma IntPart.digits_of {int : List Char} (h : IntPart int) : Digits int := by
  cases h with
  | zero => exact ⟨by simp, List.forall_mem_singleton.mpr rfl⟩
  | digits hfirst hne hrest => exact ⟨by simp, List.forall_mem_cons.mpr ⟨hfirst, hrest⟩⟩

lemma I64.parse_of_digits {digits : List Char} (h : Digits digits) :
    I64.parse digits = I64.ofInt? (decimal digits) ∧
      I64.parse ('-' :: digits) = I64.ofInt? (-(decimal digits : ℤ)) ∧
      tokenInt digits = decimal digits := by
  have hall : digits ≠ [] ∧ digits.all Char.isDigit = true := ⟨h.1, List.all_eq_true.mpr h.2⟩
  cases digits with
  | nil => exact absurd rfl h.1
  | cons c digits =>
    have hc := isDigit_iff.mp (h.2 c (by simp))
    have hminus : c ≠ '-' := by
      rintro rfl
      exact absurd hc (by decide)
    have hplus : c ≠ '+' := by
      rintro rfl
      exact absurd hc (by decide)
    refine ⟨?_, ?_, ?_⟩
    · unfold I64.parse
      split
      rename_i negative rest heq
      split at heq
      · rename_i hcons
        exact absurd (List.cons.inj hcons).1 hminus
      · rename_i hcons
        exact absurd (List.cons.inj hcons).1 hplus
      · cases heq
        exact if_pos hall
    · exact if_pos hall
    · unfold tokenInt
      split
      · rename_i hcons
        exact absurd (List.cons.inj hcons).1 hminus
      · rfl

/-- The standard library reads an integer token as its mathematical value, when that fits. -/
lemma I64.parse_eq {token : List Char} (h : NumberToken false token) :
    I64.parse token = I64.ofInt? (tokenInt token) := by
  rcases h.false_iff with ⟨sign, int, rfl, rfl | rfl, hint⟩
  · rcases I64.parse_of_digits hint.digits_of with ⟨hparse, -, hint⟩
    rw [List.nil_append, hparse, hint]
  · exact (I64.parse_of_digits hint.digits_of).2.1

namespace Reader

variable {floats : Floats F}

/-- A token that is not read as an integer is read as a float. -/
lemma floatToken_yields {float : Bool} {token : List Char} (reader : Reader)
    (hint : float = true ∨ token = ['-', '0'] ∨ ∀ n : I64, n.val ≠ tokenInt token) :
    Yields Failure.IsError
      (match floats.parse token with
        | none => reader.fail "invalid number"
        | some value =>
          if floats.isFinite value then .ok (.float value)
          else reader.fail "number out of range")
      (NumberValue floats float token) := by
  cases hparse : floats.parse token with
  | none => trivial
  | some value =>
    dsimp only
    split_ifs with hfinite
    · exact NumberValue.float hint hparse hfinite
    · trivial

lemma tokenValue_yields {float : Bool} {token : List Char} (h : NumberToken float token)
    (reader : Reader) :
    Yields Failure.IsError (tokenValue floats reader float token)
      (NumberValue floats float token) := by
  unfold tokenValue
  split_ifs with hinteger
  · rcases hinteger with ⟨rfl, hzero⟩
    rw [I64.parse_eq h]
    cases hint : I64.ofInt? (tokenInt token) with
    | none =>
      apply floatToken_yields
      refine .inr (.inr fun n hn => ?_)
      rw [I64.ofInt?_eq_some.mpr hn] at hint
      cases hint
    | some n => exact NumberValue.integer rfl hzero (I64.ofInt?_eq_some.mp hint)
  · apply floatToken_yields
    rw [not_and_or, not_not] at hinteger
    exact hinteger.imp (by simp) .inl

lemma tokenValue_eq {float : Bool} {token : List Char} {value : Value F}
    (h : NumberToken float token) (hvalue : NumberValue floats float token value)
    (reader : Reader) : tokenValue floats reader float token = .ok value := by
  unfold tokenValue
  cases hvalue with
  | integer hfloat hzero hn =>
    rcases hfloat with rfl
    rw [if_pos ⟨rfl, hzero⟩, I64.parse_eq h, I64.ofInt?_eq_some.mpr hn]
  | float hint hparse hfinite =>
    have hnone : (if float = false ∧ token ≠ ['-', '0'] then I64.parse token else none) = none := by
      split_ifs with hinteger
      · rcases hinteger with ⟨rfl, hzero⟩
        have hno := (hint.resolve_left (by simp)).resolve_left hzero
        rw [I64.parse_eq h]
        cases hfits : I64.ofInt? (tokenInt token) with
        | none => rfl
        | some n => exact absurd (I64.ofInt?_eq_some.mp hfits) (hno n)
      · rfl
    rw [hnone, hparse]
    exact if_pos hfinite

/-- The optional minus sign of a number. -/
lemma consumeMinus_reads :
    ∃ sign rest, after = sign ++ rest ∧ (sign = [] ∨ sign = ['-']) ∧
      ((between before after).consume (asciiByte '-')).2 = between (before ++ sign) rest := by
  by_cases hminus : after.head? = some '-'
  · rcases List.head?_eq_some_iff.mp hminus with ⟨rest, rfl⟩
    exact ⟨['-'], rest, rfl, .inr rfl,
      congrArg Prod.snd (consume_between_cons before (by decide) rest)⟩
  · refine ⟨[], after, rfl, .inl rfl, ?_⟩
    rw [List.append_nil]
    exact congrArg Prod.snd (consume_between_of_ne before (by decide) hminus)

lemma number_reads :
    Reads before after ((between before after).number floats)
      fun token value => ∃ float, NumberToken float token ∧
        NumberValue floats float token value := by
  unfold number
  rcases @consumeMinus_reads before after with ⟨sign, rest, rfl, hsign, heq⟩
  rw [heq]
  apply Reads.after_token sign
  apply Reaches.bind integerPart_reads
  intro int rest _ hint
  apply Reads.bind fraction_reads
  intro frac rest hasFraction _ hfrac
  apply Reads.bind exponent_reads
  intro exp rest hasExponent _ hexp
  have htoken := NumberToken.mk hsign hint hfrac hexp
  have hbefore : before ++ sign ++ int ++ frac ++ exp =
      before ++ (sign ++ (int ++ (frac ++ exp))) := by simp
  rw [hbefore]
  dsimp only
  rw [position_between, since_between, ok_bind]
  apply Yields.bind (tokenValue_yields htoken _)
  intro value hvalue
  refine ⟨[], rest, rfl, by simp, ?_⟩
  dsimp only
  rw [List.append_nil]
  exact ⟨_, htoken, hvalue⟩

lemma number_between {float : Bool} {token rest : List Char} {value : Value F}
    (h : NumberToken float token) (hvalue : NumberValue floats float token value)
    (hrest : EndsNumber rest) :
    (between before (token ++ rest)).number floats =
      .ok (value, between (before ++ token) rest) := by
  have hwhole := h
  rcases h with @⟨sign, int, frac, exp, hasFraction, hasExponent, hsign, hint, hfrac, hexp⟩
  -- neither a fraction nor an exponent starts with a digit, and no exponent with a point
  have hexpRest : ∀ c, (exp ++ rest).head? = some c → c.isDigit = false ∧ c ≠ '.' := by
    intro c hc
    cases hexp with
    | none => exact ⟨(hrest c hc).1, (hrest c hc).2.1⟩
    | some hmark =>
      rcases Option.some.inj hc with rfl
      rcases hmark with rfl | rfl <;> decide
  have hfracRest : ∀ c, (frac ++ (exp ++ rest)).head? = some c → c.isDigit = false := by
    intro c hc
    cases hfrac with
    | none => exact (hexpRest c hc).1
    | some =>
      rcases Option.some.inj hc with rfl
      decide
  have hminus : ((between before (sign ++ (int ++ (frac ++ (exp ++ rest))))).consume
      (asciiByte '-')).2 = between (before ++ sign) (int ++ (frac ++ (exp ++ rest))) := by
    rcases hsign with rfl | rfl
    · have hhead : ([] ++ (int ++ (frac ++ (exp ++ rest)))).head? ≠ some '-' := by
        cases hint with
        | zero => simp
        | digits hfirst =>
          rintro ⟨rfl⟩
          exact absurd (isDigit_iff.mp hfirst) (by decide)
      rw [consume_between_of_ne before (by decide) hhead, List.append_nil]
      rfl
    · rw [List.singleton_append, consume_between_cons before (by decide)]
  have hsince : (between (before ++ sign ++ int ++ frac ++ exp) rest).since (byteLength before) =
      .ok (sign ++ (int ++ (frac ++ exp))) := by
    rw [List.append_assoc, List.append_assoc, List.append_assoc, since_between]
  unfold number
  simp only [List.append_assoc] at hminus ⊢
  rw [hminus, integerPart_between hint hfracRest, ok_bind, fraction_between hfrac hexpRest, ok_bind]
  dsimp only
  rw [exponent_between hexp hrest, ok_bind]
  dsimp only
  rw [position_between, hsince, ok_bind, tokenValue_eq hwhole hvalue, ok_bind]
  simp only [List.append_assoc]
  rfl

end Reader

end Value

end DoomFishUtils.Json
