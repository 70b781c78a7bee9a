import DoomFishUtils.Json.Complete

/-!
# Printing and parsing

The printed form of a value is derived by the grammar at the value's own depth and denotes
the value with its non-finite floats replaced by null.  Both directions of the parser then
give the round trip and its failure beyond the nesting limit.
-/

namespace DoomFishUtils.Json

set_option autoImplicit false

open DoomFishUtils.Library

variable {F : Type} {floats : Floats F}

/-- The debug form of a finite float is a number token with a point or an exponent, and reads
back as the same float. -/
structure Floats.DebugReadsBack (floats : Floats F) : Prop where
  token : ∀ value, floats.isFinite value = true → NumberToken true (floats.debug value)
  parse : ∀ value, floats.isFinite value = true →
    floats.parse (floats.debug value) = some value

section Depth

lemma depthElements_le {values : List (Value F)} {depth : ℕ} :
    Value.depthElements values ≤ depth ↔ ∀ value ∈ values, value.depth ≤ depth := by
  induction values with
  | nil => simp [Value.depthElements]
  | cons value values ih => simp [Value.depthElements, ih]

lemma depthMembers_le {values : List (List Char × Value F)} {depth : ℕ} :
    Value.depthMembers values ≤ depth ↔ ∀ entry ∈ values, entry.2.depth ≤ depth := by
  induction values with
  | nil => simp [Value.depthMembers]
  | cons entry values ih => simp [Value.depthMembers, ih]

lemma nullNonFiniteElements_eq (values : List (Value F)) :
    Value.nullNonFiniteElements floats values =
      values.map fun value => value.nullNonFinite floats := by
  induction values with
  | nil => rfl
  | cons value values ih => simp [Value.nullNonFiniteElements, ih]

lemma nullNonFiniteMembers_eq (values : List (List Char × Value F)) :
    Value.nullNonFiniteMembers floats values =
      values.map fun entry => (entry.1, entry.2.nullNonFinite floats) := by
  induction values with
  | nil => rfl
  | cons entry values ih => simp [Value.nullNonFiniteMembers, ih]

/-- Replacing floats keeps the nesting. -/
lemma depth_nullNonFinite (v : Value F) : (v.nullNonFinite floats).depth = v.depth := by
  induction v using Value.induction with
  | null => rfl
  | bool => rfl
  | integer => rfl
  | float value =>
    unfold Value.nullNonFinite
    split_ifs <;> rfl
  | string => rfl
  | array values ih =>
    simp only [Value.nullNonFinite, Value.depth, nullNonFiniteElements_eq]
    congr 1
    induction values with
    | nil => rfl
    | cons value values ihvalues =>
      simp only [List.map_cons, Value.depthElements, ih value List.mem_cons_self,
        ihvalues fun w hw => ih w (List.mem_cons_of_mem _ hw)]
  | object values ih =>
    simp only [Value.nullNonFinite, Value.depth, nullNonFiniteMembers_eq]
    congr 1
    induction values with
    | nil => rfl
    | cons entry values ihvalues =>
      simp only [List.map_cons, Value.depthMembers, ih entry List.mem_cons_self,
        ihvalues fun e he => ih e (List.mem_cons_of_mem _ he)]

/-- A value nests no deeper than the text it was read from. -/
def Phrase.DepthLe (depth : ℕ) : Phrase F → Prop
  | .value v => v.depth ≤ depth
  | .elements values => Value.depthElements values ≤ depth
  | .members values => Value.depthMembers values ≤ depth

lemma Denotes.depthLe {depth : ℕ} {text : List Char} {phrase : Phrase F}
    (h : Denotes floats depth text phrase) : phrase.DepthLe depth := by
  induction h with
  | null => exact Nat.zero_le _
  | true => exact Nat.zero_le _
  | false => exact Nat.zero_le _
  | number htoken hvalue => cases hvalue <;> exact Nat.zero_le _
  | string => exact Nat.zero_le _
  | emptyArray => exact Nat.succ_le_succ (Nat.zero_le _)
  | array _ ih => exact Nat.succ_le_succ ih
  | emptyObject => exact Nat.succ_le_succ (Nat.zero_le _)
  | object _ hlast ih =>
    apply Nat.succ_le_succ
    apply depthMembers_le.mpr
    rintro ⟨key, value⟩ hentry
    rcases (hlast.mem_iff key value).mp hentry with ⟨front, back, rfl, -⟩
    exact depthMembers_le.mp ih (key, value) (by simp)
  | element _ _ _ ih => exact Nat.max_le.mpr ⟨ih, Nat.zero_le _⟩
  | elements _ _ _ _ ih ihrest => exact Nat.max_le.mpr ⟨ih, ihrest⟩
  | member _ _ _ _ _ _ ih => exact Nat.max_le.mpr ⟨ih, Nat.zero_le _⟩
  | members _ _ _ _ _ _ _ ih ihrest => exact Nat.max_le.mpr ⟨ih, ihrest⟩

/-- A derivation stays one under a larger bound. -/
lemma Denotes.mono {depth : ℕ} {text : List Char} {phrase : Phrase F}
    (h : Denotes floats depth text phrase) :
    ∀ {larger : ℕ}, depth ≤ larger → Denotes floats larger text phrase := by
  induction h with
  | null => exact fun _ => .null
  | true => exact fun _ => .true
  | false => exact fun _ => .false
  | number htoken hvalue => exact fun _ => .number htoken hvalue
  | string hbody => exact fun _ => .string hbody
  | emptyArray hblank =>
    intro larger hle
    rcases Nat.exists_eq_add_of_le' (Nat.le_trans (Nat.le_add_left 1 _) hle) with ⟨larger, rfl⟩
    exact .emptyArray hblank
  | array _ ih =>
    intro larger hle
    rcases Nat.exists_eq_add_of_le' (Nat.le_trans (Nat.le_add_left 1 _) hle) with ⟨larger, rfl⟩
    exact .array (ih (Nat.le_of_succ_le_succ hle))
  | emptyObject hblank =>
    intro larger hle
    rcases Nat.exists_eq_add_of_le' (Nat.le_trans (Nat.le_add_left 1 _) hle) with ⟨larger, rfl⟩
    exact .emptyObject hblank
  | object _ hlast ih =>
    intro larger hle
    rcases Nat.exists_eq_add_of_le' (Nat.le_trans (Nat.le_add_left 1 _) hle) with ⟨larger, rfl⟩
    exact .object (ih (Nat.le_of_succ_le_succ hle)) hlast
  | element hfront _ hback ih => exact fun hle => .element hfront (ih hle) hback
  | elements hfront _ hback _ ih ihrest =>
    exact fun hle => .elements hfront (ih hle) hback (ihrest hle)
  | member hbefore hkey hafter hfront _ hback ih =>
    exact fun hle => .member hbefore hkey hafter hfront (ih hle) hback
  | members hbefore hkey hafter hfront _ hback _ ih ihrest =>
    exact fun hle => .members hbefore hkey hafter hfront (ih hle) hback (ihrest hle)

end Depth

section Tokens

lemma fmtHex_quad {code : ℕ} (h : code ≤ 0x1f) : Quad (fmtHex code) code := by
  have hdigits : ∀ n < 32, fmtHex n = ['0', '0', (n / 16).digitChar, (n % 16).digitChar] ∧
      hexDigitValue (n / 16).digitChar = some (n / 16) ∧
      hexDigitValue (n % 16).digitChar = some (n % 16) := by decide
  rcases hdigits code (by omega) with ⟨hfmt, hhigh, hlow⟩
  have hzero : hexDigitValue '0' = some 0 := by decide
  have hquad := Quad.mk hzero hzero hhigh hlow
  have hvalue : ((0 * 16 + 0) * 16 + code / 16) * 16 + code % 16 = code := by omega
  rw [hvalue] at hquad
  rw [hfmt]
  exact hquad

/-- What the writer writes for a character, the string grammar reads as that character. -/
lemma stringBody_writeCharacter (c : Char) {body decoded : List Char}
    (h : StringBody body decoded) : StringBody (writeCharacter c ++ body) (c :: decoded) := by
  have hshort : ∀ {mark : Char}, shortEscape mark = some c →
      StringBody (['\\', mark] ++ body) (c :: decoded) :=
    fun hmark => .escape (.short hmark) h
  unfold writeCharacter
  by_cases hquote : c = '"'
  · rw [if_pos hquote]
    exact hshort (by rw [hquote]; rfl)
  rw [if_neg hquote]
  by_cases hbackslash : c = '\\'
  · rw [if_pos hbackslash]
    exact hshort (by rw [hbackslash]; rfl)
  rw [if_neg hbackslash]
  by_cases hb : c = Char.ofNat 0x08
  · rw [if_pos hb]
    exact hshort (by rw [hb]; rfl)
  rw [if_neg hb]
  by_cases hf : c = Char.ofNat 0x0c
  · rw [if_pos hf]
    exact hshort (by rw [hf]; rfl)
  rw [if_neg hf]
  by_cases hn : c = '\n'
  · rw [if_pos hn]
    exact hshort (by rw [hn]; rfl)
  rw [if_neg hn]
  by_cases hr : c = '\r'
  · rw [if_pos hr]
    exact hshort (by rw [hr]; rfl)
  rw [if_neg hr]
  by_cases ht : c = '\t'
  · rw [if_pos ht]
    exact hshort (by rw [ht]; rfl)
  rw [if_neg ht]
  by_cases hcontrol : c.toNat ≤ 0x1f
  · have hescape := EscapeText.unicode (fmtHex_quad hcontrol) (by omega)
    rw [Char.ofNat_toNat] at hescape
    rw [if_pos hcontrol]
    exact .escape hescape h
  · rw [if_neg hcontrol]
    exact .plain ⟨hquote, hbackslash, by omega⟩ h

lemma stringBody_write (text : List Char) : StringBody (text.flatMap writeCharacter) text := by
  induction text with
  | nil => exact .nil
  | cons c text ih =>
    rw [List.flatMap_cons]
    exact stringBody_writeCharacter c ih

lemma intPart_toDigits (n : ℕ) :
    IntPart (Nat.toDigits 10 n) ∧ (n ≠ 0 → (Nat.toDigits 10 n).head? ≠ some '0') := by
  induction n using Nat.strong_induction_on with
  | _ n ih =>
    rcases Nat.lt_or_ge n 10 with hlt | hge
    · rw [Nat.toDigits_of_lt_base hlt]
      have hdigit : n.digitChar.isDigit = true := by
        rw [Nat.isDigit_digitChar, decide_eq_true hlt]
      by_cases hzero : n = 0
      · rcases hzero with rfl
        exact ⟨.zero, fun h => absurd rfl h⟩
      · have hne : n.digitChar ≠ '0' := fun h => hzero (Nat.digitChar_eq_zero.mp h)
        exact ⟨.digits hdigit hne (by simp), fun _ => by simpa using hne⟩
    · have hdigit : (n % 10).digitChar.isDigit = true := by
        rw [Nat.isDigit_digitChar, decide_eq_true (Nat.mod_lt _ (by decide))]
      rcases ih (n / 10) (by omega) with ⟨hint, hhead⟩
      rw [Nat.toDigits_of_base_le (by decide) hge]
      generalize Nat.toDigits 10 (n / 10) = digits at hint hhead
      have hfront := hhead (by omega)
      cases hint with
      | zero => exact absurd rfl hfront
      | @digits first rest hfirst hne hrest =>
        refine ⟨.digits hfirst hne ?_, fun _ => by simpa using hne⟩
        exact List.forall_mem_append.mpr ⟨hrest, by simpa using hdigit⟩

lemma decimal_toDigits (n : ℕ) : decimal (Nat.toDigits 10 n) = n :=
  Nat.ofDigitChars_ten_toDigits

/-- The decimal literal of an integer. -/
def decimalLiteral (n : ℤ) : List Char :=
  if n < 0 then '-' :: Nat.toDigits 10 n.natAbs else Nat.toDigits 10 n.natAbs

/-- The literal of an integer is an integer token that denotes it. -/
lemma decimalLiteral_token (n : ℤ) :
    NumberToken false (decimalLiteral n) ∧ decimalLiteral n ≠ ['-', '0'] ∧
      tokenInt (decimalLiteral n) = n := by
  rcases intPart_toDigits n.natAbs with ⟨hint, hhead⟩
  have hdigits := I64.parse_of_digits hint.digits_of
  unfold decimalLiteral
  split_ifs with hneg
  · refine ⟨?_, ?_, ?_⟩
    · simpa using NumberToken.mk (.inr rfl) hint .none .none
    · intro h
      refine hhead (by omega) ?_
      rw [(List.cons.inj h).2]
      rfl
    · change -(decimal (Nat.toDigits 10 n.natAbs) : ℤ) = n
      rw [decimal_toDigits]
      omega
  · refine ⟨?_, ?_, ?_⟩
    · simpa using NumberToken.mk (.inl rfl) hint .none .none
    · intro h
      have hmem := hint.digits_of.2 '-' (by rw [h]; simp)
      exact absurd hmem (by decide)
    · rw [hdigits.2.2, decimal_toDigits]
      omega

/-- An `i64` is written as its literal. -/
lemma integer_token (n : I64) :
    NumberToken false n.fmt ∧ n.fmt ≠ ['-', '0'] ∧ tokenInt n.fmt = n.val :=
  decimalLiteral_token n.val

end Tokens

section Containers

/-- Behind the first element the writer does not look at the index any more. -/
lemma fmtElements_succ (values : List (Value F)) : ∀ i j : ℕ,
    Value.fmtElements floats (i + 1) values = Value.fmtElements floats (j + 1) values := by
  induction values with
  | nil => exact fun _ _ => rfl
  | cons value values ih =>
    intro i j
    rw [Value.fmtElements, Value.fmtElements, ih (i + 1) (j + 1), if_pos (Nat.succ_ne_zero i),
      if_pos (Nat.succ_ne_zero j)]

lemma fmtMembers_succ (values : List (List Char × Value F)) : ∀ i j : ℕ,
    Value.fmtMembers floats (i + 1) values = Value.fmtMembers floats (j + 1) values := by
  induction values with
  | nil => exact fun _ _ => rfl
  | cons entry values ih =>
    intro i j
    rw [Value.fmtMembers, Value.fmtMembers, ih (i + 1) (j + 1), if_pos (Nat.succ_ne_zero i),
      if_pos (Nat.succ_ne_zero j)]

lemma fmtElements_cons_cons (first second : Value F) (values : List (Value F)) :
    Value.fmtElements floats 0 (first :: second :: values) =
      first.fmt floats ++ ',' :: Value.fmtElements floats 0 (second :: values) := by
  simp [Value.fmtElements, fmtElements_succ values 1 0]

lemma fmtMembers_cons_cons (first second : List Char × Value F)
    (values : List (List Char × Value F)) :
    Value.fmtMembers floats 0 (first :: second :: values) =
      writeString first.1 ++ ':' :: (first.2.fmt floats ++
        ',' :: Value.fmtMembers floats 0 (second :: values)) := by
  simp [Value.fmtMembers, fmtMembers_succ values 1 0]

lemma denotes_fmtElements {depth : ℕ} : ∀ {values : List (Value F)}, values ≠ [] →
    (∀ value ∈ values,
      Denotes floats depth (value.fmt floats) (.value (value.nullNonFinite floats))) →
    Denotes floats depth (Value.fmtElements floats 0 values)
      (.elements (Value.nullNonFiniteElements floats values))
  | [], hne, _ => absurd rfl hne
  | [value], _, h => by
    have helement := Denotes.element Blank.nil (h value List.mem_cons_self) Blank.nil
    simpa [Value.fmtElements, Value.nullNonFiniteElements] using helement
  | first :: second :: values, _, h => by
    have hrest := denotes_fmtElements (List.cons_ne_nil second values)
      fun value hvalue => h value (List.mem_cons_of_mem _ hvalue)
    have helements := Denotes.elements Blank.nil (h first List.mem_cons_self) Blank.nil hrest
    rw [fmtElements_cons_cons]
    exact helements

lemma denotes_fmtMembers {depth : ℕ} : ∀ {values : List (List Char × Value F)}, values ≠ [] →
    (∀ entry ∈ values,
      Denotes floats depth (entry.2.fmt floats) (.value (entry.2.nullNonFinite floats))) →
    Denotes floats depth (Value.fmtMembers floats 0 values)
      (.members (Value.nullNonFiniteMembers floats values))
  | [], hne, _ => absurd rfl hne
  | [(key, value)], _, h => by
    have hmember := Denotes.member Blank.nil (stringBody_write key) Blank.nil Blank.nil
      (h (key, value) List.mem_cons_self) Blank.nil
    simpa [Value.fmtMembers, Value.nullNonFiniteMembers, writeString] using hmember
  | (key, value) :: second :: values, _, h => by
    have hrest := denotes_fmtMembers (List.cons_ne_nil second values)
      fun entry hentry => h entry (List.mem_cons_of_mem _ hentry)
    have hmembers := Denotes.members Blank.nil (stringBody_write key) Blank.nil Blank.nil
      (h (key, value) List.mem_cons_self) Blank.nil hrest
    rw [fmtMembers_cons_cons]
    simpa [Value.nullNonFiniteMembers, writeString] using hmembers

lemma orderedElements_iff {values : List (Value F)} :
    Value.orderedElements values ↔ ∀ value ∈ values, value.Ordered := by
  induction values with
  | nil => simp [Value.orderedElements]
  | cons value values ih => simp [Value.orderedElements, ih]

lemma orderedMembers_iff {values : List (List Char × Value F)} :
    Value.orderedMembers values ↔ ∀ entry ∈ values, entry.2.Ordered := by
  induction values with
  | nil => simp [Value.orderedMembers]
  | cons entry values ih => simp [Value.orderedMembers, ih]

lemma sortedKeys_nullNonFinite {values : List (List Char × Value F)} (h : SortedKeys values) :
    SortedKeys (Value.nullNonFiniteMembers floats values) := by
  rw [nullNonFiniteMembers_eq]
  exact List.pairwise_map.mpr h

/-- The printed form of a value denotes the value without its non-finite floats. -/
theorem denotes_fmt (hfloats : floats.DebugReadsBack) (v : Value F) (hordered : v.Ordered) :
    Denotes floats v.depth (v.fmt floats) (.value (v.nullNonFinite floats)) := by
  induction v using Value.induction with
  | null => exact .null
  | bool value =>
    cases value with
    | true => exact .true
    | false => exact .false
  | integer n =>
    rcases integer_token n with ⟨htoken, hzero, hint⟩
    exact .number htoken (.integer rfl hzero hint.symm)
  | float value =>
    unfold Value.fmt Value.nullNonFinite
    split_ifs with hfinite
    · exact .number (hfloats.token value hfinite)
        (.float (.inl rfl) (hfloats.parse value hfinite) hfinite)
    · exact .null
  | string text => exact .string (stringBody_write text)
  | array values ih =>
    unfold Value.Ordered at hordered
    by_cases hempty : values = []
    · rcases hempty with rfl
      exact .emptyArray Blank.nil
    · have hdepth := depthElements_le.mp (Nat.le_refl (Value.depthElements values))
      exact .array (denotes_fmtElements hempty fun value hvalue =>
        (ih value hvalue (orderedElements_iff.mp hordered value hvalue)).mono
          (hdepth value hvalue))
  | object values ih =>
    unfold Value.Ordered at hordered
    by_cases hempty : values = []
    · rcases hempty with rfl
      exact .emptyObject Blank.nil
    · have hdepth := depthMembers_le.mp (Nat.le_refl (Value.depthMembers values))
      have hmembers := denotes_fmtMembers hempty fun entry hentry =>
        (ih entry hentry (orderedMembers_iff.mp hordered.2 entry hentry)).mono
          (hdepth entry hentry)
      exact .object hmembers (.of_sorted (sortedKeys_nullNonFinite hordered.1))

end Containers

lemma document_fmt (hfloats : floats.DebugReadsBack) (v : JsonValue F) {depth : ℕ}
    (hdepth : v.value.depth ≤ depth) :
    Document floats depth (v.value.fmt floats) (v.value.nullNonFinite floats) :=
  ⟨[], v.value.fmt floats, [], by simp, Blank.nil,
    (denotes_fmt hfloats v.value v.ordered).mono hdepth, Blank.nil⟩

/-- A text denotes at most one value, whatever the nesting bound. -/
lemma Document.unique {depth depth' : ℕ} {text : List Char} {v v' : Value F}
    (h : Document floats depth text v) (h' : Document floats depth' text v') : v = v' := by
  have hmono : ∀ {d : ℕ} {w : Value F}, Document floats d text w →
      d ≤ max depth depth' → Document floats (max depth depth') text w := by
    rintro d w ⟨front, token, back, rfl, hfront, htoken, hback⟩ hle
    exact ⟨front, token, back, rfl, hfront, htoken.mono hle, hback⟩
  have hfirst := parseWithin_of_document (hmono h (Nat.le_max_left _ _))
  have hsecond := parseWithin_of_document (hmono h' (Nat.le_max_right _ _))
  rw [hfirst] at hsecond
  exact Except.ok.inj hsecond

/-- Parsing a printed value returns it with its non-finite floats replaced by null, unless it
nests beyond the limit, which is an error. -/
theorem parse_fmt (hfloats : floats.DebugReadsBack) (v : JsonValue F) :
    (v.value.depth ≤ nestingLimit →
      parse floats (v.value.fmt floats) = .ok (v.value.nullNonFinite floats)) ∧
    (nestingLimit < v.value.depth →
      ∃ error, parse floats (v.value.fmt floats) = .error (.err error)) := by
  constructor
  · exact fun hdepth => parseWithin_of_document (document_fmt hfloats v hdepth)
  · intro hdeep
    have hyields := parseWithin_yields floats nestingLimit (v.value.fmt floats)
    unfold parse
    cases hparse : parseWithin floats nestingLimit (v.value.fmt floats) with
    | error failure =>
      rw [hparse] at hyields
      cases failure with
      | err error => exact ⟨error, rfl⟩
      | panic => exact hyields.elim
      | timeout => exact hyields.elim
    | ok w =>
      have hdocument := hyields.of_eq_ok hparse
      have hsame := hdocument.unique (document_fmt hfloats v (Nat.le_refl _))
      rcases hdocument with ⟨front, token, back, -, -, htoken, -⟩
      have hle : w.depth ≤ nestingLimit := htoken.depthLe
      rw [hsame, depth_nullNonFinite] at hle
      omega

section Sample

/-- Floats with one finite value, a half, and one that is not a number. -/
def halfAndNaN : Floats Bool where
  parse token := if token = ['0', '.', '5'] then some true else none
  isFinite value := value
  debug value := if value then ['0', '.', '5'] else ['N', 'a', 'N']

lemma halfAndNaN_debugReadsBack : halfAndNaN.DebugReadsBack where
  token value hfinite := by
    rcases (show value = true from hfinite) with rfl
    exact @NumberToken.mk [] ['0'] ['.', '5'] [] true false (.inl rfl) .zero
      (.some ⟨by simp, List.forall_mem_singleton.mpr rfl⟩) .none
  parse value hfinite := by
    rcases (show value = true from hfinite) with rfl
    rfl

/-- A value inside a number of arrays. -/
def nest (v : Value Bool) : ℕ → Value Bool
  | 0 => v
  | count + 1 => .array [nest v count]

lemma depth_nest (count : ℕ) : (nest (.float false) count).depth = count := by
  induction count with
  | zero => rfl
  | succ count ih => simp [nest, Value.depth, Value.depthElements, ih]

lemma ordered_nest (count : ℕ) : (nest (.float false) count).Ordered := by
  induction count with
  | zero => trivial
  | succ count ih => exact ⟨ih, trivial⟩

theorem parse_fmt_nest :
    parse halfAndNaN ((nest (.float false) 128).fmt halfAndNaN) =
        .ok ((nest (.float false) 128).nullNonFinite halfAndNaN) ∧
      ∃ error, parse halfAndNaN ((nest (.float false) 129).fmt halfAndNaN) =
        .error (.err error) :=
  ⟨(parse_fmt halfAndNaN_debugReadsBack ⟨_, ordered_nest 128⟩).1 (depth_nest 128).le,
    (parse_fmt halfAndNaN_debugReadsBack ⟨_, ordered_nest 129⟩).2
      (by rw [depth_nest]; decide)⟩

end Sample

end DoomFishUtils.Json
