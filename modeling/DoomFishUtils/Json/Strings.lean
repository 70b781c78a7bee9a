import DoomFishUtils.Json.Boundary

/-!
# Reading strings

The string reader accepts exactly the string bodies of the grammar and decodes them as the
grammar says.
-/

namespace DoomFishUtils.Json

set_option autoImplicit false

open DoomFishUtils.Library

variable {before after : List Char}

section HexQuad

lemma hexDigitValue_bounds {c : Char} {digit : ℕ} (h : hexDigitValue c = some digit) :
    c.toNat < 128 ∧ digit < 16 := by
  have hle : ∀ a b : Char, a ≤ b ↔ a.toNat ≤ b.toNat := fun a b => Iff.rfl
  have h0 : '0'.toNat = 48 := rfl
  have h9 : '9'.toNat = 57 := rfl
  have ha : 'a'.toNat = 97 := rfl
  have hf : 'f'.toNat = 102 := rfl
  have hA : 'A'.toNat = 65 := rfl
  have hF : 'F'.toNat = 70 := rfl
  unfold hexDigitValue at h
  simp only [hle] at h
  split_ifs at h with h1 h2 h3 <;> simp only [Option.some.injEq] at h <;> omega

lemma checkedU32_of_lt {value : ℕ} (h : value < 2 ^ 32) : checkedU32 value = .ok value :=
  if_pos h

namespace Reader

lemma hexQuadLoop_cons {c : Char} {count value digit : ℕ} (hdigit : hexDigitValue c = some digit)
    (hbound : value * 16 + digit < 2 ^ 32) :
    hexQuadLoop (count + 1) (between before (c :: after)) value =
      hexQuadLoop count (between (before ++ [c]) after) (value * 16 + digit) := by
  have hshift : checkedU32 (value * 16) = .ok (value * 16) := checkedU32_of_lt (by omega)
  have hadd := checkedU32_of_lt hbound
  rw [hexQuadLoop, peek_between_cons, Option.bind_some, hexDigit_leadByte, hdigit]
  simp only [hshift, ok_bind, hadd,
    advance_between_ascii before (hexDigitValue_bounds hdigit).1]

/-- One turn of the digit loop. -/
lemma hexQuadLoop_reads {count value : ℕ} {spec : List Char → ℕ → Prop}
    (hbound : value * 16 + 15 < 2 ^ 32)
    (hrest : ∀ (c : Char) (digit : ℕ) (rest : List Char), hexDigitValue c = some digit →
      after = c :: rest →
      Reads (before ++ [c]) rest
        (hexQuadLoop count (between (before ++ [c]) rest) (value * 16 + digit))
        fun token code => spec (c :: token) code) :
    Reads before after (hexQuadLoop (count + 1) (between before after) value) spec := by
  cases after with
  | nil =>
    rw [hexQuadLoop, peek_between_nil]
    exact Reads.fail
  | cons c rest =>
    cases hdigit : hexDigitValue c with
    | none =>
      rw [hexQuadLoop, peek_between_cons, Option.bind_some, hexDigit_leadByte, hdigit]
      exact Reads.fail
    | some digit =>
      have hlt := (hexDigitValue_bounds hdigit).2
      rw [hexQuadLoop_cons hdigit (by omega)]
      exact Reads.after_token [c] (hrest c digit rest hdigit rfl)

lemma hexQuad_reads : Reads before after (between before after).hexQuad Quad := by
  apply hexQuadLoop_reads (by omega)
  intro a i rest ha _
  have hi := (hexDigitValue_bounds ha).2
  apply hexQuadLoop_reads (by omega)
  intro b j rest hb _
  have hj := (hexDigitValue_bounds hb).2
  apply hexQuadLoop_reads (by omega)
  intro c k rest hc _
  have hk := (hexDigitValue_bounds hc).2
  apply hexQuadLoop_reads (by omega)
  intro d l rest hd _
  apply Reads.ok [] rfl (by simp)
  simpa using Quad.mk ha hb hc hd

lemma hexQuad_between {quad : List Char} {code : ℕ} (h : Quad quad code) (rest : List Char) :
    (between before (quad ++ rest)).hexQuad = .ok (code, between (before ++ quad) rest) := by
  rcases h with @⟨a, b, c, d, i, j, k, l, ha, hb, hc, hd⟩
  have hi := (hexDigitValue_bounds ha).2
  have hj := (hexDigitValue_bounds hb).2
  have hk := (hexDigitValue_bounds hc).2
  have hl := (hexDigitValue_bounds hd).2
  unfold hexQuad
  simp only [List.cons_append, List.nil_append]
  rw [hexQuadLoop_cons ha (by omega), hexQuadLoop_cons hb (by omega),
    hexQuadLoop_cons hc (by omega), hexQuadLoop_cons hd (by omega)]
  simp [hexQuadLoop]

end Reader

lemma Quad.lt {quad : List Char} {code : ℕ} (h : Quad quad code) : code < 2 ^ 16 := by
  rcases h with ⟨ha, hb, hc, hd⟩
  have hi := (hexDigitValue_bounds ha).2
  have hj := (hexDigitValue_bounds hb).2
  have hk := (hexDigitValue_bounds hc).2
  have hl := (hexDigitValue_bounds hd).2
  omega

end HexQuad

section Escape

/-- Combining two surrogates stays in range. -/
lemma combine_eq {high low : ℕ} (hhigh : 0xd800 ≤ high ∧ high ≤ 0xdbff)
    (hlow : 0xdc00 ≤ low ∧ low ≤ 0xdfff) :
    Reader.combine high low = .ok (0x10000 + (high - 0xd800) * 0x400 + (low - 0xdc00)) := by
  have hmod : (high - 0xd800) * 2 ^ 10 % 2 ^ 32 = (high - 0xd800) * 0x400 := by
    apply Nat.mod_eq_of_lt
    omega
  have hsub : subU32 high 0xd800 = .ok (high - 0xd800) := if_pos hhigh.1
  have hfirst : checkedU32 (0x10000 + (high - 0xd800) * 0x400) =
      .ok (0x10000 + (high - 0xd800) * 0x400) := checkedU32_of_lt (by omega)
  have hsecond : checkedU32 (0x10000 + (high - 0xd800) * 0x400 + low) =
      .ok (0x10000 + (high - 0xd800) * 0x400 + low) := checkedU32_of_lt (by omega)
  have hlast : subU32 (0x10000 + (high - 0xd800) * 0x400 + low) 0xdc00 =
      .ok (0x10000 + (high - 0xd800) * 0x400 + low - 0xdc00) := if_pos (by omega)
  have hassoc : 0x10000 + (high - 0xd800) * 0x400 + low - 0xdc00 =
      0x10000 + (high - 0xd800) * 0x400 + (low - 0xdc00) := by omega
  rw [← hassoc, ← hlast]
  unfold Reader.combine
  rw [hsub, ok_bind, hmod, hfirst, ok_bind, hsecond, ok_bind]

/-- The code of a Unicode escape behind its `u`. -/
inductive CodeText : List Char → ℕ → Prop where
  | single {quad : List Char} {code : ℕ} (h : Quad quad code)
      (hhigh : ¬(0xd800 ≤ code ∧ code ≤ 0xdbff)) : CodeText quad code
  | pair {first second : List Char} {high low : ℕ} (hfirst : Quad first high)
      (hhigh : 0xd800 ≤ high ∧ high ≤ 0xdbff) (hsecond : Quad second low)
      (hlow : 0xdc00 ≤ low ∧ low ≤ 0xdfff) :
      CodeText (first ++ '\\' :: 'u' :: second)
        (0x10000 + (high - 0xd800) * 0x400 + (low - 0xdc00))

/-- The codes that are scalar values are those of the grammar's Unicode escapes. -/
lemma escapeText_of_codeText {token : List Char} {code : ℕ} {c : Char} (h : CodeText token code)
    (hc : charFromU32 code = some c) : EscapeText ('u' :: token) c := by
  unfold charFromU32 at hc
  split_ifs at hc with hvalid
  rcases Option.some.inj hc with rfl
  cases h with
  | single h hhigh =>
    refine .unicode h fun hsurrogate => ?_
    simp only [Nat.isValidChar] at hvalid
    omega
  | pair hfirst hhigh hsecond hlow => exact .pair hfirst hhigh hsecond hlow

lemma exists_codeText {token : List Char} {c : Char} (h : EscapeText ('u' :: token) c) :
    ∃ code, CodeText token code ∧ charFromU32 code = some c := by
  generalize htext : 'u' :: token = text at h
  cases h with
  | short hshort =>
    rcases List.cons.inj htext with ⟨rfl, -⟩
    simp [shortEscape] at hshort
  | @unicode quad code hquad hscalar =>
    rcases List.cons.inj htext with ⟨-, rfl⟩
    have hlt := hquad.lt
    refine ⟨code, .single hquad (by omega), if_pos ?_⟩
    simp only [Nat.isValidChar]
    omega
  | pair hfirst hhigh hsecond hlow =>
    rcases List.cons.inj htext with ⟨-, rfl⟩
    refine ⟨_, .pair hfirst hhigh hsecond hlow, if_pos ?_⟩
    simp only [Nat.isValidChar]
    omega

namespace Reader

lemma unicodeCode_reads : Reads before after (between before after).unicodeCode CodeText := by
  unfold unicodeCode
  apply Reads.bind hexQuad_reads
  intro first rest high _ hfirst
  dsimp only
  split_ifs with hhigh
  · apply Reaches.bind (expect_reaches (by decide) _)
    rintro _ rest' - rfl
    apply Reaches.bind (expect_reaches (by decide) _)
    rintro _ rest' - rfl
    apply Reads.bind hexQuad_reads
    intro second rest low _ hsecond
    dsimp only
    split_ifs with hlow
    · rw [combine_eq hhigh hlow]
      refine Reads.ok [] rfl (by simp) ?_
      simpa using CodeText.pair hfirst hhigh hsecond hlow
    · exact Reads.fail
  · refine Reads.ok [] rfl (by simp) ?_
    simpa using CodeText.single hfirst hhigh

lemma unicodeCode_between {token : List Char} {code : ℕ} (h : CodeText token code)
    (rest : List Char) :
    (between before (token ++ rest)).unicodeCode = .ok (code, between (before ++ token) rest) := by
  unfold unicodeCode
  cases h with
  | single hquad hhigh =>
    rw [hexQuad_between hquad]
    exact if_neg hhigh
  | @pair first second high low hfirst hhigh hsecond hlow =>
    rw [List.append_assoc, hexQuad_between hfirst]
    refine (if_pos hhigh).trans ?_
    rw [List.cons_append, expect_between (by decide), ok_bind, List.cons_append,
      expect_between (by decide), ok_bind, hexQuad_between hsecond, ok_bind]
    refine (if_neg (not_not_intro hlow)).trans ?_
    rw [combine_eq hhigh hlow, ok_bind]
    simp only [List.append_assoc, List.cons_append, List.nil_append]
    rfl

lemma escape_reads : Reads before after (between before after).escape EscapeText := by
  unfold escape
  cases after with
  | nil =>
    rw [peek_between_nil]
    exact Reads.fail
  | cons c rest =>
    rw [peek_between_cons]
    dsimp only
    split_ifs with hu
    · rcases (leadByte_eq_asciiByte (by decide)).mp hu with rfl
      rw [advance_between_ascii before (by decide)]
      apply Reads.after_token ['u']
      apply Reads.bind unicodeCode_reads
      intro token rest code _ hcode
      dsimp only
      cases hc : charFromU32 code with
      | none => exact Reads.fail
      | some character =>
        refine Reads.ok [] rfl (by simp) ?_
        simpa using escapeText_of_codeText hcode hc
    · rw [escaped_leadByte]
      cases hshort : shortEscape c with
      | none => exact Reads.fail
      | some character =>
        have hc : c.toNat < 128 := by
          unfold shortEscape at hshort
          split at hshort <;> first | decide | exact absurd hshort (by simp)
        dsimp only
        rw [advance_between_ascii before hc]
        exact Reads.ok [c] rfl rfl (.short hshort)

lemma escape_between {mark : List Char} {c : Char} (h : EscapeText mark c) (rest : List Char) :
    (between before (mark ++ rest)).escape = .ok (c, between (before ++ mark) rest) := by
  have hunicode : ∀ token : List Char, EscapeText ('u' :: token) c →
      (between before ('u' :: token ++ rest)).escape =
        .ok (c, between (before ++ 'u' :: token) rest) := by
    intro token h
    rcases exists_codeText h with ⟨code, hcode, hc⟩
    unfold escape
    rw [List.cons_append, peek_between_cons]
    refine (if_pos ((leadByte_eq_asciiByte (by decide)).mpr rfl)).trans ?_
    rw [advance_between_ascii before (by decide), unicodeCode_between hcode]
    dsimp only [bind, Except.bind]
    rw [hc]
    simp only [List.append_assoc, List.cons_append, List.nil_append]
    rfl
  cases h with
  | @short mark _ hshort =>
    have hmark : mark.toNat < 128 ∧ mark ≠ 'u' := by
      unfold shortEscape at hshort
      split at hshort <;> first | decide | exact absurd hshort (by simp)
    unfold escape
    rw [List.singleton_append, peek_between_cons]
    refine (if_neg fun hu => hmark.2 ((leadByte_eq_asciiByte (by decide)).mp hu)).trans ?_
    rw [escaped_leadByte, hshort]
    exact congrArg (fun reader => Except.ok (c, reader)) (advance_between_ascii before hmark.1 rest)
  | unicode hquad hscalar => exact hunicode _ (.unicode hquad hscalar)
  | pair hfirst hhigh hsecond hlow => exact hunicode _ (.pair hfirst hhigh hsecond hlow)

end Reader

end Escape

section Loop

/-- No byte of an unescaped character ends the string loop or fails it. -/
lemma Unescaped.bytes {c : Char} (hc : Unescaped c) {byte : UInt8}
    (hmem : byte ∈ String.utf8EncodeChar c) :
    byte ≠ asciiByte '"' ∧ byte ≠ asciiByte '\\' ∧ ¬ byte.toNat ≤ 0x1f := by
  rcases Nat.lt_or_ge c.toNat 128 with hascii | hbeyond
  · rw [utf8EncodeChar_of_ascii hascii, List.mem_singleton, ← leadByte_of_ascii hascii] at hmem
    rcases hmem with rfl
    rw [toNat_leadByte_of_ascii hascii]
    refine ⟨fun h => hc.1 ((leadByte_eq_asciiByte (by decide)).mp h),
      fun h => hc.2.1 ((leadByte_eq_asciiByte (by decide)).mp h), ?_⟩
    have := hc.2.2
    omega
  · have hle := le_of_mem_utf8EncodeChar hbeyond hmem
    refine ⟨?_, ?_, by omega⟩
    · rintro rfl
      exact absurd hle (by decide)
    · rintro rfl
      exact absurd hle (by decide)

namespace Reader

/-- The loop moves over an unescaped character byte by byte. -/
lemma stringLoop_plain {c : Char} (hc : Unescaped c) (fuel : ℕ) (value : List Char)
    (start : ℕ) :
    stringLoop (fuel + c.utf8Size) (between before (c :: after)) value start =
      stringLoop fuel (between (before ++ [c]) after) value start := by
  have hbytes : ∀ k ≤ c.utf8Size,
      stringLoop (fuel + k) ⟨before ++ c :: after, byteLength before + (c.utf8Size - k)⟩ value
        start =
      stringLoop fuel ⟨before ++ c :: after, byteLength before + c.utf8Size⟩ value start := by
    intro k
    induction k with
    | zero => intro _; rfl
    | succ k ih =>
      intro hk
      have hinside : c.utf8Size - (k + 1) < (String.utf8EncodeChar c).length := by
        rw [String.length_utf8EncodeChar]
        omega
      have hpeek : peek ⟨before ++ c :: after, byteLength before + (c.utf8Size - (k + 1))⟩ =
          some ((String.utf8EncodeChar c)[c.utf8Size - (k + 1)]) := by
        unfold peek
        rw [utf8_getElem?_inside before c after (by omega), List.getElem?_eq_getElem hinside]
      have hbyte := hc.bytes (List.getElem_mem hinside)
      have hstep : c.utf8Size - (k + 1) + 1 = c.utf8Size - k := by omega
      rw [← ih (by omega), ← Nat.add_assoc, stringLoop, hpeek]
      dsimp only
      rw [if_neg hbyte.1, if_neg hbyte.2.1, if_neg hbyte.2.2]
      unfold advance
      rw [Nat.add_assoc, hstep]
  have h := hbytes c.utf8Size (Nat.le_refl _)
  rw [Nat.sub_self, Nat.add_zero] at h
  have hend : between (before ++ [c]) after =
      ⟨before ++ c :: after, byteLength before + c.utf8Size⟩ := by
    simp [between]
  rw [hend]
  exact h

/-- At a quote the loop returns what it has collected and what has run up since. -/
lemma stringLoop_quote (fuel : ℕ) (run value : List Char) :
    stringLoop (fuel + 1) (between (before ++ run) ('"' :: after)) value (byteLength before) =
      .ok (value ++ run, between (before ++ run ++ ['"']) after) := by
  rw [stringLoop, peek_between_cons]
  refine (if_pos ((leadByte_eq_asciiByte (by decide)).mpr rfl)).trans ?_
  rw [since_between, ok_bind, advance_between_ascii _ (by decide)]
  rfl

/-- At a backslash the loop adds what has run up since and the escape's character. -/
lemma stringLoop_backslash (fuel : ℕ) (run value : List Char) :
    stringLoop (fuel + 1) (between (before ++ run) ('\\' :: after)) value (byteLength before) =
      (between (before ++ run ++ ['\\']) after).escape >>= fun (character, reader) =>
        stringLoop fuel reader (value ++ run ++ [character]) reader.position := by
  rw [stringLoop, peek_between_cons]
  refine (if_neg fun h => absurd ((leadByte_eq_asciiByte (by decide)).mp h) (by decide)).trans ?_
  refine (if_pos ((leadByte_eq_asciiByte (by decide)).mpr rfl)).trans ?_
  rw [since_between, ok_bind, advance_between_ascii _ (by decide)]

/-- The loop reads the rest of a string body and its closing quote, whatever has been
collected before. -/
lemma stringLoop_reads (count : ℕ) : ∀ (before after run value : List Char) (fuel : ℕ),
    after.length ≤ count → byteLength after < fuel →
    Reads (before ++ run) after
      (stringLoop fuel (between (before ++ run) after) value (byteLength before))
      fun token text => ∃ body decoded, token = body ++ ['"'] ∧ StringBody body decoded ∧
        text = value ++ run ++ decoded := by
  induction count with
  | zero =>
    intro before after run value fuel hcount hfuel
    rcases List.length_eq_zero_iff.mp (Nat.le_zero.mp hcount) with rfl
    rcases Nat.exists_eq_add_of_lt hfuel with ⟨fuel, rfl⟩
    rw [byteLength_nil, Nat.zero_add, stringLoop, peek_between_nil]
    exact Reads.fail
  | succ count ih =>
    intro before after run value fuel hcount hfuel
    cases after with
    | nil =>
      rcases Nat.exists_eq_add_of_lt hfuel with ⟨fuel, rfl⟩
      rw [byteLength_nil, Nat.zero_add, stringLoop, peek_between_nil]
      exact Reads.fail
    | cons c rest =>
      rw [byteLength_cons] at hfuel
      rw [List.length_cons] at hcount
      have hpos := c.utf8Size_pos
      rcases Nat.exists_eq_add_of_lt (show 0 < fuel by omega) with ⟨left, rfl⟩
      rw [Nat.zero_add] at hfuel ⊢
      by_cases hquote : c = '"'
      · rcases hquote with rfl
        rw [stringLoop_quote]
        refine Reads.ok ['"'] rfl rfl ⟨[], [], rfl, .nil, by simp⟩
      by_cases hbackslash : c = '\\'
      · rcases hbackslash with rfl
        rw [stringLoop_backslash]
        apply Reads.after_token ['\\']
        apply Reads.bind escape_reads
        rintro mark rest' character rfl hmark
        rw [List.length_append] at hcount
        rw [byteLength_append] at hfuel
        have hnext := ih (before ++ run ++ ['\\'] ++ mark) rest' []
          (value ++ run ++ [character]) left (by omega) (by omega)
        rw [List.append_nil] at hnext
        apply hnext.mono
        rintro token text ⟨body, decoded, rfl, hbody, rfl⟩
        exact ⟨'\\' :: (mark ++ body), character :: decoded, by simp, .escape hmark hbody,
          by simp⟩
      by_cases hcontrol : c.toNat ≤ 0x1f
      · have hascii : c.toNat < 128 := by omega
        rw [stringLoop, peek_between_cons]
        dsimp only
        rw [if_neg fun h => hquote ((leadByte_eq_asciiByte (by decide)).mp h),
          if_neg fun h => hbackslash ((leadByte_eq_asciiByte (by decide)).mp h),
          toNat_leadByte_of_ascii hascii, if_pos hcontrol]
        exact Reads.fail
      · have hc : Unescaped c := ⟨hquote, hbackslash, by omega⟩
        rcases Nat.exists_eq_add_of_le (show c.utf8Size ≤ left + 1 by omega) with ⟨left', hleft⟩
        rw [hleft, Nat.add_comm, stringLoop_plain hc]
        apply Reads.after_token [c]
        have hnext := ih before rest (run ++ [c]) value left' (by omega) (by omega)
        rw [← List.append_assoc] at hnext
        apply hnext.mono
        rintro token text ⟨body, decoded, rfl, hbody, rfl⟩
        exact ⟨c :: body, c :: decoded, by simp, .plain hc hbody, by simp⟩

lemma stringLoop_between {body decoded : List Char} (h : StringBody body decoded) :
    ∀ (before run value : List Char) (fuel : ℕ), byteLength body < fuel →
    stringLoop fuel (between (before ++ run) (body ++ '"' :: after)) value (byteLength before) =
      .ok (value ++ run ++ decoded, between (before ++ run ++ body ++ ['"']) after) := by
  induction h with
  | nil =>
    intro before run value fuel hfuel
    rcases Nat.exists_eq_add_of_lt hfuel with ⟨fuel, rfl⟩
    rw [List.nil_append, stringLoop_quote, List.append_nil, List.append_nil]
  | @plain c body decoded hc _ ih =>
    intro before run value fuel hfuel
    rw [byteLength_cons] at hfuel
    rcases Nat.exists_eq_add_of_le (show c.utf8Size ≤ fuel by omega) with ⟨fuel, rfl⟩
    have hnext := ih before (run ++ [c]) value fuel (by omega)
    rw [List.cons_append, Nat.add_comm, stringLoop_plain hc, List.append_assoc before, hnext]
    simp
  | @escape mark body decoded c hmark _ ih =>
    intro before run value fuel hfuel
    rw [byteLength_cons, byteLength_append] at hfuel
    rcases Nat.exists_eq_add_of_lt (show 0 < fuel by omega) with ⟨fuel, rfl⟩
    rw [Nat.zero_add] at hfuel ⊢
    have hnext := ih (before ++ run ++ ['\\'] ++ mark) [] (value ++ run ++ [c]) fuel
      (by have := ('\\').utf8Size_pos; omega)
    rw [List.append_nil] at hnext
    rw [List.cons_append, stringLoop_backslash, List.append_assoc mark, escape_between hmark,
      ok_bind]
    dsimp only
    rw [position_between, hnext]
    simp

/-- `string` reads a string token. -/
lemma string_reads :
    Reads before ('"' :: after) (between before ('"' :: after)).string
      fun token text => ∃ body, token = '"' :: (body ++ ['"']) ∧ StringBody body text := by
  unfold string
  rw [advance_between_ascii before (by decide)]
  apply Reads.after_token ['"']
  have hfuel : byteLength after < byteLength (between (before ++ ['"']) after).text + 1 := by
    rw [text_between]
    simp only [byteLength_append]
    omega
  have h := stringLoop_reads after.length (before ++ ['"']) after [] [] _ (Nat.le_refl _) hfuel
  rw [List.append_nil] at h
  apply h.mono
  rintro token text ⟨body, decoded, rfl, hbody, rfl⟩
  exact ⟨body, rfl, hbody⟩

lemma string_between {body decoded : List Char} (h : StringBody body decoded) :
    (between before ('"' :: (body ++ '"' :: after))).string =
      .ok (decoded, between (before ++ '"' :: (body ++ ['"'])) after) := by
  unfold string
  rw [advance_between_ascii before (by decide)]
  have hfuel : byteLength body <
      byteLength (between (before ++ ['"']) (body ++ '"' :: after)).text + 1 := by
    rw [text_between]
    simp only [byteLength_append]
    omega
  have h := @stringLoop_between after _ _ h (before ++ ['"']) [] [] _ hfuel
  rw [List.append_nil] at h
  dsimp only
  rw [position_between, h]
  simp

end Reader

end Loop

end DoomFishUtils.Json
