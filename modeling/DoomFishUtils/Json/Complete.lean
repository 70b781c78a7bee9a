import DoomFishUtils.Json.Sound

/-!
# What the grammar derives is accepted by the parser

By induction on the derivation, with the text behind the phrase arbitrary except that it must
not continue a number.
-/

namespace DoomFishUtils.Json

set_option autoImplicit false

open DoomFishUtils.Library

variable {F : Type} {floats : Floats F}

section Ends

lemma endsNumber_nil : EndsNumber [] := by
  simp [EndsNumber]

lemma endsNumber_cons {c : Char} {rest : List Char}
    (hc : c.isDigit = false ∧ c ≠ '.' ∧ c ≠ 'e' ∧ c ≠ 'E') : EndsNumber (c :: rest) := by
  intro d hd
  rcases Option.some.inj hd with rfl
  exact hc

lemma endsNumber_blank {blank rest : List Char} (hblank : Blank blank) (hrest : EndsNumber rest) :
    EndsNumber (blank ++ rest) := by
  cases blank with
  | nil => exact hrest
  | cons c blank =>
    have hc := hblank c List.mem_cons_self
    simp only [isBlank, decide_eq_true_eq] at hc
    apply endsNumber_cons
    rcases hc with rfl | rfl | rfl | rfl <;> decide

/-- A value starts with a character that is neither blank nor a closing bracket. -/
lemma head_of_denotes {depth : ℕ} {token : List Char} {v : Value F}
    (h : Denotes floats depth token (.value v)) :
    ∃ c rest, token = c :: rest ∧ isBlank c = false ∧ c ≠ ']' := by
  generalize hphrase : Phrase.value v = phrase at h
  cases h with
  | null => exact ⟨_, _, rfl, by decide, by decide⟩
  | true => exact ⟨_, _, rfl, by decide, by decide⟩
  | false => exact ⟨_, _, rfl, by decide, by decide⟩
  | number htoken =>
    rcases htoken with ⟨hsign, hint, -, -⟩
    rcases hsign with rfl | rfl
    · cases hint with
      | zero => exact ⟨_, _, rfl, by decide, by decide⟩
      | @digits first rest hfirst =>
        have hdigit := isDigit_iff.mp hfirst
        refine ⟨first, _, rfl, ?_, ?_⟩
        · simp only [isBlank, decide_eq_false_iff_not]
          rintro (rfl | rfl | rfl | rfl) <;> exact absurd hdigit (by decide)
        · rintro rfl
          exact absurd hdigit (by decide)
    · exact ⟨_, _, rfl, by decide, by decide⟩
  | string => exact ⟨_, _, rfl, by decide, by decide⟩
  | emptyArray => exact ⟨_, _, rfl, by decide, by decide⟩
  | array => exact ⟨_, _, rfl, by decide, by decide⟩
  | emptyObject => exact ⟨_, _, rfl, by decide, by decide⟩
  | object => exact ⟨_, _, rfl, by decide, by decide⟩
  | element => cases hphrase
  | elements => cases hphrase
  | member => cases hphrase
  | members => cases hphrase

end Ends

namespace Reader

variable {before blank rest : List Char} {limit fuel depth : ℕ}

/-- `value` skips whitespace and then looks at one character. -/
lemma value_blank (hblank : Blank blank) {c : Char} (hc : isBlank c = false) :
    value floats limit (fuel + 1) (between before (blank ++ c :: rest)) depth =
      if (c = '{' ∨ c = '[') ∧ limit ≤ depth then
        (between (before ++ blank) (c :: rest)).fail "nesting limit exceeded"
      else if c = '{' then
        object floats limit fuel (between (before ++ blank) (c :: rest)) (depth + 1)
      else if c = '[' then
        array floats limit fuel (between (before ++ blank) (c :: rest)) (depth + 1)
      else if c = '"' then do
        let (text, reader) ← (between (before ++ blank) (c :: rest)).string
        return (.string text, reader)
      else if c = '-' ∨ c.isDigit = true then
        (between (before ++ blank) (c :: rest)).number floats
      else if c = 't' then
        (between (before ++ blank) (c :: rest)).literal ['t', 'r', 'u', 'e'] 4 (.bool true)
      else if c = 'f' then
        (between (before ++ blank) (c :: rest)).literal ['f', 'a', 'l', 's', 'e'] 5
          (.bool false)
      else if c = 'n' then
        (between (before ++ blank) (c :: rest)).literal ['n', 'u', 'l', 'l'] 4 .null
      else
        (between (before ++ blank) (c :: rest)).fail "expected a JSON value" := by
  have hhead : ∀ d, (c :: rest).head? = some d → isBlank d = false := by
    intro d hd
    rcases Option.some.inj hd with rfl
    exact hc
  rw [value, whitespace_of_blank before hblank hhead]
  simp only [peek_between_cons, Option.any_some, Option.some.injEq, isDigit_leadByte,
    leadByte_eq_asciiByte (show '{'.toNat < 128 by decide),
    leadByte_eq_asciiByte (show '['.toNat < 128 by decide),
    leadByte_eq_asciiByte (show '"'.toNat < 128 by decide),
    leadByte_eq_asciiByte (show '-'.toNat < 128 by decide),
    leadByte_eq_asciiByte (show 't'.toNat < 128 by decide),
    leadByte_eq_asciiByte (show 'f'.toNat < 128 by decide),
    leadByte_eq_asciiByte (show 'n'.toNat < 128 by decide)]

lemma literal_between {word : List Char} {length : ℕ} (v : Value F)
    (hlength : length = byteLength word) :
    (between before (word ++ rest)).literal word length v =
      .ok (v, between (before ++ word) rest) := by
  unfold literal
  rw [remaining_between, ok_bind, if_pos (List.isPrefixOf_iff_prefix.mpr ⟨rest, rfl⟩), hlength,
    advance_between]
  rfl

end Reader

/-- What the reader does in front of a phrase of the grammar. -/
def Accepted (floats : Floats F) (nested : ℕ) (text : List Char) : Phrase F → Prop
  | .value v => ∀ (limit depth fuel : ℕ) (before blank rest : List Char),
      nested + depth ≤ limit → Blank blank → EndsNumber rest →
      3 * byteLength text + 3 ≤ fuel →
      Reader.value floats limit fuel (Reader.between before (blank ++ (text ++ rest))) depth =
        .ok (v, Reader.between (before ++ (blank ++ text)) rest)
  | .elements values => ∀ (limit depth fuel : ℕ) (before rest : List Char)
      (collected : List (Value F)), nested + depth ≤ limit → 3 * byteLength text + 4 ≤ fuel →
      Reader.elements floats limit fuel (Reader.between before (text ++ ']' :: rest)) depth
          collected =
        .ok (.array (collected ++ values), Reader.between (before ++ (text ++ [']'])) rest)
  | .members values => ∀ (limit depth fuel : ℕ) (before rest : List Char)
      (entries : List (List Char × Value F)), nested + depth ≤ limit →
      3 * byteLength text + 4 ≤ fuel →
      Reader.members floats limit fuel (Reader.between before (text ++ '}' :: rest)).whitespace
          depth entries =
        .ok (.object (values.foldl (fun entries member =>
            insertEntry member.1 member.2 entries) entries),
          Reader.between (before ++ (text ++ ['}'])) rest)

section Cases

variable {nested : ℕ} {text : List Char}

lemma accepted_number {float : Bool} {v : Value F} (htoken : NumberToken float text)
    (hvalue : NumberValue floats float text v) : Accepted floats nested text (.value v) := by
  intro limit depth fuel before blank rest _ hblank hrest hfuel
  rcases Nat.exists_eq_add_of_lt (show 0 < fuel by omega) with ⟨fuel, rfl⟩
  have hnumber := @Reader.number_between F (before ++ blank) floats _ _ _ _ htoken hvalue hrest
  have hhead : ∃ c tail, text = c :: tail ∧ (c = '-' ∨ c.isDigit = true) := by
    rcases htoken with ⟨hsign, hint, -, -⟩
    rcases hsign with rfl | rfl
    · cases hint with
      | zero => exact ⟨'0', _, rfl, .inr rfl⟩
      | digits hfirst => exact ⟨_, _, rfl, .inr hfirst⟩
    · exact ⟨'-', _, rfl, .inl rfl⟩
  rcases hhead with ⟨c, tail, rfl, hc⟩
  have hother : isBlank c = false ∧ c ≠ '{' ∧ c ≠ '[' ∧ c ≠ '"' := by
    rcases hc with rfl | hc
    · decide
    · have hdigit := isDigit_iff.mp hc
      refine ⟨?_, ?_, ?_, ?_⟩
      · simp only [isBlank, decide_eq_false_iff_not]
        rintro (rfl | rfl | rfl | rfl) <;> exact absurd hdigit (by decide)
      all_goals
        rintro rfl
        exact absurd hdigit (by decide)
  rcases hother with ⟨hnotBlank, hbrace, hbracket, hquote⟩
  rw [Nat.zero_add, List.cons_append, Reader.value_blank hblank hnotBlank,
    if_neg fun h => h.1.elim hbrace hbracket, if_neg hbrace, if_neg hbracket, if_neg hquote,
    if_pos hc, ← List.cons_append, hnumber, List.append_assoc]

lemma accepted_string {body decoded : List Char} (h : StringBody body decoded) :
    Accepted floats nested ('"' :: (body ++ ['"'])) (.value (.string decoded)) := by
  intro limit depth fuel before blank rest _ hblank _ hfuel
  rcases Nat.exists_eq_add_of_lt (show 0 < fuel by omega) with ⟨fuel, rfl⟩
  have hstring := @Reader.string_between (before ++ blank) rest _ _ h
  have hquote : ¬(('"' = '{' ∨ '"' = '[') ∧ limit ≤ depth) := by simp
  rw [Nat.zero_add, List.cons_append, Reader.value_blank hblank (by decide), if_neg hquote,
    if_neg (by decide), if_neg (by decide), if_pos rfl, List.append_assoc, List.singleton_append,
    hstring, ok_bind, List.append_assoc]
  rfl

lemma accepted_literal {c : Char} {word : List Char} {v : Value F} {length : ℕ}
    (hlength : length = byteLength (c :: word))
    (hdispatch : ∀ (limit depth fuel : ℕ) (before blank rest : List Char), Blank blank →
      Reader.value floats limit (fuel + 1) (Reader.between before (blank ++ c :: rest)) depth =
        (Reader.between (before ++ blank) (c :: rest)).literal (c :: word) length v) :
    Accepted floats nested (c :: word) (.value v) := by
  intro limit depth fuel before blank rest _ hblank _ hfuel
  rcases Nat.exists_eq_add_of_lt (show 0 < fuel by omega) with ⟨fuel, rfl⟩
  rw [Nat.zero_add, List.cons_append, hdispatch _ _ _ _ _ _ hblank, ← List.cons_append,
    Reader.literal_between v hlength, List.append_assoc]

/-- A container is entered below the limit. -/
lemma accepted_array {values : List (Value F)}
    (h : ∀ (limit depth fuel : ℕ) (before rest : List Char), nested + depth ≤ limit →
      3 * byteLength text + 5 ≤ fuel →
      Reader.array floats limit fuel (Reader.between before ('[' :: (text ++ ']' :: rest)))
          depth =
        .ok (.array values, Reader.between (before ++ '[' :: (text ++ [']'])) rest)) :
    Accepted floats (nested + 1) ('[' :: (text ++ [']'])) (.value (.array values)) := by
  intro limit depth fuel before blank rest hdepth hblank _ hfuel
  have hsize : '['.utf8Size = 1 ∧ ']'.utf8Size = 1 := ⟨rfl, rfl⟩
  simp only [byteLength_cons, byteLength_append, byteLength_nil, hsize.1, hsize.2] at hfuel
  rcases Nat.exists_eq_add_of_lt (show 0 < fuel by omega) with ⟨fuel, rfl⟩
  rw [Nat.zero_add, List.cons_append, Reader.value_blank hblank (by decide),
    if_neg fun h => by omega, if_neg (by decide), if_pos rfl, List.append_assoc,
    List.singleton_append, h _ _ _ _ _ (by omega) (by omega), List.append_assoc]

lemma accepted_object {values : List (List Char × Value F)}
    (h : ∀ (limit depth fuel : ℕ) (before rest : List Char), nested + depth ≤ limit →
      3 * byteLength text + 5 ≤ fuel →
      Reader.object floats limit fuel (Reader.between before ('{' :: (text ++ '}' :: rest)))
          depth =
        .ok (.object values, Reader.between (before ++ '{' :: (text ++ ['}'])) rest)) :
    Accepted floats (nested + 1) ('{' :: (text ++ ['}'])) (.value (.object values)) := by
  intro limit depth fuel before blank rest hdepth hblank _ hfuel
  have hsize : '{'.utf8Size = 1 ∧ '}'.utf8Size = 1 := ⟨rfl, rfl⟩
  simp only [byteLength_cons, byteLength_append, byteLength_nil, hsize.1, hsize.2] at hfuel
  rcases Nat.exists_eq_add_of_lt (show 0 < fuel by omega) with ⟨fuel, rfl⟩
  rw [Nat.zero_add, List.cons_append, Reader.value_blank hblank (by decide),
    if_neg fun h => by omega, if_pos rfl, List.append_assoc, List.singleton_append,
    h _ _ _ _ _ (by omega) (by omega), List.append_assoc]

/-- Behind its opening bracket a container skips whitespace and looks for its closing one. -/
lemma array_between {floats : Floats F} {limit fuel depth : ℕ} {before blank rest : List Char}
    (hblank : Blank blank) (hrest : ∀ c, rest.head? = some c → isBlank c = false) :
    Reader.array floats limit (fuel + 1) (Reader.between before ('[' :: (blank ++ rest))) depth =
      if (Reader.between (before ++ '[' :: blank) rest).peek = some (asciiByte ']') then
        .ok (.array [], (Reader.between (before ++ '[' :: blank) rest).advance 1)
      else
        Reader.elements floats limit fuel (Reader.between (before ++ '[' :: blank) rest) depth
          [] := by
  rw [Reader.array, Reader.advance_between_ascii before (by decide),
    Reader.whitespace_of_blank _ hblank hrest, List.append_assoc, List.singleton_append]
  unfold Reader.consume
  split_ifs <;> rfl

lemma object_between {floats : Floats F} {limit fuel depth : ℕ} {before blank rest : List Char}
    (hblank : Blank blank) (hrest : ∀ c, rest.head? = some c → isBlank c = false) :
    Reader.object floats limit (fuel + 1) (Reader.between before ('{' :: (blank ++ rest))) depth =
      if (Reader.between (before ++ '{' :: blank) rest).peek = some (asciiByte '}') then
        .ok (.object [], (Reader.between (before ++ '{' :: blank) rest).advance 1)
      else
        Reader.members floats limit fuel (Reader.between (before ++ '{' :: blank) rest) depth
          [] := by
  rw [Reader.object, Reader.advance_between_ascii before (by decide),
    Reader.whitespace_of_blank _ hblank hrest, List.append_assoc, List.singleton_append]
  unfold Reader.consume
  split_ifs <;> rfl

lemma whitespace_whitespace (before after : List Char) :
    (Reader.between before after).whitespace.whitespace =
      (Reader.between before after).whitespace := by
  have hhead : ∀ c, (after.dropWhile isBlank).head? = some c → isBlank c = false := by
    intro c hc
    have h := List.head?_dropWhile_not isBlank after
    rw [hc] at h
    simpa using h
  have hnil : Blank [] := by simp [Blank]
  rw [Reader.whitespace_between]
  simpa using Reader.whitespace_of_blank (before ++ after.takeWhile isBlank) hnil hhead

/-- The array loop may start in front of the whitespace or behind it. -/
lemma elements_whitespace {limit fuel depth : ℕ} {before after : List Char}
    {collected : List (Value F)} :
    Reader.elements floats limit (fuel + 2) (Reader.between before after).whitespace depth
        collected =
      Reader.elements floats limit (fuel + 2) (Reader.between before after) depth collected := by
  have hvalue : Reader.value floats limit (fuel + 1) (Reader.between before after).whitespace
        depth =
      Reader.value floats limit (fuel + 1) (Reader.between before after) depth := by
    rw [Reader.value, Reader.value, whitespace_whitespace]
  rw [Reader.elements, Reader.elements, hvalue]

lemma head_of_elements {values : List (Value F)}
    (h : Denotes floats nested text (.elements values)) :
    ∃ front c tail, text = front ++ c :: tail ∧ Blank front ∧ isBlank c = false ∧ c ≠ ']' := by
  cases h with
  | element hfront hvalue =>
    rcases head_of_denotes hvalue with ⟨c, tail, rfl, hc⟩
    exact ⟨_, c, _, rfl, hfront, hc⟩
  | elements hfront hvalue =>
    rcases head_of_denotes hvalue with ⟨c, tail, rfl, hc⟩
    exact ⟨_, c, _, rfl, hfront, hc⟩

lemma head_of_members {values : List (List Char × Value F)}
    (h : Denotes floats nested text (.members values)) :
    ∃ front tail, text = front ++ '"' :: tail ∧ Blank front := by
  cases h with
  | member hbefore => exact ⟨_, _, rfl, hbefore⟩
  | members hbefore => exact ⟨_, _, rfl, hbefore⟩

lemma head_cons_not_blank {c : Char} (hc : isBlank c = false) (rest : List Char) :
    ∀ d, (c :: rest).head? = some d → isBlank d = false := by
  intro d hd
  rcases Option.some.inj hd with rfl
  exact hc

lemma accepted_emptyArray {blank : List Char} (hblank : Blank blank) :
    Accepted floats (nested + 1) ('[' :: (blank ++ [']'])) (.value (.array [])) := by
  apply accepted_array
  intro limit depth fuel before rest _ hfuel
  rcases Nat.exists_eq_add_of_lt (show 0 < fuel by omega) with ⟨fuel, rfl⟩
  rw [Nat.zero_add, array_between hblank (head_cons_not_blank (by decide) _),
    if_pos ((Reader.peek_between_eq _ (by decide)).mpr rfl),
    Reader.advance_between_ascii _ (by decide), List.append_assoc, List.cons_append]

lemma accepted_emptyObject {blank : List Char} (hblank : Blank blank) :
    Accepted floats (nested + 1) ('{' :: (blank ++ ['}'])) (.value (.object [])) := by
  apply accepted_object
  intro limit depth fuel before rest _ hfuel
  rcases Nat.exists_eq_add_of_lt (show 0 < fuel by omega) with ⟨fuel, rfl⟩
  rw [Nat.zero_add, object_between hblank (head_cons_not_blank (by decide) _),
    if_pos ((Reader.peek_between_eq _ (by decide)).mpr rfl),
    Reader.advance_between_ascii _ (by decide), List.append_assoc, List.cons_append]

lemma accepted_elements_array {values : List (Value F)}
    (h : Denotes floats nested text (.elements values))
    (ih : Accepted floats nested text (.elements values)) :
    Accepted floats (nested + 1) ('[' :: (text ++ [']'])) (.value (.array values)) := by
  apply accepted_array
  intro limit depth fuel before rest hdepth hfuel
  rcases head_of_elements h with ⟨front, c, tail, rfl, hfront, hc, hne⟩
  rcases Nat.exists_eq_add_of_le (show 3 ≤ fuel by omega) with ⟨fuel, rfl⟩
  have hbody := ih limit depth (fuel + 2) (before ++ ['[']) rest [] hdepth (by omega)
  have hnotBlank := head_cons_not_blank hc (tail ++ ']' :: rest)
  rw [← elements_whitespace, List.append_assoc front, List.cons_append,
    Reader.whitespace_of_blank _ hfront hnotBlank] at hbody
  rw [Nat.add_comm, List.append_assoc, List.cons_append, array_between hfront hnotBlank,
    if_neg (Reader.peek_between_ne _ (by decide) hne _)]
  simp only [List.append_assoc, List.cons_append,
    List.nil_append] at hbody ⊢
  exact hbody

lemma accepted_members_object {values entries : List (List Char × Value F)}
    (h : Denotes floats nested text (.members values)) (hlast : LastWins values entries)
    (ih : Accepted floats nested text (.members values)) :
    Accepted floats (nested + 1) ('{' :: (text ++ ['}'])) (.value (.object entries)) := by
  apply accepted_object
  intro limit depth fuel before rest hdepth hfuel
  rcases head_of_members h with ⟨front, tail, rfl, hfront⟩
  rcases Nat.exists_eq_add_of_lt (show 0 < fuel by omega) with ⟨fuel, rfl⟩
  have hbody := ih limit depth fuel (before ++ ['{']) rest [] hdepth (by omega)
  have hnotBlank := head_cons_not_blank (show isBlank '"' = false by decide) (tail ++ '}' :: rest)
  rw [List.append_assoc front, List.cons_append,
    Reader.whitespace_of_blank _ hfront hnotBlank] at hbody
  rw [Nat.zero_add, List.append_assoc, List.cons_append, object_between hfront hnotBlank,
    if_neg (Reader.peek_between_ne _ (by decide) (by decide) _),
    hlast.unique (lastWins_foldl values)]
  simp only [List.append_assoc, List.cons_append,
    List.nil_append] at hbody ⊢
  exact hbody

lemma accepted_element {front token back : List Char} {v : Value F} (hfront : Blank front)
    (ih : Accepted floats nested token (.value v)) (hback : Blank back) :
    Accepted floats nested (front ++ (token ++ back)) (.elements [v]) := by
  intro limit depth fuel before rest collected hdepth hfuel
  rcases Nat.exists_eq_add_of_lt (show 0 < fuel by omega) with ⟨fuel, rfl⟩
  simp only [byteLength_append] at hfuel
  have hends : EndsNumber (back ++ ']' :: rest) :=
    endsNumber_blank hback (endsNumber_cons (by decide))
  have hvalue := ih limit depth fuel before front (back ++ ']' :: rest) hdepth hfront hends
    (by omega)
  rw [Nat.zero_add, Reader.elements, List.append_assoc, List.append_assoc, hvalue, ok_bind]
  dsimp only
  rw [Reader.whitespace_of_blank _ hback (head_cons_not_blank (by decide) _),
    Reader.consume_between_cons _ (by decide)]
  simp only [List.append_assoc]
  rfl

lemma accepted_elements {front token back : List Char} {v : Value F} {values : List (Value F)}
    (hfront : Blank front) (ih : Accepted floats nested token (.value v)) (hback : Blank back)
    (ihrest : Accepted floats nested text (.elements values)) :
    Accepted floats nested (front ++ (token ++ (back ++ ',' :: text)))
      (.elements (v :: values)) := by
  intro limit depth fuel before rest collected hdepth hfuel
  rcases Nat.exists_eq_add_of_lt (show 0 < fuel by omega) with ⟨fuel, rfl⟩
  have hsize : ','.utf8Size = 1 := rfl
  simp only [byteLength_append, byteLength_cons, hsize] at hfuel
  have hends : EndsNumber (back ++ ',' :: (text ++ ']' :: rest)) :=
    endsNumber_blank hback (endsNumber_cons (by decide))
  have hvalue := ih limit depth fuel before front (back ++ ',' :: (text ++ ']' :: rest)) hdepth
    hfront hends (by omega)
  have hloop := ihrest limit depth fuel (before ++ (front ++ token) ++ back ++ [',']) rest
    (collected ++ [v]) hdepth (by omega)
  rw [Nat.zero_add, Reader.elements]
  simp only [List.append_assoc, List.cons_append] at hvalue hloop ⊢
  rw [hvalue, ok_bind]
  dsimp only
  rw [Reader.whitespace_of_blank _ hback (head_cons_not_blank (by decide) _),
    Reader.consume_between_of_ne _ (by decide) (by simp)]
  dsimp only
  rw [if_neg (by decide), expect_between (by decide), ok_bind]
  simp only [List.append_assoc, List.nil_append] at hloop ⊢
  exact hloop

lemma accepted_member {before body key after front token back : List Char} {v : Value F}
    (hbefore : Blank before) (hkey : StringBody body key) (hafter : Blank after)
    (hfront : Blank front) (ih : Accepted floats nested token (.value v)) (hback : Blank back) :
    Accepted floats nested
      (before ++ '"' :: (body ++ '"' :: (after ++ ':' :: (front ++ (token ++ back)))))
      (.members [(key, v)]) := by
  intro limit depth fuel prior rest entries hdepth hfuel
  rcases Nat.exists_eq_add_of_lt (show 0 < fuel by omega) with ⟨fuel, rfl⟩
  simp only [byteLength_append, byteLength_cons] at hfuel
  have hends : EndsNumber (back ++ '}' :: rest) :=
    endsNumber_blank hback (endsNumber_cons (by decide))
  have hvalue := ih limit depth fuel
    (prior ++ before ++ '"' :: (body ++ ['"']) ++ after ++ [':']) front (back ++ '}' :: rest)
    hdepth hfront hends (by omega)
  simp only [List.append_assoc, List.cons_append] at hvalue ⊢
  rw [Reader.whitespace_of_blank _ hbefore (head_cons_not_blank (by decide) _), Nat.zero_add,
    Reader.members, if_neg fun h => h ((Reader.peek_between_eq _ (by decide)).mpr rfl),
    Reader.string_between hkey, ok_bind]
  dsimp only
  rw [Reader.whitespace_of_blank _ hafter (head_cons_not_blank (by decide) _),
    expect_between (by decide), ok_bind]
  simp only [List.append_assoc, List.cons_append, List.nil_append] at hvalue ⊢
  rw [hvalue, ok_bind]
  dsimp only
  rw [Reader.whitespace_of_blank _ hback (head_cons_not_blank (by decide) _),
    Reader.consume_between_cons _ (by decide)]
  simp only [List.append_assoc, List.cons_append]
  rfl

lemma accepted_members {before body key after front token back : List Char} {v : Value F}
    {values : List (List Char × Value F)} (hbefore : Blank before) (hkey : StringBody body key)
    (hafter : Blank after) (hfront : Blank front) (ih : Accepted floats nested token (.value v))
    (hback : Blank back) (ihrest : Accepted floats nested text (.members values)) :
    Accepted floats nested
      (before ++ '"' :: (body ++ '"' ::
        (after ++ ':' :: (front ++ (token ++ (back ++ ',' :: text))))))
      (.members ((key, v) :: values)) := by
  intro limit depth fuel prior rest entries hdepth hfuel
  rcases Nat.exists_eq_add_of_lt (show 0 < fuel by omega) with ⟨fuel, rfl⟩
  have hsize : ','.utf8Size = 1 := rfl
  simp only [byteLength_append, byteLength_cons, hsize] at hfuel
  have hends : EndsNumber (back ++ ',' :: (text ++ '}' :: rest)) :=
    endsNumber_blank hback (endsNumber_cons (by decide))
  have hvalue := ih limit depth fuel
    (prior ++ before ++ '"' :: (body ++ ['"']) ++ after ++ [':']) front
    (back ++ ',' :: (text ++ '}' :: rest)) hdepth hfront hends (by omega)
  have hloop := ihrest limit depth fuel
    (prior ++ before ++ '"' :: (body ++ ['"']) ++ after ++ [':'] ++ (front ++ token) ++ back ++
      [',']) rest (insertEntry key v entries) hdepth (by omega)
  simp only [List.append_assoc, List.cons_append] at hvalue hloop ⊢
  rw [Reader.whitespace_of_blank _ hbefore (head_cons_not_blank (by decide) _), Nat.zero_add,
    Reader.members, if_neg fun h => h ((Reader.peek_between_eq _ (by decide)).mpr rfl),
    Reader.string_between hkey, ok_bind]
  dsimp only
  rw [Reader.whitespace_of_blank _ hafter (head_cons_not_blank (by decide) _),
    expect_between (by decide), ok_bind]
  simp only [List.append_assoc, List.cons_append, List.nil_append] at hvalue ⊢
  rw [hvalue, ok_bind]
  dsimp only
  rw [Reader.whitespace_of_blank _ hback (head_cons_not_blank (by decide) _),
    Reader.consume_between_of_ne _ (by decide) (by simp)]
  dsimp only
  rw [if_neg (by decide), expect_between (by decide), ok_bind]
  simp only [List.append_assoc, List.cons_append, List.nil_append] at hloop ⊢
  exact hloop

end Cases

/-- The reader accepts every phrase of the grammar. -/
theorem accepted_of_denotes {nested : ℕ} {text : List Char} {phrase : Phrase F}
    (h : Denotes floats nested text phrase) : Accepted floats nested text phrase := by
  induction h with
  | null =>
    apply accepted_literal rfl
    intro limit depth fuel before blank rest hblank
    rw [Reader.value_blank hblank (by decide)]
    rfl
  | true =>
    apply accepted_literal rfl
    intro limit depth fuel before blank rest hblank
    rw [Reader.value_blank hblank (by decide)]
    rfl
  | false =>
    apply accepted_literal rfl
    intro limit depth fuel before blank rest hblank
    rw [Reader.value_blank hblank (by decide)]
    rfl
  | number htoken hvalue => exact accepted_number htoken hvalue
  | string hbody => exact accepted_string hbody
  | emptyArray hblank => exact accepted_emptyArray hblank
  | array h ih => exact accepted_elements_array h ih
  | emptyObject hblank => exact accepted_emptyObject hblank
  | object h hlast ih => exact accepted_members_object h hlast ih
  | element hfront _ hback ih => exact accepted_element hfront ih hback
  | elements hfront _ hback _ ih ihrest => exact accepted_elements hfront ih hback ihrest
  | member hbefore hkey hafter hfront _ hback ih =>
    exact accepted_member hbefore hkey hafter hfront ih hback
  | members hbefore hkey hafter hfront _ hback _ ih ihrest =>
    exact accepted_members hbefore hkey hafter hfront ih hback ihrest

/-- Parsing returns what the grammar says a text denotes. -/
theorem parseWithin_of_document {limit : ℕ} {text : List Char} {v : Value F}
    (h : Document floats limit text v) : parseWithin floats limit text = .ok v := by
  rcases h with ⟨front, token, back, rfl, hfront, htoken, hback⟩
  have hends : EndsNumber back := by
    have h := endsNumber_blank hback endsNumber_nil
    rwa [List.append_nil] at h
  have hnil : ∀ c, ([] : List Char).head? = some c → isBlank c = false := by simp
  have hvalue := accepted_of_denotes htoken limit 0
    (3 * byteLength (front ++ (token ++ back)) + 4) [] front back (Nat.le_refl _) hfront hends
    (by simp only [byteLength_append]; omega)
  have hrest := Reader.whitespace_of_blank ([] ++ (front ++ token)) hback hnil
  rw [List.append_nil] at hrest
  unfold parseWithin
  refine (congrArg (· >>= _) hvalue).trans ?_
  rw [ok_bind]
  dsimp only
  rw [hrest]
  refine if_neg (not_not_intro ?_)
  simp

/-- Parsing accepts exactly the texts of the strict grammar and returns what they denote. -/
theorem parse_eq_ok_iff (floats : Floats F) (text : List Char) (v : Value F) :
    parse floats text = .ok v ↔ Document floats nestingLimit text v :=
  ⟨fun h => (parseWithin_yields floats nestingLimit text).of_eq_ok h, parseWithin_of_document⟩

end DoomFishUtils.Json
