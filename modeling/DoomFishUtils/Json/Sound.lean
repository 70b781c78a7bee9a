import DoomFishUtils.Json.Numbers
import DoomFishUtils.Json.Strings

/-!
# What the parser accepts is derived by the grammar

By induction on the fuel, every reader function either reports an error or reads a phrase of
the grammar.  The fuel needed is linear in the bytes ahead, so that the parser never runs out.
-/

namespace DoomFishUtils.Json

set_option autoImplicit false

open DoomFishUtils.Library

variable {F : Type} {floats : Floats F} {before after : List Char}

section Phrases

lemma Blank.nil : Blank [] := by
  simp [Blank]

lemma Blank.append {first second : List Char} (hfirst : Blank first) (hsecond : Blank second) :
    Blank (first ++ second) :=
  List.forall_mem_append.mpr ⟨hfirst, hsecond⟩

/-- Whitespace in front of an object's first key belongs to the member. -/
lemma Denotes.blank_members {depth : ℕ} {blank text : List Char}
    {values : List (List Char × Value F)} (h : Denotes floats depth text (.members values))
    (hblank : Blank blank) : Denotes floats depth (blank ++ text) (.members values) := by
  cases h with
  | member hbefore hkey hafter hfront hvalue hback =>
    rw [← List.append_assoc]
    exact .member (hblank.append hbefore) hkey hafter hfront hvalue hback
  | members hbefore hkey hafter hfront hvalue hback hrest =>
    rw [← List.append_assoc]
    exact .members (hblank.append hbefore) hkey hafter hfront hvalue hback hrest

/-- Whitespace in front of an array's first value belongs to the element. -/
lemma Denotes.blank_elements {depth : ℕ} {blank text : List Char} {values : List (Value F)}
    (h : Denotes floats depth text (.elements values)) (hblank : Blank blank) :
    Denotes floats depth (blank ++ text) (.elements values) := by
  cases h with
  | element hfront hvalue hback =>
    rw [← List.append_assoc]
    exact .element (hblank.append hfront) hvalue hback
  | elements hfront hvalue hback hrest =>
    rw [← List.append_assoc]
    exact .elements (hblank.append hfront) hvalue hback hrest

lemma Reader.literal_reads {word : List Char} {length : ℕ} {value : Value F}
    (hlength : length = byteLength word) :
    Reads before after ((between before after).literal word length value)
      fun token v => token = word ∧ v = value := by
  unfold literal
  rw [remaining_between, ok_bind]
  split_ifs with hbefore
  · rcases List.isPrefixOf_iff_prefix.mp hbefore with ⟨rest, rfl⟩
    rw [hlength, advance_between]
    exact Reads.ok word rfl rfl ⟨rfl, rfl⟩
  · exact Reads.fail

end Phrases

/-- The specification of the five functions of the value reader at one amount of fuel. -/
structure ValueSpec (floats : Floats F) (limit fuel : ℕ) : Prop where
  value : ∀ (before after : List Char) (depth : ℕ), depth ≤ limit →
    3 * byteLength after + 3 ≤ fuel →
    Reads before after (Reader.value floats limit fuel (Reader.between before after) depth)
      fun token v => ∃ blank text, token = blank ++ text ∧ Blank blank ∧
        Denotes floats (limit - depth) text (.value v)
  object : ∀ (before after : List Char) (depth : ℕ), depth ≤ limit →
    3 * byteLength ('{' :: after) + 2 ≤ fuel →
    Reads before ('{' :: after)
      (Reader.object floats limit fuel (Reader.between before ('{' :: after)) depth)
      fun token v => Denotes floats (limit - depth + 1) token (.value v)
  members : ∀ (before after : List Char) (depth : ℕ) (entries : List (List Char × Value F)),
    depth ≤ limit → 3 * byteLength after + 4 ≤ fuel →
    Reads before after
      (Reader.members floats limit fuel (Reader.between before after) depth entries)
      fun token v => ∃ text values, token = text ++ ['}'] ∧
        Denotes floats (limit - depth) text (.members values) ∧
        v = .object (values.foldl (fun entries member =>
          insertEntry member.1 member.2 entries) entries)
  array : ∀ (before after : List Char) (depth : ℕ), depth ≤ limit →
    3 * byteLength ('[' :: after) + 2 ≤ fuel →
    Reads before ('[' :: after)
      (Reader.array floats limit fuel (Reader.between before ('[' :: after)) depth)
      fun token v => Denotes floats (limit - depth + 1) token (.value v)
  elements : ∀ (before after : List Char) (depth : ℕ) (collected : List (Value F)),
    depth ≤ limit → 3 * byteLength after + 4 ≤ fuel →
    Reads before after
      (Reader.elements floats limit fuel (Reader.between before after) depth collected)
      fun token v => ∃ text values, token = text ++ [']'] ∧
        Denotes floats (limit - depth) text (.elements values) ∧ v = .array (collected ++ values)

namespace Reader

variable {limit fuel : ℕ}

lemma value_reads (h : ValueSpec floats limit fuel) {depth : ℕ} (hdepth : depth ≤ limit)
    (hfuel : 3 * byteLength after + 3 ≤ fuel + 1) :
    Reads before after (value floats limit (fuel + 1) (between before after) depth)
      fun token v => ∃ blank text, token = blank ++ text ∧ Blank blank ∧
        Denotes floats (limit - depth) text (.value v) := by
  rcases exists_whitespace before after with ⟨blank, rest, rfl, hblank, heq⟩
  rw [value, heq]
  apply Reads.after_token blank
  have hphrase : ∀ {x : Except Failure (Value F × Reader)},
      (Reads (before ++ blank) rest x fun token v =>
        Denotes floats (limit - depth) token (.value v)) →
      Reads (before ++ blank) rest x fun token v => ∃ blank' text,
        blank ++ token = blank' ++ text ∧ Blank blank' ∧
          Denotes floats (limit - depth) text (.value v) :=
    fun hx => hx.mono fun token v hv => ⟨blank, token, rfl, hblank, hv⟩
  apply hphrase
  rw [byteLength_append] at hfuel
  -- a container is entered only below the limit
  have henter : limit - (depth + 1) + 1 = limit - depth ∨ limit ≤ depth := by omega
  simp only [peek_between_eq (before ++ blank) (show '{'.toNat < 128 by decide),
    peek_between_eq (before ++ blank) (show '['.toNat < 128 by decide),
    peek_between_eq (before ++ blank) (show '"'.toNat < 128 by decide)]
  refine Reads.ite (fun _ => Reads.fail) fun hlimit => ?_
  refine Reads.ite (fun hobject => ?_) fun _ => ?_
  · rcases List.head?_eq_some_iff.mp hobject with ⟨rest, rfl⟩
    rcases henter with henter | henter
    · rw [← henter]
      exact h.object _ _ _ (by omega) (by omega)
    · exact absurd ⟨.inl hobject, henter⟩ hlimit
  refine Reads.ite (fun harray => ?_) fun _ => ?_
  · rcases List.head?_eq_some_iff.mp harray with ⟨rest, rfl⟩
    rcases henter with henter | henter
    · rw [← henter]
      exact h.array _ _ _ (by omega) (by omega)
    · exact absurd ⟨.inr harray, henter⟩ hlimit
  refine Reads.ite (fun hstring => ?_) fun _ => ?_
  · rcases List.head?_eq_some_iff.mp hstring with ⟨rest, rfl⟩
    apply Reads.bind string_reads
    rintro _ rest' text - ⟨body, rfl, hbody⟩
    apply Reads.ok [] rfl (by simp)
    rw [List.append_nil]
    exact .string hbody
  refine Reads.ite (fun _ => ?_) fun _ => ?_
  · apply number_reads.mono
    rintro token v ⟨float, htoken, hvalue⟩
    exact .number htoken hvalue
  refine Reads.ite (fun _ => ?_) fun _ => ?_
  · apply (literal_reads (by decide)).mono
    rintro token v ⟨rfl, rfl⟩
    exact .true
  refine Reads.ite (fun _ => ?_) fun _ => ?_
  · apply (literal_reads (by decide)).mono
    rintro token v ⟨rfl, rfl⟩
    exact .false
  refine Reads.ite (fun _ => ?_) fun _ => Reads.fail
  apply (literal_reads (by decide)).mono
  rintro token v ⟨rfl, rfl⟩
  exact .null

lemma object_reads (h : ValueSpec floats limit fuel) {depth : ℕ} (hdepth : depth ≤ limit)
    (hfuel : 3 * byteLength ('{' :: after) + 2 ≤ fuel + 1) :
    Reads before ('{' :: after)
      (object floats limit (fuel + 1) (between before ('{' :: after)) depth)
      fun token v => Denotes floats (limit - depth + 1) token (.value v) := by
  rw [object, advance_between_ascii before (by decide)]
  apply Reads.after_token ['{']
  rcases exists_whitespace (before ++ ['{']) after with ⟨blank, rest, rfl, hblank, heq⟩
  rw [heq]
  apply Reads.after_token blank
  by_cases hclosed : rest.head? = some '}'
  · rcases List.head?_eq_some_iff.mp hclosed with ⟨rest, rfl⟩
    rw [consume_between_cons _ (by decide)]
    exact Reads.ok ['}'] rfl rfl (.emptyObject hblank)
  · rw [consume_between_of_ne _ (by decide) hclosed]
    have hsize : '{'.utf8Size = 1 := rfl
    rw [byteLength_cons, byteLength_append, hsize] at hfuel
    apply (h.members _ _ _ _ hdepth (by omega)).mono
    rintro token v ⟨text, values, rfl, htext, rfl⟩
    have hobject := Denotes.object (htext.blank_members hblank) (lastWins_foldl values)
    simpa using hobject

lemma array_reads (h : ValueSpec floats limit fuel) {depth : ℕ} (hdepth : depth ≤ limit)
    (hfuel : 3 * byteLength ('[' :: after) + 2 ≤ fuel + 1) :
    Reads before ('[' :: after)
      (array floats limit (fuel + 1) (between before ('[' :: after)) depth)
      fun token v => Denotes floats (limit - depth + 1) token (.value v) := by
  rw [array, advance_between_ascii before (by decide)]
  apply Reads.after_token ['[']
  rcases exists_whitespace (before ++ ['[']) after with ⟨blank, rest, rfl, hblank, heq⟩
  rw [heq]
  apply Reads.after_token blank
  by_cases hclosed : rest.head? = some ']'
  · rcases List.head?_eq_some_iff.mp hclosed with ⟨rest, rfl⟩
    rw [consume_between_cons _ (by decide)]
    exact Reads.ok [']'] rfl rfl (.emptyArray hblank)
  · rw [consume_between_of_ne _ (by decide) hclosed]
    have hsize : '['.utf8Size = 1 := rfl
    rw [byteLength_cons, byteLength_append, hsize] at hfuel
    apply (h.elements _ _ _ _ hdepth (by omega)).mono
    rintro token v ⟨text, values, rfl, htext, rfl⟩
    have harray := Denotes.array (htext.blank_elements hblank)
    simpa using harray

/-- One turn of the array loop. -/
lemma elements_reads (h : ValueSpec floats limit fuel) {depth : ℕ} {collected : List (Value F)}
    (hdepth : depth ≤ limit) (hfuel : 3 * byteLength after + 4 ≤ fuel + 1) :
    Reads before after
      (elements floats limit (fuel + 1) (between before after) depth collected)
      fun token v => ∃ text values, token = text ++ [']'] ∧
        Denotes floats (limit - depth) text (.elements values) ∧
        v = .array (collected ++ values) := by
  rw [elements]
  apply Reads.bind (h.value _ _ _ hdepth (by omega))
  rintro _ rest v rfl ⟨front, token, rfl, hfront, hvalue⟩
  dsimp only
  rcases exists_whitespace (before ++ (front ++ token)) rest with ⟨back, rest, rfl, hback, heq⟩
  rw [heq]
  apply Reads.after_token back
  by_cases hclosed : rest.head? = some ']'
  · rcases List.head?_eq_some_iff.mp hclosed with ⟨rest, rfl⟩
    rw [consume_between_cons _ (by decide)]
    exact Reads.ok [']'] rfl rfl
      ⟨front ++ (token ++ back), [v], by simp, .element hfront hvalue hback, rfl⟩
  · rw [consume_between_of_ne _ (by decide) hclosed]
    apply Reaches.bind (expect_reaches (by decide) _)
    rintro _ rest rfl rfl
    simp only [byteLength_append, byteLength_cons, byteLength_nil] at hfuel
    have hsize : ','.utf8Size = 1 := rfl
    apply (h.elements _ _ _ _ hdepth (by omega)).mono
    rintro _ _ ⟨text, values, rfl, htext, rfl⟩
    exact ⟨front ++ (token ++ (back ++ ',' :: text)), v :: values, by simp,
      .elements hfront hvalue hback htext, by simp⟩

/-- One turn of the object loop. -/
lemma members_reads (h : ValueSpec floats limit fuel) {depth : ℕ}
    {entries : List (List Char × Value F)}
    (hdepth : depth ≤ limit) (hfuel : 3 * byteLength after + 4 ≤ fuel + 1) :
    Reads before after (members floats limit (fuel + 1) (between before after) depth entries)
      fun token v => ∃ text values, token = text ++ ['}'] ∧
        Denotes floats (limit - depth) text (.members values) ∧
        v = .object (values.foldl (fun entries member =>
          insertEntry member.1 member.2 entries) entries) := by
  rw [members]
  split_ifs with hkey
  · exact Reads.fail
  · rw [not_not, peek_between_eq before (by decide)] at hkey
    rcases List.head?_eq_some_iff.mp hkey with ⟨rest, rfl⟩
    apply Reads.bind string_reads
    rintro _ rest key hrest ⟨body, rfl, hbody⟩
    dsimp only
    rw [hrest] at hfuel
    rcases exists_whitespace (before ++ '"' :: (body ++ ['"'])) rest with
      ⟨middle, rest, rfl, hmiddle, heq⟩
    rw [heq]
    apply Reads.after_token middle
    apply Reaches.bind (expect_reaches (by decide) _)
    rintro _ rest rfl rfl
    simp only [byteLength_append, byteLength_cons, byteLength_nil] at hfuel
    apply Reads.bind (h.value _ _ _ hdepth (by omega))
    rintro _ rest v rfl ⟨front, token, rfl, hfront, hvalue⟩
    dsimp only
    rcases exists_whitespace
      (before ++ '"' :: (body ++ ['"']) ++ middle ++ [':'] ++ (front ++ token)) rest with
      ⟨back, rest, rfl, hback, heq⟩
    rw [heq]
    apply Reads.after_token back
    by_cases hclosed : rest.head? = some '}'
    · rcases List.head?_eq_some_iff.mp hclosed with ⟨rest, rfl⟩
      rw [consume_between_cons _ (by decide)]
      have hmember := Denotes.member Blank.nil hbody
        hmiddle hfront hvalue hback
      exact Reads.ok ['}'] rfl rfl ⟨_, [(key, v)], by simp, hmember, rfl⟩
    · rw [consume_between_of_ne _ (by decide) hclosed]
      apply Reaches.bind (expect_reaches (by decide) _)
      rintro _ rest rfl rfl
      rcases exists_whitespace
        (before ++ '"' :: (body ++ ['"']) ++ middle ++ [':'] ++ (front ++ token) ++ back ++ [','])
        rest with ⟨next, rest, rfl, hnext, heq⟩
      rw [heq]
      apply Reads.after_token next
      simp only [byteLength_append, byteLength_cons, byteLength_nil] at hfuel
      have hsize : ','.utf8Size = 1 := rfl
      apply (h.members _ _ _ _ hdepth (by omega)).mono
      rintro _ _ ⟨text, values, rfl, htext, rfl⟩
      have hmembers := Denotes.members Blank.nil hbody
        hmiddle hfront hvalue hback (htext.blank_members hnext)
      exact ⟨_, (key, v) :: values, by simp, hmembers, rfl⟩

end Reader

theorem valueSpec (floats : Floats F) (limit fuel : ℕ) : ValueSpec floats limit fuel := by
  induction fuel with
  | zero =>
    exact ⟨fun _ _ _ _ hfuel => absurd hfuel (by omega),
      fun _ _ _ _ hfuel => absurd hfuel (by omega),
      fun _ _ _ _ _ hfuel => absurd hfuel (by omega),
      fun _ _ _ _ hfuel => absurd hfuel (by omega),
      fun _ _ _ _ _ hfuel => absurd hfuel (by omega)⟩
  | succ fuel ih =>
    exact ⟨fun _ _ _ hdepth hfuel => Reader.value_reads ih hdepth hfuel,
      fun _ _ _ hdepth hfuel => Reader.object_reads ih hdepth hfuel,
      fun _ _ _ _ hdepth hfuel => Reader.members_reads ih hdepth hfuel,
      fun _ _ _ hdepth hfuel => Reader.array_reads ih hdepth hfuel,
      fun _ _ _ _ hdepth hfuel => Reader.elements_reads ih hdepth hfuel⟩

/-- Parsing ends with an error or with the value of a derivation of the whole text. -/
theorem parseWithin_yields (floats : Floats F) (limit : ℕ) (text : List Char) :
    Yields Failure.IsError (parseWithin floats limit text) (Document floats limit text) := by
  have hvalue := (valueSpec floats limit (3 * byteLength text + 4)).value [] text 0
    (Nat.zero_le _) (by omega)
  unfold parseWithin
  apply Yields.bind hvalue
  rintro ⟨v, reader⟩ ⟨_, rest, rfl, rfl, front, token, rfl, hfront, htoken⟩
  dsimp only
  rcases Reader.exists_whitespace ([] ++ (front ++ token)) rest with ⟨back, rest, rfl, hback, heq⟩
  rw [heq]
  split_ifs with hend
  · trivial
  · rw [not_not] at hend
    simp only [Reader.position_between, byteLength_append, byteLength_nil] at hend
    have := length_le_byteLength rest
    rcases List.length_eq_zero_iff.mp (show rest.length = 0 by omega) with rfl
    exact ⟨front, token, back, by simp, hfront, htoken, hback⟩

/-- Where parsing fails it fails with an error. -/
lemma parse_error {text : List Char} {failure : Failure}
    (h : parse floats text = .error failure) : ∃ error, failure = .err error := by
  have hyields := parseWithin_yields floats nestingLimit text
  rw [show parseWithin floats nestingLimit text = .error failure from h] at hyields
  cases failure with
  | err error => exact ⟨error, rfl⟩
  | panic => exact hyields.elim
  | timeout => exact hyields.elim

end DoomFishUtils.Json
