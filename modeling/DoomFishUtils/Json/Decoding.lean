import DoomFishUtils.Json.Integers

/-!
# Reading typed values

The source's `FromJson` for every type that is built from its implementations, and the fields of
objects.  `Encodes` and `Rejects` say without the code which values stand for a typed one and how a
value fails to; an absent field reads as null does.
-/

namespace DoomFishUtils.Json

set_option autoImplicit false

open DoomFishUtils.Library

/-- The casts between number types; `S` stands for `f32`. -/
structure Casts (F S : Type) where
  i64AsF64 : I64 → F
  i64AsF32 : I64 → S
  f64AsF32 : F → S

/-- A `BTreeMap` with string keys. -/
@[ext]
structure OrderedMap (T : Type) where
  entries : List (List Char × T)
  sorted : SortedKeys entries

/-- `collect` into a map. -/
def OrderedMap.collect {T : Type} (entries : List (List Char × T)) : OrderedMap T where
  entries := entries.foldl (fun map entry => insertEntry entry.1 entry.2 map) []
  sorted := (lastWins_foldl entries).sorted

section Implementations

variable {F S T : Type}

/-- `T::from_json`. -/
abbrev FromJson (F T : Type) : Type :=
  Value F → Except JsonError T

def valueFromJson : FromJson F (Value F) :=
  .ok

def boolFromJson : FromJson F Bool
  | .bool value => .ok value
  | _ => .error ⟨"expected a boolean"⟩

def f64FromJson (casts : Casts F S) : FromJson F F
  | .integer value => .ok (casts.i64AsF64 value)
  | .float value => .ok value
  | _ => .error ⟨"expected a number"⟩

def f32FromJson (casts : Casts F S) : FromJson F S
  | .integer value => .ok (casts.i64AsF32 value)
  | .float value => .ok (casts.f64AsF32 value)
  | _ => .error ⟨"expected a number"⟩

def stringFromJson : FromJson F (List Char)
  | .string value => .ok value
  | _ => .error ⟨"expected a string"⟩

def optionFromJson (fromJson : FromJson F T) : FromJson F (Option T)
  | .null => .ok none
  | value => (fromJson value).map some

def vecFromJson (fromJson : FromJson F T) : FromJson F (List T)
  | .array values => values.mapM fromJson
  | _ => .error ⟨"expected an array"⟩

def mapFromJson (fromJson : FromJson F T) : FromJson F (OrderedMap T)
  | .object values =>
    (values.mapM fun entry => (fromJson entry.2).map (entry.1, ·)).map OrderedMap.collect
  | _ => .error ⟨"expected an object"⟩

/-- `JsonValue::field`. -/
def Value.field (fromJson : FromJson F T) (value : Value F) (key : List Char) :
    Except JsonError T :=
  match value with
  | .object members =>
    match members.lookup key with
    | none => (fromJson .null).mapError fun _ => ⟨"missing field `" ++ String.ofList key ++ "`"⟩
    | some value => fromJson value
  | _ => .error ⟨"expected an object"⟩

end Implementations

/-- The types that the implementations cover. -/
inductive Schema where
  | json
  | bool
  | integer (type : IntType)
  | f64
  | f32
  | string
  | option (schema : Schema)
  | vec (schema : Schema)
  | map (schema : Schema)

namespace Schema

def Carrier (F S : Type) : Schema → Type
  | .json => Value F
  | .bool => Bool
  | .integer type => Integer type
  | .f64 => F
  | .f32 => S
  | .string => List Char
  | .option schema => Option (schema.Carrier F S)
  | .vec schema => List (schema.Carrier F S)
  | .map schema => OrderedMap (schema.Carrier F S)

variable {F S : Type}

/-- The implementation for a type. -/
def fromJson (casts : Casts F S) : (schema : Schema) → FromJson F (schema.Carrier F S)
  | .json => valueFromJson
  | .bool => boolFromJson
  | .integer type => integerFromJson type
  | .f64 => f64FromJson casts
  | .f32 => f32FromJson casts
  | .string => stringFromJson
  | .option schema => optionFromJson (schema.fromJson casts)
  | .vec schema => vecFromJson (schema.fromJson casts)
  | .map schema => mapFromJson (schema.fromJson casts)

/-- The value stands for this typed one. -/
def Encodes (casts : Casts F S) : (schema : Schema) → schema.Carrier F S → Value F → Prop
  | .json, typed, value => value = typed
  | .bool, typed, value => value = .bool typed
  | .integer _, typed, value => ∃ i : I64, value = .integer i ∧ i.val = typed.val
  | .f64, typed, value =>
    value = .float typed ∨ ∃ i, value = .integer i ∧ casts.i64AsF64 i = typed
  | .f32, typed, value =>
    (∃ float, value = .float float ∧ casts.f64AsF32 float = typed) ∨
      ∃ i, value = .integer i ∧ casts.i64AsF32 i = typed
  | .string, typed, value => value = .string typed
  | .option _, none, value => value = .null
  | .option schema, some typed, value => value ≠ .null ∧ schema.Encodes casts typed value
  | .vec schema, typed, value =>
    ∃ values, value = .array values ∧
      List.Forall₂ (fun element typed => schema.Encodes casts typed element) values typed
  | .map schema, typed, value =>
    ∃ values, value = .object values ∧
      List.Forall₂ (fun member entry => member.1 = entry.1 ∧ schema.Encodes casts entry.2 member.2)
        values typed.entries

/-- A value of no kind that the type accepts, with the message for it. -/
def WrongKind : Schema → Value F → String → Prop
  | .json, _, _ => False
  | .bool, value, message => (∀ b, value ≠ .bool b) ∧ message = "expected a boolean"
  | .integer type, value, message =>
    (∀ i, value ≠ .integer i) ∧ message = "expected an integer for " ++ type.name
  | .f64, value, message | .f32, value, message =>
    (∀ i, value ≠ .integer i) ∧ (∀ float, value ≠ .float float) ∧ message = "expected a number"
  | .string, value, message => (∀ text, value ≠ .string text) ∧ message = "expected a string"
  | .option _, _, _ => False
  | .vec _, value, message => (∀ values, value ≠ .array values) ∧ message = "expected an array"
  | .map _, value, message => (∀ values, value ≠ .object values) ∧ message = "expected an object"

/-- The value stands for no typed one, and the first part that is to blame has this message: the parts
of an array in their order, those of an object in the order of their keys. -/
def Rejects (casts : Casts F S) : Schema → Value F → String → Prop
  | .integer type, value, message =>
    WrongKind (.integer type) value message ∨
      ∃ i : I64, value = .integer i ∧ ¬type.Holds i.val ∧
        message = "integer out of range for " ++ type.name
  | .option schema, value, message => value ≠ .null ∧ schema.Rejects casts value message
  | .vec schema, value, message =>
    WrongKind (.vec schema) value message ∨
      ∃ before bad after, value = .array (before ++ bad :: after) ∧
        (∀ element ∈ before, ∃ typed, schema.Encodes casts typed element) ∧
        schema.Rejects casts bad message
  | .map schema, value, message =>
    WrongKind (.map schema) value message ∨
      ∃ before bad after, value = .object (before ++ bad :: after) ∧
        (∀ member ∈ before, ∃ typed, schema.Encodes casts typed member.2) ∧
        schema.Rejects casts bad.2 message
  | schema, value, message => schema.WrongKind value message

end Schema

section Leaves

variable {F S : Type} {casts : Casts F S} {value : Value F} {message : String}

lemma boolFromJson_eq_ok {typed : Bool} :
    boolFromJson value = .ok typed ↔ value = .bool typed := by
  cases value <;> simp [boolFromJson]

lemma boolFromJson_eq_error :
    boolFromJson value = .error ⟨message⟩ ↔ Schema.bool.WrongKind value message := by
  cases value <;> simp [boolFromJson, Schema.WrongKind, @eq_comm _ message]

lemma integerFromJson_eq_ok {type : IntType} {typed : Integer type} :
    integerFromJson type value = .ok typed ↔ ∃ i : I64, value = .integer i ∧ i.val = typed.val := by
  rcases typed with ⟨n, hn⟩
  cases value with
  | integer i =>
    rw [integerFromJson_integer]
    by_cases hholds : type.Holds i.val
    · rw [dif_pos hholds]
      simp
    · rw [dif_neg hholds]
      constructor
      · intro h
        cases h
      · rintro ⟨j, hij, rfl⟩
        cases hij
        exact absurd hn hholds
  | _ => simp [integerFromJson]

lemma integerFromJson_eq_error {type : IntType} :
    integerFromJson type value = .error ⟨message⟩ ↔
      (Schema.integer type).WrongKind value message ∨
        ∃ i : I64, value = .integer i ∧ ¬type.Holds i.val ∧
          message = "integer out of range for " ++ type.name := by
  cases value with
  | integer i =>
    rw [integerFromJson_integer]
    by_cases hholds : type.Holds i.val
    · rw [dif_pos hholds]
      simp [Schema.WrongKind, hholds]
    · rw [dif_neg hholds]
      simp [Schema.WrongKind, hholds, @eq_comm _ message]
  | _ => simp [integerFromJson, Schema.WrongKind, @eq_comm _ message]

lemma f64FromJson_eq_ok {typed : F} :
    f64FromJson casts value = .ok typed ↔
      value = .float typed ∨ ∃ i, value = .integer i ∧ casts.i64AsF64 i = typed := by
  cases value <;> simp [f64FromJson]

lemma f64FromJson_eq_error :
    f64FromJson casts value = .error ⟨message⟩ ↔ Schema.f64.WrongKind value message := by
  cases value <;> simp [f64FromJson, Schema.WrongKind, @eq_comm _ message]

lemma f32FromJson_eq_ok {typed : S} :
    f32FromJson casts value = .ok typed ↔
      (∃ float, value = .float float ∧ casts.f64AsF32 float = typed) ∨
        ∃ i, value = .integer i ∧ casts.i64AsF32 i = typed := by
  cases value <;> simp [f32FromJson]

lemma f32FromJson_eq_error :
    f32FromJson casts value = .error ⟨message⟩ ↔ Schema.f32.WrongKind value message := by
  cases value <;> simp [f32FromJson, Schema.WrongKind, @eq_comm _ message]

lemma stringFromJson_eq_ok {typed : List Char} :
    stringFromJson value = .ok typed ↔ value = .string typed := by
  cases value <;> simp [stringFromJson]

lemma stringFromJson_eq_error :
    stringFromJson value = .error ⟨message⟩ ↔ Schema.string.WrongKind value message := by
  cases value <;> simp [stringFromJson, Schema.WrongKind, @eq_comm _ message]

end Leaves

section Traversals

variable {F S T : Type}

/-- A relation between the elements of two lists may use that those of the first are elements. -/
lemma forall₂_congr_of_mem {α β : Type} {R Q : α → β → Prop} {xs : List α} {ys : List β}
    (h : ∀ x ∈ xs, ∀ y, R x y ↔ Q x y) : List.Forall₂ R xs ys ↔ List.Forall₂ Q xs ys := by
  induction xs generalizing ys with
  | nil => simp
  | cons x xs ih =>
    rw [List.forall₂_cons_left_iff, List.forall₂_cons_left_iff]
    rw [List.forall_mem_cons] at h
    simp only [h.1, ih h.2]

/-- The keys of a map are those of the object it is read from. -/
lemma collect_eq_iff {P : Value F → T → Prop} {values : List (List Char × Value F)}
    {entries : List (List Char × T)} {map : OrderedMap T} (hsorted : SortedKeys values)
    (h : List.Forall₂ (fun member entry => member.1 = entry.1 ∧ P member.2 entry.2) values entries) :
    OrderedMap.collect entries = map ↔ entries = map.entries := by
  have hkeys : SortedKeys entries := by
    have hmap : entries.map Prod.fst = values.map Prod.fst := by
      induction h with
      | nil => rfl
      | cons hentry _ ih => rw [List.map_cons, List.map_cons, hentry.1, ih hsorted.tail]
    have hpairwise := List.pairwise_map.mpr hsorted
    rw [← hmap] at hpairwise
    exact List.pairwise_map.mp hpairwise
  have hcollect : (OrderedMap.collect entries).entries = entries :=
    (lastWins_foldl entries).unique (.of_sorted hkeys)
  rw [OrderedMap.ext_iff, hcollect]

variable {fromJson : FromJson F T} {P : Value F → T → Prop}

lemma optionFromJson_null : optionFromJson fromJson .null = .ok none :=
  rfl

lemma optionFromJson_of_ne {value : Value F} (hne : value ≠ .null) :
    optionFromJson fromJson value = (fromJson value).map some := by
  cases value <;> first | rfl | exact absurd rfl hne

lemma optionFromJson_eq_ok {value : Value F} {typed : Option T}
    (h : ∀ typed, fromJson value = .ok typed ↔ P value typed) :
    optionFromJson fromJson value = .ok typed ↔
      value = .null ∧ typed = none ∨ value ≠ .null ∧ ∃ inner, typed = some inner ∧ P value inner := by
  by_cases hnull : value = .null
  · subst hnull
    simp [optionFromJson_null, eq_comm]
  · simp only [optionFromJson_of_ne hnull, hnull, false_and, false_or, ne_eq, not_false_eq_true,
      true_and, ← h]
    rcases fromJson value with error | inner <;> simp [Except.map, eq_comm]

lemma vecFromJson_eq_ok {values : List (Value F)} {typed : List T}
    (h : ∀ value ∈ values, ∀ typed, fromJson value = .ok typed ↔ P value typed) :
    vecFromJson fromJson (.array values) = .ok typed ↔ List.Forall₂ P values typed :=
  mapM_eq_ok.trans (forall₂_congr_of_mem h)

lemma memberFromJson_eq_ok {member : List Char × Value F} {entry : List Char × T} :
    (fromJson member.2).map (member.1, ·) = .ok entry ↔
      member.1 = entry.1 ∧ fromJson member.2 = .ok entry.2 := by
  rcases entry with ⟨key, typed⟩
  rcases fromJson member.2 with error | value <;> simp [Except.map]

lemma mapFromJson_eq_ok {values : List (List Char × Value F)} {typed : OrderedMap T}
    (hsorted : SortedKeys values)
    (h : ∀ member ∈ values, ∀ typed, fromJson member.2 = .ok typed ↔ P member.2 typed) :
    mapFromJson fromJson (.object values) = .ok typed ↔
      List.Forall₂ (fun member entry => member.1 = entry.1 ∧ P member.2 entry.2) values
        typed.entries := by
  have hentries : ∀ entries, (values.mapM fun member => (fromJson member.2).map (member.1, ·)) =
      .ok entries ↔
        List.Forall₂ (fun member entry => member.1 = entry.1 ∧ P member.2 entry.2) values entries := by
    intro entries
    rw [mapM_eq_ok]
    refine forall₂_congr_of_mem fun member hmember entry => ?_
    rw [memberFromJson_eq_ok, h member hmember]
  unfold mapFromJson
  dsimp only
  generalize values.mapM (fun member => (fromJson member.2).map (member.1, ·)) = mapped at hentries ⊢
  rcases mapped with error | entries
  · exact ⟨(fun h => nomatch h), fun hforall => nomatch (hentries _).mpr hforall⟩
  · have hforall := (hentries entries).mp rfl
    change Except.ok (OrderedMap.collect entries) = _ ↔ _
    rw [Except.ok.injEq, collect_eq_iff hsorted hforall]
    exact ⟨fun heq => heq ▸ hforall, fun hother => Except.ok.inj ((hentries _).mpr hother)⟩

lemma vecFromJson_wrongKind {value : Value F} {message : String}
    (hne : ∀ values, value ≠ .array values) :
    vecFromJson fromJson value = .error ⟨message⟩ ↔ message = "expected an array" := by
  cases value <;> first | exact absurd rfl (hne _) | simp [vecFromJson, @eq_comm _ message]

lemma mapFromJson_wrongKind {value : Value F} {message : String}
    (hne : ∀ values, value ≠ .object values) :
    mapFromJson fromJson value = .error ⟨message⟩ ↔ message = "expected an object" := by
  cases value <;> first | exact absurd rfl (hne _) | simp [mapFromJson, @eq_comm _ message]

/-- What fails first in a traversal of parts that are read one by one. -/
lemma firstError {α β : Type} {f : α → Except JsonError β} {accepted rejected : α → Prop}
    {xs : List α} {error : JsonError} (hok : ∀ x ∈ xs, (∃ y, f x = .ok y) ↔ accepted x)
    (herror : ∀ x ∈ xs, f x = .error error ↔ rejected x) :
    xs.mapM f = .error error ↔ ∃ before bad after, xs = before ++ bad :: after ∧
      (∀ x ∈ before, accepted x) ∧ rejected bad := by
  rw [mapM_eq_error]
  refine exists_congr fun before => exists_congr fun bad => exists_congr fun after =>
    and_congr_right ?_
  rintro rfl
  refine and_congr (forall₂_congr fun x hx => hok x ?_) (herror bad ?_)
  · exact List.mem_append_left _ hx
  · exact List.mem_append_right _ List.mem_cons_self

section Errors

variable {A R : Value F → Prop} {message : String}

lemma vecFromJson_eq_error {values : List (Value F)}
    (hok : ∀ value ∈ values, (∃ typed, fromJson value = .ok typed) ↔ A value)
    (herror : ∀ value ∈ values, fromJson value = .error ⟨message⟩ ↔ R value) :
    vecFromJson fromJson (.array values) = .error ⟨message⟩ ↔
      ∃ before bad after, values = before ++ bad :: after ∧
        (∀ value ∈ before, A value) ∧ R bad :=
  firstError hok herror

lemma mapFromJson_eq_error {values : List (List Char × Value F)}
    (hok : ∀ member ∈ values, (∃ typed, fromJson member.2 = .ok typed) ↔ A member.2)
    (herror : ∀ member ∈ values, fromJson member.2 = .error ⟨message⟩ ↔ R member.2) :
    mapFromJson fromJson (.object values) = .error ⟨message⟩ ↔
      ∃ before bad after, values = before ++ bad :: after ∧
        (∀ member ∈ before, A member.2) ∧ R bad.2 := by
  have hcollect : ∀ mapped : Except JsonError (List (List Char × T)),
      mapped.map OrderedMap.collect = .error ⟨message⟩ ↔ mapped = .error ⟨message⟩ := by
    rintro (_ | _) <;> simp [Except.map]
  refine (hcollect _).trans (firstError (fun member hmem => ?_) fun member hmem => ?_)
  · rw [← hok member hmem]
    rcases fromJson member.2 with _ | _ <;> simp [Except.map]
  · rw [← herror member hmem]
    rcases fromJson member.2 with _ | _ <;> simp [Except.map]

end Errors

end Traversals

namespace Schema

variable {F S : Type} (casts : Casts F S)

/-- Induction on the type, with the elements of arrays and the members of objects. -/
theorem fromJson_eq_ok (schema : Schema) (value : Value F) (hordered : value.Ordered)
    (typed : schema.Carrier F S) :
    schema.fromJson casts value = .ok typed ↔ schema.Encodes casts typed value := by
  induction schema generalizing value with
  | json => exact ⟨fun h => Except.ok.inj h, fun h => congrArg _ h⟩
  | bool => exact boolFromJson_eq_ok
  | integer type => exact integerFromJson_eq_ok
  | f64 => exact f64FromJson_eq_ok
  | f32 => exact f32FromJson_eq_ok
  | string => exact stringFromJson_eq_ok
  | option schema ih =>
    refine (optionFromJson_eq_ok (P := fun value typed => schema.Encodes casts typed value)
      fun inner => ih value hordered inner).trans ?_
    rcases typed with _ | typed <;> simp [Encodes]
  | vec schema ih =>
    cases value with
    | array values =>
      have helements := orderedElements_iff.mp hordered
      refine (vecFromJson_eq_ok fun value hmem => ih value (helements value hmem)).trans ?_
      simp [Encodes]
    | _ => simp [fromJson, vecFromJson, Encodes]
  | map schema ih =>
    cases value with
    | object values =>
      have hmembers := orderedMembers_iff.mp hordered.2
      refine (mapFromJson_eq_ok (P := fun value typed => schema.Encodes casts typed value) hordered.1
        fun member hmem => ih member.2 (hmembers member hmem)).trans ?_
      simp [Encodes]
    | _ => simp [fromJson, mapFromJson, Encodes]

/-- The error is that of the first part that is to blame, in the order of elements and of keys. -/
theorem fromJson_eq_error (schema : Schema) (value : Value F) (hordered : value.Ordered)
    (message : String) :
    schema.fromJson casts value = .error ⟨message⟩ ↔ schema.Rejects casts value message := by
  have hisOk : ∀ (schema : Schema) (value : Value F), value.Ordered →
      ((∃ typed, schema.fromJson casts value = .ok typed) ↔
        ∃ typed, schema.Encodes casts typed value) :=
    fun schema value hordered => exists_congr (fromJson_eq_ok casts schema value hordered)
  induction schema generalizing value with
  | json => exact ⟨(fun h => nomatch h), False.elim⟩
  | bool => exact boolFromJson_eq_error
  | integer type => exact integerFromJson_eq_error
  | f64 => exact f64FromJson_eq_error
  | f32 => exact f32FromJson_eq_error
  | string => exact stringFromJson_eq_error
  | option schema ih =>
    change optionFromJson (schema.fromJson casts) value = .error ⟨message⟩ ↔ _
    by_cases hnull : value = .null
    · subst hnull
      exact ⟨(fun h => nomatch h), fun h => absurd rfl h.1⟩
    · rw [optionFromJson_of_ne hnull]
      refine Iff.trans ?_ ((ih value hordered).trans (and_iff_right hnull).symm)
      rcases schema.fromJson casts value with _ | _ <;> simp [Except.map]
  | vec schema ih =>
    cases value with
    | array values =>
      have helements := orderedElements_iff.mp hordered
      refine (vecFromJson_eq_error (fun value hmem => hisOk schema value (helements value hmem))
        fun value hmem => ih value (helements value hmem)).trans ?_
      simp [Rejects, WrongKind]
    | _ => exact (vecFromJson_wrongKind (by simp)).trans (by simp [Rejects, WrongKind])
  | map schema ih =>
    cases value with
    | object values =>
      have hmembers := orderedMembers_iff.mp hordered.2
      refine (mapFromJson_eq_error
        (A := fun value => ∃ typed, schema.Encodes casts typed value)
        (R := fun value => schema.Rejects casts value message)
        (fun member hmem => hisOk schema member.2 (hmembers member hmem))
        fun member hmem => ih member.2 (hmembers member hmem)).trans ?_
      simp [Rejects, WrongKind]
    | _ => exact (mapFromJson_wrongKind (by simp)).trans (by simp [Rejects, WrongKind])

end Schema

/-! ### From texts -/

section Texts

variable {F S T : Type} {floats : Floats F}

def Phrase.Ordered : Phrase F → Prop
  | .value v => v.Ordered
  | .elements vs => Value.orderedElements vs
  | .members vs => Value.orderedMembers vs

/-- Objects are read into ordered maps. -/
lemma Denotes.ordered {depth : ℕ} {text : List Char} {phrase : Phrase F}
    (h : Denotes floats depth text phrase) : phrase.Ordered := by
  induction h with
  | null | true | false | string | emptyArray => trivial
  | number _ hvalue => cases hvalue <;> trivial
  | array _ ih => exact ih
  | emptyObject => exact ⟨List.Pairwise.nil, trivial⟩
  | object _ hlast ih =>
    refine ⟨hlast.sorted, orderedMembers_iff.mpr fun entry hmem => ?_⟩
    rcases (hlast.mem_iff entry.1 entry.2).mp hmem with ⟨front, back, hsplit, -⟩
    refine orderedMembers_iff.mp ih entry ?_
    rw [hsplit]
    exact List.mem_append_right _ List.mem_cons_self
  | element _ _ _ ih | member _ _ _ _ _ _ ih => exact ⟨ih, trivial⟩
  | elements _ _ _ _ ih ihrest | members _ _ _ _ _ _ _ ih ihrest => exact ⟨ih, ihrest⟩

/-- `T::from_json(&parse(text)?)`. -/
def fromText (floats : Floats F) (fromJson : FromJson F T) (text : List Char) : Except Failure T := do
  let value ← parse floats text
  (fromJson value).mapError .err

variable (casts : Casts F S)

lemma ordered_of_parse {text : List Char} {value : Value F} (h : parse floats text = .ok value) :
    value.Ordered := by
  rcases (parseWithin_yields floats nestingLimit text).of_eq_ok h with ⟨_, _, _, -, -, hdenotes, -⟩
  exact hdenotes.ordered

/-- A text is read as a typed value exactly if it is strict JSON for a value that stands for it, and
else with the error of the parser or of the first part of the value, in the order of elements and of
keys, that is to blame. -/
theorem fromText_iff (schema : Schema) (text : List Char) :
    (∀ typed, fromText floats (schema.fromJson casts) text = .ok typed ↔
      ∃ value, Document floats nestingLimit text value ∧ schema.Encodes casts typed value) ∧
    ∀ message, fromText floats (schema.fromJson casts) text = .error (.err ⟨message⟩) ↔
      parse floats text = .error (.err ⟨message⟩) ∨
        ∃ value, Document floats nestingLimit text value ∧ schema.Rejects casts value message := by
  have hdocument : ∀ value, parse floats text = .ok value ↔ Document floats nestingLimit text value :=
    fun value => ⟨fun h => (parseWithin_yields floats nestingLimit text).of_eq_ok h,
      parseWithin_of_document⟩
  unfold fromText
  refine ⟨fun typed => ?_, fun message => ?_⟩
  · simp only [← hdocument]
    rcases hparse : parse floats text with failure | value
    · exact ⟨(fun h => nomatch h), fun ⟨_, h, _⟩ => nomatch h⟩
    · have hread := schema.fromJson_eq_ok casts value (ordered_of_parse hparse) typed
      rw [ok_bind]
      simp only [Except.ok.injEq, exists_eq_left', ← hread]
      rcases schema.fromJson casts value with error | typed' <;> simp [Except.mapError]
  · simp only [← hdocument]
    rcases hparse : parse floats text with failure | value
    · simp [bind, Except.bind]
    · have hread := schema.fromJson_eq_error casts value (ordered_of_parse hparse) message
      rw [ok_bind]
      simp only [Except.ok.injEq, exists_eq_left', ← hread, reduceCtorEq, false_or]
      rcases schema.fromJson casts value with error | typed' <;> simp [Except.mapError]

/-- The value that an object has for a key; null for an absent one. -/
def HasField (members : List (List Char × Value F)) (key : List Char) (value : Value F) : Prop :=
  (key, value) ∈ members ∨ (∀ other, (key, other) ∉ members) ∧ value = .null

lemma field_of_mem {members : List (List Char × Value F)} (hsorted : SortedKeys members)
    {fromJson : FromJson F T} {key : List Char} {member : Value F} (h : (key, member) ∈ members) :
    (Value.object members).field fromJson key = fromJson member := by
  unfold Value.field
  dsimp only
  rw [hsorted.lookup_eq_some_iff.mpr h]

lemma field_of_absent {members : List (List Char × Value F)} {fromJson : FromJson F T}
    {key : List Char} (h : ∀ member, (key, member) ∉ members) :
    (Value.object members).field fromJson key =
      (fromJson .null).mapError fun _ => ⟨"missing field `" ++ String.ofList key ++ "`"⟩ := by
  unfold Value.field
  dsimp only
  rw [lookup_eq_none_iff.mpr h]

/-- A field of an object is read as its value, and an absent one as null, but for the error of a type
that does not accept null. -/
theorem field_iff {text : List Char} {members : List (List Char × Value F)}
    (h : parse floats text = .ok (.object members)) (schema : Schema) (key : List Char) :
    (∀ typed, (Value.object members).field (schema.fromJson casts) key = .ok typed ↔
      ∃ member, HasField members key member ∧ schema.Encodes casts typed member) ∧
    ∀ message, (Value.object members).field (schema.fromJson casts) key = .error ⟨message⟩ ↔
      (∃ member, (key, member) ∈ members ∧ schema.Rejects casts member message) ∨
        (∀ member, (key, member) ∉ members) ∧ (∃ reason, schema.Rejects casts .null reason) ∧
          message = "missing field `" ++ String.ofList key ++ "`" := by
  have hordered := ordered_of_parse h
  by_cases hpresent : ∃ member, (key, member) ∈ members
  · rcases hpresent with ⟨member, hmem⟩
    have hunique : ∀ other, (key, other) ∈ members → other = member := by
      intro other hother
      have hlookup := hordered.1.lookup_eq_some_iff.mpr hother
      exact Option.some.inj (hlookup.symm.trans (hordered.1.lookup_eq_some_iff.mpr hmem))
    have hmember := orderedMembers_iff.mp hordered.2 _ hmem
    rw [field_of_mem hordered.1 hmem]
    refine ⟨fun typed => ?_, fun message => ?_⟩
    · rw [schema.fromJson_eq_ok casts member hmember typed]
      refine ⟨fun hencodes => ⟨member, .inl hmem, hencodes⟩, ?_⟩
      rintro ⟨other, hother | ⟨habsent, -⟩, hencodes⟩
      · exact hunique other hother ▸ hencodes
      · exact absurd hmem (habsent member)
    · rw [schema.fromJson_eq_error casts member hmember message]
      refine ⟨fun hrejects => .inl ⟨member, hmem, hrejects⟩, ?_⟩
      rintro (⟨other, hother, hrejects⟩ | ⟨habsent, -⟩)
      · exact hunique other hother ▸ hrejects
      · exact absurd hmem (habsent member)
  · have habsent : ∀ member, (key, member) ∉ members := not_exists.mp hpresent
    rw [field_of_absent habsent]
    have hok := schema.fromJson_eq_ok casts .null trivial
    have herror := schema.fromJson_eq_error casts .null trivial
    refine ⟨fun typed => ?_, fun message => ?_⟩
    · have hmapped : ((schema.fromJson casts .null).mapError fun _ =>
          (⟨"missing field `" ++ String.ofList key ++ "`"⟩ : JsonError)) = .ok typed ↔
            schema.fromJson casts .null = .ok typed := by
        rcases schema.fromJson casts .null with _ | _ <;> simp [Except.mapError]
      rw [hmapped, hok]
      refine ⟨fun hencodes => ⟨.null, .inr ⟨habsent, rfl⟩, hencodes⟩, ?_⟩
      rintro ⟨member, hmem | ⟨-, rfl⟩, hencodes⟩
      · exact absurd hmem (habsent member)
      · exact hencodes
    · simp only [← herror]
      rcases schema.fromJson casts .null with error | typed
      · have hreason : ∃ reason, error = ⟨reason⟩ := ⟨error.message, rfl⟩
        simp [Except.mapError, habsent, hreason, @eq_comm _ message]
      · simp [Except.mapError, habsent]

end Texts

/-- A field and an optional one that is absent. -/
theorem field_iff_absent :
    (Value.object [(['a'], .bool true)] : Value Bool).field boolFromJson ['a'] = .ok true ∧
      (Value.object [(['a'], .bool true)] : Value Bool).field (optionFromJson boolFromJson) ['b'] =
        .ok none := by
  have hmembers : Denotes halfAndNaN 127 ['"', 'a', '"', ':', 't', 'r', 'u', 'e']
      (.members [(['a'], .bool true)]) :=
    .member .nil (.plain ⟨by decide, by decide, by decide⟩ .nil) .nil .nil .true .nil
  have hdocument : Document halfAndNaN nestingLimit
      ['{', '"', 'a', '"', ':', 't', 'r', 'u', 'e', '}'] (.object [(['a'], .bool true)]) :=
    ⟨[], _, [], rfl, .nil, .object hmembers (.of_sorted (by decide)), .nil⟩
  have hparse := parseWithin_of_document hdocument
  let casts : Casts Bool Bool := ⟨fun _ => true, fun _ => true, id⟩
  refine ⟨((field_iff casts hparse .bool ['a']).1 true).mpr ?_,
    ((field_iff casts hparse (.option .bool) ['b']).1 none).mpr ?_⟩
  · exact ⟨.bool true, .inl (by simp), rfl⟩
  · exact ⟨.null, .inr ⟨by simp, rfl⟩, rfl⟩

end DoomFishUtils.Json
