import DoomFishUtils.Library.SortedEntries
import Mathlib.Algebra.Order.Ring.Int
import Mathlib.Data.Char
import Mathlib.Data.List.Lex

/-!
# JSON values and their printed form

`Value` is the source's `JsonValue` before its object maps are known to be in key order;
`JsonValue` carries that order.  A string is the list of its Unicode scalar values, and keys
are compared character by character, which for UTF-8 is the byte order of the source's maps.
The floating-point type stands for `f64`, with the standard library's conversions as
parameters.
-/

namespace DoomFishUtils.Json

set_option autoImplicit false

open DoomFishUtils.Library

/-- A signed 64-bit integer. -/
structure I64 where
  val : ℤ
  lower : -2 ^ 63 ≤ val
  upper : val < 2 ^ 63
  deriving DecidableEq

/-- The standard library's conversions between `f64` and text. -/
structure Floats (F : Type) where
  parse : List Char → Option F
  isFinite : F → Bool
  debug : F → List Char

inductive Value (F : Type) where
  | null
  | bool (value : Bool)
  | integer (value : I64)
  | float (value : F)
  | string (value : List Char)
  | array (values : List (Value F))
  | object (values : List (List Char × Value F))

variable {F : Type}

section Structure

/-- A property of every value follows its construction. -/
@[elab_as_elim]
theorem Value.induction {motive : Value F → Prop} (null : motive .null)
    (bool : ∀ value, motive (.bool value)) (integer : ∀ value, motive (.integer value))
    (float : ∀ value, motive (.float value)) (string : ∀ value, motive (.string value))
    (array : ∀ values, (∀ value ∈ values, motive value) → motive (.array values))
    (object : ∀ values, (∀ entry ∈ values, motive entry.2) → motive (.object values))
    (value : Value F) : motive value := by
  refine @Value.rec F motive (fun values => ∀ value ∈ values, motive value)
    (fun values => ∀ entry ∈ values, motive entry.2) (fun entry => motive entry.2)
    null bool integer float string array object ?_ ?_ ?_ ?_ ?_ value
  · simp
  · simp +contextual
  · simp
  · simp +contextual
  · exact fun _ _ h => h

mutual

/-- How deep arrays and objects nest. -/
def Value.depth : Value F → ℕ
  | .null | .bool _ | .integer _ | .float _ | .string _ => 0
  | .array values => depthElements values + 1
  | .object values => depthMembers values + 1

def Value.depthElements : List (Value F) → ℕ
  | [] => 0
  | value :: values => max value.depth (depthElements values)

def Value.depthMembers : List (List Char × Value F) → ℕ
  | [] => 0
  | (_, value) :: values => max value.depth (depthMembers values)

end

mutual

/-- Every object holds its entries in strictly increasing key order. -/
def Value.Ordered : Value F → Prop
  | .null | .bool _ | .integer _ | .float _ | .string _ => True
  | .array values => orderedElements values
  | .object values => SortedKeys values ∧ orderedMembers values

def Value.orderedElements : List (Value F) → Prop
  | [] => True
  | value :: values => value.Ordered ∧ orderedElements values

def Value.orderedMembers : List (List Char × Value F) → Prop
  | [] => True
  | (_, value) :: values => value.Ordered ∧ orderedMembers values

end

/-- A JSON value of the source: its objects are ordered maps. -/
structure JsonValue (F : Type) where
  value : Value F
  ordered : value.Ordered

mutual

/-- The value with every non-finite float replaced by null. -/
def Value.nullNonFinite (floats : Floats F) : Value F → Value F
  | .float value => if floats.isFinite value then .float value else .null
  | .array values => .array (nullNonFiniteElements floats values)
  | .object values => .object (nullNonFiniteMembers floats values)
  | value => value

def Value.nullNonFiniteElements (floats : Floats F) : List (Value F) → List (Value F)
  | [] => []
  | value :: values => value.nullNonFinite floats :: nullNonFiniteElements floats values

def Value.nullNonFiniteMembers (floats : Floats F) :
    List (List Char × Value F) → List (List Char × Value F)
  | [] => []
  | (key, value) :: values =>
    (key, value.nullNonFinite floats) :: nullNonFiniteMembers floats values

end

end Structure

section Writer

/-- The decimal form of an `i64`. -/
def I64.fmt (value : I64) : List Char :=
  if value.val < 0 then '-' :: Nat.toDigits 10 value.val.natAbs
  else Nat.toDigits 10 value.val.natAbs

/-- The format `{:04x}`. -/
def fmtHex (code : ℕ) : List Char :=
  let digits := Nat.toDigits 16 code
  List.replicate (4 - digits.length) '0' ++ digits

/-- What `write_string` writes for one character. -/
def writeCharacter (character : Char) : List Char :=
  if character = '"' then ['\\', '"']
  else if character = '\\' then ['\\', '\\']
  else if character = Char.ofNat 0x08 then ['\\', 'b']
  else if character = Char.ofNat 0x0c then ['\\', 'f']
  else if character = '\n' then ['\\', 'n']
  else if character = '\r' then ['\\', 'r']
  else if character = '\t' then ['\\', 't']
  else if character.toNat ≤ 0x1f then ['\\', 'u'] ++ fmtHex character.toNat
  else [character]

def writeString (text : List Char) : List Char :=
  ['"'] ++ text.flatMap writeCharacter ++ ['"']

mutual

/-- The text that `Display` writes. -/
def Value.fmt (floats : Floats F) : Value F → List Char
  | .bool true => ['t', 'r', 'u', 'e']
  | .bool false => ['f', 'a', 'l', 's', 'e']
  | .integer value => value.fmt
  | .float value =>
    if floats.isFinite value then floats.debug value else ['n', 'u', 'l', 'l']
  | .null => ['n', 'u', 'l', 'l']
  | .string value => writeString value
  | .array values => ['['] ++ fmtElements floats 0 values ++ [']']
  | .object values => ['{'] ++ fmtMembers floats 0 values ++ ['}']

def Value.fmtElements (floats : Floats F) : ℕ → List (Value F) → List Char
  | _, [] => []
  | index, value :: values =>
    (if index ≠ 0 then [','] else []) ++ value.fmt floats ++
      fmtElements floats (index + 1) values

def Value.fmtMembers (floats : Floats F) : ℕ → List (List Char × Value F) → List Char
  | _, [] => []
  | index, (key, value) :: values =>
    (if index ≠ 0 then [','] else []) ++ writeString key ++ [':'] ++ value.fmt floats ++
      fmtMembers floats (index + 1) values

end

end Writer

end DoomFishUtils.Json
