import DoomFishUtils.Json.Reader
import DoomFishUtils.Library.Traced

/-!
# The reader with its trace

The functions of the reader once more, which also say where the position goes, what they slice off
the text, what they compute in `u32` and which containers they are in.
-/

namespace DoomFishUtils.Json

set_option autoImplicit false

open DoomFishUtils.Library

inductive Event where
  | moved (position : ℕ)
  | sliced (start stop : ℕ)
  /-- The mathematical result of an operation in `u32`. -/
  | computed (value : ℤ)
  /-- A call of `object` or of `array`. -/
  | container

/-- What the functions of the reader do and return. -/
abbrev Reading (α : Type) : Type :=
  Traced Failure Event α

namespace Reading

variable {F : Type}

open Traced

def checkedU32 (value : ℕ) : Reading ℕ := do
  emit (.computed value)
  silent (Json.checkedU32 value)

def subU32 (left right : ℕ) : Reading ℕ := do
  emit (.computed (left - right))
  silent (Json.subU32 left right)

def advance (reader : Reader) (count : ℕ) : Reading Reader := do
  emit (.moved (reader.position + count))
  return reader.advance count

def consume (reader : Reader) (byte : UInt8) : Reading (Bool × Reader) :=
  if reader.peek = some byte then do
    let reader ← advance reader 1
    return (true, reader)
  else return (false, reader)

/-- Each turn of the loop moves by one byte. -/
def skipWhile (reader : Reader) (p : UInt8 → Bool) : Reading Reader :=
  let count := (((utf8 reader.text).drop reader.position).takeWhile p).length
  ⟨.ok (reader.advance count),
    (List.range count).map fun turn => (0, .moved (reader.position + turn + 1))⟩

def whitespace (reader : Reader) : Reading Reader :=
  skipWhile reader isSpace

def since (reader : Reader) (start : ℕ) : Reading (List Char) := do
  emit (.sliced start reader.position)
  silent (reader.since start)

def remaining (reader : Reader) : Reading (List Char) := do
  emit (.sliced reader.position (byteLength reader.text))
  silent reader.remaining

def fail {α : Type} (reader : Reader) (message : String) : Reading α :=
  silent (reader.fail message)

def expect (reader : Reader) (byte : UInt8) (message : String) : Reading Reader := do
  let (found, reader) ← consume reader byte
  if found then return reader else fail reader message

def hexQuadLoop : ℕ → Reader → ℕ → Reading (ℕ × Reader)
  | 0, reader, value => return (value, reader)
  | count + 1, reader, value =>
    match reader.peek.bind hexDigit with
    | none => fail reader "invalid Unicode escape"
    | some digit => do
      let shifted ← checkedU32 (value * 16)
      let value ← checkedU32 (shifted + digit)
      let reader ← advance reader 1
      hexQuadLoop count reader value

def hexQuad (reader : Reader) : Reading (ℕ × Reader) :=
  hexQuadLoop 4 reader 0

/-- The shift drops the bits that leave the word, so its full result is the event. -/
def combine (first second : ℕ) : Reading ℕ := do
  let high ← subU32 first 0xd800
  emit (.computed (high * 2 ^ 10))
  let code ← checkedU32 (0x10000 + high * 2 ^ 10 % 2 ^ 32)
  let code ← checkedU32 (code + second)
  subU32 code 0xdc00

def unicodeCode (reader : Reader) : Reading (ℕ × Reader) := do
  let (first, reader) ← hexQuad reader
  if 0xd800 ≤ first ∧ first ≤ 0xdbff then
    let reader ← expect reader (asciiByte '\\') "expected a low surrogate"
    let reader ← expect reader (asciiByte 'u') "expected a low surrogate"
    let (second, reader) ← hexQuad reader
    if ¬(0xdc00 ≤ second ∧ second ≤ 0xdfff) then
      fail reader "invalid low surrogate"
    else
      let code ← combine first second
      return (code, reader)
  else
    return (first, reader)

def escape (reader : Reader) : Reading (Char × Reader) :=
  match reader.peek with
  | none => fail reader "invalid string escape"
  | some byte =>
    if byte = asciiByte 'u' then do
      let reader ← advance reader 1
      let (code, reader) ← unicodeCode reader
      match charFromU32 code with
      | none => fail reader "invalid Unicode escape"
      | some character => return (character, reader)
    else
      match escaped byte with
      | none => fail reader "invalid string escape"
      | some character => do
        let reader ← advance reader 1
        return (character, reader)

def stringLoop : ℕ → Reader → List Char → ℕ → Reading (List Char × Reader)
  | 0, _, _, _ => silent (.error .timeout)
  | fuel + 1, reader, value, start =>
    match reader.peek with
    | none => fail reader "unterminated string"
    | some byte =>
      if byte = asciiByte '"' then do
        let piece ← since reader start
        let reader ← advance reader 1
        return (value ++ piece, reader)
      else if byte = asciiByte '\\' then do
        let piece ← since reader start
        let reader ← advance reader 1
        let (character, reader) ← escape reader
        stringLoop fuel reader (value ++ piece ++ [character]) reader.position
      else if byte.toNat ≤ 0x1f then
        fail reader "unescaped control character"
      else do
        let reader ← advance reader 1
        stringLoop fuel reader value start

def string (reader : Reader) : Reading (List Char × Reader) := do
  let reader ← advance reader 1
  stringLoop (byteLength reader.text + 1) reader [] reader.position

def integerPart (reader : Reader) : Reading Reader :=
  if reader.peek = some (asciiByte '0') then advance reader 1
  else if reader.peek.any fun byte => isDigit byte && byte != asciiByte '0' then
    skipWhile reader isDigit
  else fail reader "expected a digit"

def digits (reader : Reader) (message : String) : Reading Reader := do
  let start := reader.position
  let reader ← skipWhile reader isDigit
  if reader.position = start then fail reader message else return reader

def fraction (reader : Reader) : Reading (Bool × Reader) := do
  let (found, reader) ← consume reader (asciiByte '.')
  if found then
    let reader ← digits reader "expected a fraction digit"
    return (true, reader)
  else return (false, reader)

def exponentSign (reader : Reader) : Reading Reader := do
  let (found, reader) ← consume reader (asciiByte '+')
  if found then return reader
  else
    let (_, reader) ← consume reader (asciiByte '-')
    return reader

def exponent (reader : Reader) : Reading (Bool × Reader) :=
  if reader.peek = some (asciiByte 'e') ∨ reader.peek = some (asciiByte 'E') then do
    let reader ← advance reader 1
    let reader ← exponentSign reader
    let reader ← digits reader "expected an exponent digit"
    return (true, reader)
  else return (false, reader)

def number (floats : Floats F) (reader : Reader) : Reading (Value F × Reader) := do
  let start := reader.position
  let (_, reader) ← consume reader (asciiByte '-')
  let reader ← integerPart reader
  let (hasFraction, reader) ← fraction reader
  let (hasExponent, reader) ← exponent reader
  let token ← since reader start
  let value ← silent (Reader.tokenValue floats reader (hasFraction || hasExponent) token)
  return (value, reader)

def literal (reader : Reader) (word : List Char) (length : ℕ) (value : Value F) :
    Reading (Value F × Reader) := do
  let rest ← remaining reader
  if word.isPrefixOf rest then
    let reader ← advance reader length
    return (value, reader)
  else fail reader "expected a JSON value"

mutual

def value (floats : Floats F) (limit : ℕ) : ℕ → Reader → ℕ → Reading (Value F × Reader)
  | 0, _, _ => silent (.error .timeout)
  | fuel + 1, reader, depth => do
    let reader ← whitespace reader
    if (reader.peek = some (asciiByte '{') ∨ reader.peek = some (asciiByte '[')) ∧
        limit ≤ depth then
      fail reader "nesting limit exceeded"
    else if reader.peek = some (asciiByte '{') then
      nested .container (object floats limit fuel reader (depth + 1))
    else if reader.peek = some (asciiByte '[') then
      nested .container (array floats limit fuel reader (depth + 1))
    else if reader.peek = some (asciiByte '"') then
      let (text, reader) ← string reader
      return (.string text, reader)
    else if reader.peek = some (asciiByte '-') ∨ reader.peek.any isDigit then
      number floats reader
    else if reader.peek = some (asciiByte 't') then
      literal reader ['t', 'r', 'u', 'e'] 4 (.bool true)
    else if reader.peek = some (asciiByte 'f') then
      literal reader ['f', 'a', 'l', 's', 'e'] 5 (.bool false)
    else if reader.peek = some (asciiByte 'n') then
      literal reader ['n', 'u', 'l', 'l'] 4 .null
    else
      fail reader "expected a JSON value"

def object (floats : Floats F) (limit : ℕ) : ℕ → Reader → ℕ → Reading (Value F × Reader)
  | 0, _, _ => silent (.error .timeout)
  | fuel + 1, reader, depth => do
    let reader ← advance reader 1
    let reader ← whitespace reader
    let (closed, reader) ← consume reader (asciiByte '}')
    if closed then return (.object [], reader)
    else members floats limit fuel reader depth []

def members (floats : Floats F) (limit : ℕ) :
    ℕ → Reader → ℕ → List (List Char × Value F) → Reading (Value F × Reader)
  | 0, _, _, _ => silent (.error .timeout)
  | fuel + 1, reader, depth, values =>
    if reader.peek ≠ some (asciiByte '"') then fail reader "expected an object key"
    else do
      let (key, reader) ← string reader
      let reader ← whitespace reader
      let reader ← expect reader (asciiByte ':') "expected `:`"
      let (value, reader) ← value floats limit fuel reader depth
      let values := insertEntry key value values
      let reader ← whitespace reader
      let (closed, reader) ← consume reader (asciiByte '}')
      if closed then return (.object values, reader)
      else
        let reader ← expect reader (asciiByte ',') "expected `,` or `\x7d`"
        let reader ← whitespace reader
        members floats limit fuel reader depth values

def array (floats : Floats F) (limit : ℕ) : ℕ → Reader → ℕ → Reading (Value F × Reader)
  | 0, _, _ => silent (.error .timeout)
  | fuel + 1, reader, depth => do
    let reader ← advance reader 1
    let reader ← whitespace reader
    let (closed, reader) ← consume reader (asciiByte ']')
    if closed then return (.array [], reader)
    else elements floats limit fuel reader depth []

def elements (floats : Floats F) (limit : ℕ) :
    ℕ → Reader → ℕ → List (Value F) → Reading (Value F × Reader)
  | 0, _, _, _ => silent (.error .timeout)
  | fuel + 1, reader, depth, values => do
    let (value, reader) ← value floats limit fuel reader depth
    let values := values ++ [value]
    let reader ← whitespace reader
    let (closed, reader) ← consume reader (asciiByte ']')
    if closed then return (.array values, reader)
    else
      let reader ← expect reader (asciiByte ',') "expected `,` or `]`"
      elements floats limit fuel reader depth values

end

def parseWithin (floats : Floats F) (limit : ℕ) (text : List Char) : Reading (Value F) := do
  let (value, reader) ← value floats limit (3 * byteLength text + 4) ⟨text, 0⟩ 0
  let reader ← whitespace reader
  if reader.position ≠ byteLength text then fail reader "unexpected trailing data"
  else return value

def parse (floats : Floats F) (text : List Char) : Reading (Value F) :=
  parseWithin floats nestingLimit text

end Reading

end DoomFishUtils.Json
