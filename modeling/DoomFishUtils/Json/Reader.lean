import DoomFishUtils.Json.Value
import DoomFishUtils.Library.Text

/-!
# The byte-position reader

The source's `Reader` with its position in bytes.  Besides its errors the model keeps the
ways in which the code could go wrong without one: a slice off a character boundary or a
`u32` operation out of range is a `panic`.  Recursion and the string loop take a fuel
argument, whose exhaustion is a `timeout`.
-/

namespace DoomFishUtils.Json

set_option autoImplicit false

open DoomFishUtils.Library

structure JsonError where
  message : String
  deriving DecidableEq

inductive Failure where
  | err (error : JsonError)
  | panic
  | timeout
  deriving DecidableEq

/-- Containers may nest this deep. -/
def nestingLimit : ℕ := 128

/-- A `u32` result that debug builds check for overflow. -/
def checkedU32 (value : ℕ) : Except Failure ℕ :=
  if value < 2 ^ 32 then .ok value else .error .panic

/-- A `u32` difference that debug builds check for underflow. -/
def subU32 (left right : ℕ) : Except Failure ℕ :=
  if right ≤ left then .ok (left - right) else .error .panic

/-- `char::from_u32`. -/
def charFromU32 (code : ℕ) : Option Char :=
  if code.isValidChar then some (Char.ofNat code) else none

/-- The number that decimal digits denote, leading digit first. -/
def decimal (digits : List Char) : ℕ :=
  Nat.ofDigitChars 10 digits 0

/-- A mathematical integer as an `i64`, when it fits. -/
def I64.ofInt? (value : ℤ) : Option I64 :=
  if h : -2 ^ 63 ≤ value ∧ value < 2 ^ 63 then some ⟨value, h.1, h.2⟩ else none

/-- `str::parse::<i64>`: an optional sign, then at least one digit and nothing else. -/
def I64.parse (token : List Char) : Option I64 :=
  let (negative, digits) := match token with
    | '-' :: digits => (true, digits)
    | '+' :: digits => (false, digits)
    | digits => (false, digits)
  if digits ≠ [] ∧ digits.all Char.isDigit then
    I64.ofInt? (if negative then -(decimal digits : ℤ) else decimal digits)
  else none

def isDigit (byte : UInt8) : Bool :=
  decide (asciiByte '0' ≤ byte ∧ byte ≤ asciiByte '9')

def isSpace (byte : UInt8) : Bool :=
  decide (byte = asciiByte ' ' ∨ byte = asciiByte '\t' ∨ byte = asciiByte '\n' ∨
    byte = asciiByte '\r')

/-- The digit arms of `hex_quad`. -/
def hexDigit (byte : UInt8) : Option ℕ :=
  if asciiByte '0' ≤ byte ∧ byte ≤ asciiByte '9' then some (byte.toNat - '0'.toNat)
  else if asciiByte 'a' ≤ byte ∧ byte ≤ asciiByte 'f' then some (byte.toNat - 'a'.toNat + 10)
  else if asciiByte 'A' ≤ byte ∧ byte ≤ asciiByte 'F' then some (byte.toNat - 'A'.toNat + 10)
  else none

/-- The arms of the escape match that stand for one character. -/
def escaped (byte : UInt8) : Option Char :=
  if byte = asciiByte '"' then some '"'
  else if byte = asciiByte '\\' then some '\\'
  else if byte = asciiByte '/' then some '/'
  else if byte = asciiByte 'b' then some (Char.ofNat 0x08)
  else if byte = asciiByte 'f' then some (Char.ofNat 0x0c)
  else if byte = asciiByte 'n' then some '\n'
  else if byte = asciiByte 'r' then some '\r'
  else if byte = asciiByte 't' then some '\t'
  else none

structure Reader where
  text : List Char
  position : ℕ

namespace Reader

variable {F α : Type}

def error (reader : Reader) (message : String) : JsonError :=
  ⟨message ++ " at byte " ++ toString reader.position⟩

def fail (reader : Reader) (message : String) : Except Failure α :=
  .error (.err (reader.error message))

def peek (reader : Reader) : Option UInt8 :=
  (utf8 reader.text)[reader.position]?

def advance (reader : Reader) (count : ℕ) : Reader :=
  { reader with position := reader.position + count }

def consume (reader : Reader) (byte : UInt8) : Bool × Reader :=
  if reader.peek = some byte then (true, reader.advance 1) else (false, reader)

/-- The loops that move past every byte of a class. -/
def skipWhile (reader : Reader) (p : UInt8 → Bool) : Reader :=
  reader.advance (((utf8 reader.text).drop reader.position).takeWhile p).length

def whitespace (reader : Reader) : Reader :=
  reader.skipWhile isSpace

/-- `&text[start..position]` -/
def since (reader : Reader) (start : ℕ) : Except Failure (List Char) :=
  match slice reader.text start reader.position with
  | some piece => .ok piece
  | none => .error .panic

/-- `&text[position..]` -/
def remaining (reader : Reader) : Except Failure (List Char) :=
  match dropBytes reader.text reader.position with
  | some piece => .ok piece
  | none => .error .panic

/-- The checks that fail with a message unless a given byte comes next. -/
def expect (reader : Reader) (byte : UInt8) (message : String) : Except Failure Reader :=
  let (found, reader) := reader.consume byte
  if found then .ok reader else reader.fail message

def hexQuadLoop : ℕ → Reader → ℕ → Except Failure (ℕ × Reader)
  | 0, reader, value => .ok (value, reader)
  | count + 1, reader, value =>
    match reader.peek.bind hexDigit with
    | none => reader.fail "invalid Unicode escape"
    | some digit => do
      let shifted ← checkedU32 (value * 16)
      let value ← checkedU32 (shifted + digit)
      hexQuadLoop count (reader.advance 1) value

def hexQuad (reader : Reader) : Except Failure (ℕ × Reader) :=
  hexQuadLoop 4 reader 0

/-- `0x10000 + ((first - 0xd800) << 10) + second - 0xdc00` in `u32`. -/
def combine (first second : ℕ) : Except Failure ℕ := do
  let high ← subU32 first 0xd800
  let code ← checkedU32 (0x10000 + high * 2 ^ 10 % 2 ^ 32)
  let code ← checkedU32 (code + second)
  subU32 code 0xdc00

/-- The code a Unicode escape stands for, read after its `u`. -/
def unicodeCode (reader : Reader) : Except Failure (ℕ × Reader) := do
  let (first, reader) ← reader.hexQuad
  if 0xd800 ≤ first ∧ first ≤ 0xdbff then
    let reader ← reader.expect (asciiByte '\\') "expected a low surrogate"
    let reader ← reader.expect (asciiByte 'u') "expected a low surrogate"
    let (second, reader) ← reader.hexQuad
    if ¬(0xdc00 ≤ second ∧ second ≤ 0xdfff) then
      reader.fail "invalid low surrogate"
    else
      let code ← combine first second
      return (code, reader)
  else
    return (first, reader)

/-- The character of an escape, read after its backslash. -/
def escape (reader : Reader) : Except Failure (Char × Reader) :=
  match reader.peek with
  | none => reader.fail "invalid string escape"
  | some byte =>
    if byte = asciiByte 'u' then do
      let (code, reader) ← (reader.advance 1).unicodeCode
      match charFromU32 code with
      | none => reader.fail "invalid Unicode escape"
      | some character => return (character, reader)
    else
      match escaped byte with
      | none => reader.fail "invalid string escape"
      | some character => .ok (character, reader.advance 1)

def stringLoop : ℕ → Reader → List Char → ℕ → Except Failure (List Char × Reader)
  | 0, _, _, _ => .error .timeout
  | fuel + 1, reader, value, start =>
    match reader.peek with
    | none => reader.fail "unterminated string"
    | some byte =>
      if byte = asciiByte '"' then do
        let piece ← reader.since start
        return (value ++ piece, reader.advance 1)
      else if byte = asciiByte '\\' then do
        let piece ← reader.since start
        let (character, reader) ← (reader.advance 1).escape
        stringLoop fuel reader (value ++ piece ++ [character]) reader.position
      else if byte.toNat ≤ 0x1f then
        reader.fail "unescaped control character"
      else
        stringLoop fuel (reader.advance 1) value start

def string (reader : Reader) : Except Failure (List Char × Reader) :=
  let reader := reader.advance 1
  stringLoop (byteLength reader.text + 1) reader [] reader.position

/-- The part of a number before its fraction, read after the sign. -/
def integerPart (reader : Reader) : Except Failure Reader :=
  if reader.peek = some (asciiByte '0') then .ok (reader.advance 1)
  else if reader.peek.any fun byte => isDigit byte && byte != asciiByte '0' then
    .ok (reader.skipWhile isDigit)
  else reader.fail "expected a digit"

/-- At least one digit. -/
def digits (reader : Reader) (message : String) : Except Failure Reader :=
  let start := reader.position
  let reader := reader.skipWhile isDigit
  if reader.position = start then reader.fail message else .ok reader

/-- The optional fraction, and whether there is one. -/
def fraction (reader : Reader) : Except Failure (Bool × Reader) :=
  let (found, reader) := reader.consume (asciiByte '.')
  if found then do
    let reader ← reader.digits "expected a fraction digit"
    return (true, reader)
  else .ok (false, reader)

/-- The sign of an exponent, if it has one. -/
def exponentSign (reader : Reader) : Reader :=
  let (found, reader) := reader.consume (asciiByte '+')
  if found then reader else (reader.consume (asciiByte '-')).2

/-- The optional exponent, and whether there is one. -/
def exponent (reader : Reader) : Except Failure (Bool × Reader) :=
  if reader.peek = some (asciiByte 'e') ∨ reader.peek = some (asciiByte 'E') then do
    let reader ← (reader.advance 1).exponentSign.digits "expected an exponent digit"
    return (true, reader)
  else .ok (false, reader)

/-- The value of a complete number token. -/
def tokenValue (floats : Floats F) (reader : Reader) (float : Bool) (token : List Char) :
    Except Failure (Value F) :=
  match (if float = false ∧ token ≠ ['-', '0'] then I64.parse token else none) with
  | some value => .ok (.integer value)
  | none =>
    match floats.parse token with
    | none => reader.fail "invalid number"
    | some value =>
      if floats.isFinite value then .ok (.float value) else reader.fail "number out of range"

def number (floats : Floats F) (reader : Reader) : Except Failure (Value F × Reader) := do
  let start := reader.position
  let reader := (reader.consume (asciiByte '-')).2
  let reader ← reader.integerPart
  let (hasFraction, reader) ← reader.fraction
  let (hasExponent, reader) ← reader.exponent
  let token ← reader.since start
  let value ← tokenValue floats reader (hasFraction || hasExponent) token
  return (value, reader)

/-- The arms for `true`, `false` and `null`. -/
def literal (reader : Reader) (word : List Char) (length : ℕ) (value : Value F) :
    Except Failure (Value F × Reader) := do
  let rest ← reader.remaining
  if word.isPrefixOf rest then return (value, reader.advance length)
  else reader.fail "expected a JSON value"

mutual

/-- The source refuses a container at depth 128, which is `limit` here. -/
def value (floats : Floats F) (limit : ℕ) : ℕ → Reader → ℕ → Except Failure (Value F × Reader)
  | 0, _, _ => .error .timeout
  | fuel + 1, reader, depth =>
    let reader := reader.whitespace
    if (reader.peek = some (asciiByte '{') ∨ reader.peek = some (asciiByte '[')) ∧
        limit ≤ depth then
      reader.fail "nesting limit exceeded"
    else if reader.peek = some (asciiByte '{') then
      object floats limit fuel reader (depth + 1)
    else if reader.peek = some (asciiByte '[') then
      array floats limit fuel reader (depth + 1)
    else if reader.peek = some (asciiByte '"') then do
      let (text, reader) ← reader.string
      return (.string text, reader)
    else if reader.peek = some (asciiByte '-') ∨ reader.peek.any isDigit then
      reader.number floats
    else if reader.peek = some (asciiByte 't') then
      reader.literal ['t', 'r', 'u', 'e'] 4 (.bool true)
    else if reader.peek = some (asciiByte 'f') then
      reader.literal ['f', 'a', 'l', 's', 'e'] 5 (.bool false)
    else if reader.peek = some (asciiByte 'n') then
      reader.literal ['n', 'u', 'l', 'l'] 4 .null
    else
      reader.fail "expected a JSON value"

def object (floats : Floats F) (limit : ℕ) : ℕ → Reader → ℕ → Except Failure (Value F × Reader)
  | 0, _, _ => .error .timeout
  | fuel + 1, reader, depth =>
    let reader := (reader.advance 1).whitespace
    let (closed, reader) := reader.consume (asciiByte '}')
    if closed then .ok (.object [], reader)
    else members floats limit fuel reader depth []

/-- The loop of `object`. -/
def members (floats : Floats F) (limit : ℕ) :
    ℕ → Reader → ℕ → List (List Char × Value F) → Except Failure (Value F × Reader)
  | 0, _, _, _ => .error .timeout
  | fuel + 1, reader, depth, values =>
    if reader.peek ≠ some (asciiByte '"') then reader.fail "expected an object key"
    else do
      let (key, reader) ← reader.string
      let reader ← reader.whitespace.expect (asciiByte ':') "expected `:`"
      let (value, reader) ← value floats limit fuel reader depth
      let values := insertEntry key value values
      let (closed, reader) := reader.whitespace.consume (asciiByte '}')
      if closed then return (.object values, reader)
      else
        let reader ← reader.expect (asciiByte ',') "expected `,` or `\x7d`"
        members floats limit fuel reader.whitespace depth values

def array (floats : Floats F) (limit : ℕ) : ℕ → Reader → ℕ → Except Failure (Value F × Reader)
  | 0, _, _ => .error .timeout
  | fuel + 1, reader, depth =>
    let reader := (reader.advance 1).whitespace
    let (closed, reader) := reader.consume (asciiByte ']')
    if closed then .ok (.array [], reader)
    else elements floats limit fuel reader depth []

/-- The loop of `array`. -/
def elements (floats : Floats F) (limit : ℕ) :
    ℕ → Reader → ℕ → List (Value F) → Except Failure (Value F × Reader)
  | 0, _, _, _ => .error .timeout
  | fuel + 1, reader, depth, values => do
    let (value, reader) ← value floats limit fuel reader depth
    let values := values ++ [value]
    let (closed, reader) := reader.whitespace.consume (asciiByte ']')
    if closed then return (.array values, reader)
    else
      let reader ← reader.expect (asciiByte ',') "expected `,` or `]`"
      elements floats limit fuel reader depth values

end

end Reader

variable {F : Type}

/-- `parse` with another limit in place of 128. -/
def parseWithin (floats : Floats F) (limit : ℕ) (text : List Char) :
    Except Failure (Value F) := do
  let (value, reader) ← Reader.value floats limit (3 * byteLength text + 4) ⟨text, 0⟩ 0
  let reader := reader.whitespace
  if reader.position ≠ byteLength text then reader.fail "unexpected trailing data"
  else return value

def parse (floats : Floats F) (text : List Char) : Except Failure (Value F) :=
  parseWithin floats nestingLimit text

end DoomFishUtils.Json
