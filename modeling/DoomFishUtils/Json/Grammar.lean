import DoomFishUtils.Json.Reader

/-!
# The grammar of RFC 8259 with its meaning

Each rule derives a text together with what it denotes.  The side conditions of the rules are
the grammar's own and the three limits that strict reading adds: the nesting bound, the
pairing of escaped surrogates and the finiteness of floating-point numbers.
-/

namespace DoomFishUtils.Json

set_option autoImplicit false

open DoomFishUtils.Library

/-- JSON whitespace: space, tab, line feed and carriage return. -/
def isBlank (c : Char) : Bool :=
  decide (c = ' ' ∨ c = '\t' ∨ c = '\n' ∨ c = '\r')

def Blank (text : List Char) : Prop :=
  ∀ c ∈ text, isBlank c = true

/-- One or more decimal digits. -/
def Digits (text : List Char) : Prop :=
  text ≠ [] ∧ ∀ c ∈ text, c.isDigit = true

/-- `int`: a zero alone or digits that do not start with one. -/
inductive IntPart : List Char → Prop where
  | zero : IntPart ['0']
  | digits {first : Char} {rest : List Char} (hfirst : first.isDigit = true)
      (hne : first ≠ '0') (hrest : ∀ c ∈ rest, c.isDigit = true) : IntPart (first :: rest)

/-- `[ frac ]` -/
inductive FractionPart : Bool → List Char → Prop where
  | none : FractionPart false []
  | some {digits : List Char} (h : Digits digits) : FractionPart true ('.' :: digits)

/-- `[ exp ]` -/
inductive ExponentPart : Bool → List Char → Prop where
  | none : ExponentPart false []
  | some {mark : Char} {sign digits : List Char} (hmark : mark = 'e' ∨ mark = 'E')
      (hsign : sign = [] ∨ sign = ['+'] ∨ sign = ['-']) (h : Digits digits) :
      ExponentPart true (mark :: (sign ++ digits))

/-- A number token; the flag tells whether it has a fraction or an exponent. -/
inductive NumberToken : Bool → List Char → Prop where
  | mk {sign int frac exp : List Char} {hasFraction hasExponent : Bool}
      (hsign : sign = [] ∨ sign = ['-']) (hint : IntPart int)
      (hfrac : FractionPart hasFraction frac) (hexp : ExponentPart hasExponent exp) :
      NumberToken (hasFraction || hasExponent) (sign ++ (int ++ (frac ++ exp)))

/-- The integer that a number token without fraction and exponent denotes. -/
def tokenInt : List Char → ℤ
  | '-' :: digits => -(decimal digits : ℤ)
  | digits => decimal digits

variable {F : Type}

/-- What a number token denotes: an integer in the `i64` range except `-0`, else a finite
float. -/
inductive NumberValue (floats : Floats F) (float : Bool) (token : List Char) : Value F → Prop where
  | integer {n : I64} (hfloat : float = false) (hzero : token ≠ ['-', '0'])
      (h : n.val = tokenInt token) : NumberValue floats float token (.integer n)
  | float {value : F}
      (hint : float = true ∨ token = ['-', '0'] ∨ ∀ n : I64, n.val ≠ tokenInt token)
      (hparse : floats.parse token = some value) (hfinite : floats.isFinite value = true) :
      NumberValue floats float token (.float value)

def hexDigitValue (c : Char) : Option ℕ :=
  if '0' ≤ c ∧ c ≤ '9' then some (c.toNat - '0'.toNat)
  else if 'a' ≤ c ∧ c ≤ 'f' then some (c.toNat - 'a'.toNat + 10)
  else if 'A' ≤ c ∧ c ≤ 'F' then some (c.toNat - 'A'.toNat + 10)
  else none

/-- Four hexadecimal digits and the code they denote. -/
inductive Quad : List Char → ℕ → Prop where
  | mk {a b c d : Char} {i j k l : ℕ} (ha : hexDigitValue a = some i)
      (hb : hexDigitValue b = some j) (hc : hexDigitValue c = some k)
      (hd : hexDigitValue d = some l) : Quad [a, b, c, d] (((i * 16 + j) * 16 + k) * 16 + l)

/-- The eight short escapes. -/
def shortEscape : Char → Option Char
  | '"' => some '"'
  | '\\' => some '\\'
  | '/' => some '/'
  | 'b' => some (Char.ofNat 0x08)
  | 'f' => some (Char.ofNat 0x0c)
  | 'n' => some '\n'
  | 'r' => some '\r'
  | 't' => some '\t'
  | _ => none

/-- A character that stands for itself in a string. -/
def Unescaped (c : Char) : Prop :=
  c ≠ '"' ∧ c ≠ '\\' ∧ 0x20 ≤ c.toNat

/-- An escape behind its backslash, with the character it denotes. -/
inductive EscapeText : List Char → Char → Prop where
  | short {mark character : Char} (h : shortEscape mark = some character) :
      EscapeText [mark] character
  | unicode {quad : List Char} {code : ℕ} (h : Quad quad code)
      (hscalar : ¬(0xd800 ≤ code ∧ code ≤ 0xdfff)) :
      EscapeText ('u' :: quad) (Char.ofNat code)
  | pair {first second : List Char} {high low : ℕ} (hfirst : Quad first high)
      (hhigh : 0xd800 ≤ high ∧ high ≤ 0xdbff) (hsecond : Quad second low)
      (hlow : 0xdc00 ≤ low ∧ low ≤ 0xdfff) :
      EscapeText ('u' :: (first ++ '\\' :: 'u' :: second))
        (Char.ofNat (0x10000 + (high - 0xd800) * 0x400 + (low - 0xdc00)))

/-- What stands between the quotes of a string, with the characters it denotes. -/
inductive StringBody : List Char → List Char → Prop where
  | nil : StringBody [] []
  | plain {c : Char} {body decoded : List Char} (hc : Unescaped c)
      (h : StringBody body decoded) : StringBody (c :: body) (c :: decoded)
  | escape {mark body decoded : List Char} {c : Char} (hmark : EscapeText mark c)
      (h : StringBody body decoded) : StringBody ('\\' :: (mark ++ body)) (c :: decoded)

/-- What a phrase of the grammar denotes. -/
inductive Phrase (F : Type) where
  | value (value : Value F)
  | elements (values : List (Value F))
  | members (values : List (List Char × Value F))

/-- `Denotes floats depth text phrase`: the text derives the phrase with at most `depth`
nested arrays and objects.  The elements of an array and the members of an object carry the
whitespace around them. -/
inductive Denotes (floats : Floats F) : ℕ → List Char → Phrase F → Prop where
  | null {depth : ℕ} : Denotes floats depth ['n', 'u', 'l', 'l'] (.value .null)
  | true {depth : ℕ} : Denotes floats depth ['t', 'r', 'u', 'e'] (.value (.bool true))
  | false {depth : ℕ} : Denotes floats depth ['f', 'a', 'l', 's', 'e'] (.value (.bool false))
  | number {depth : ℕ} {float : Bool} {token : List Char} {value : Value F}
      (htoken : NumberToken float token) (hvalue : NumberValue floats float token value) :
      Denotes floats depth token (.value value)
  | string {depth : ℕ} {body decoded : List Char} (h : StringBody body decoded) :
      Denotes floats depth ('"' :: (body ++ ['"'])) (.value (.string decoded))
  | emptyArray {depth : ℕ} {blank : List Char} (hblank : Blank blank) :
      Denotes floats (depth + 1) ('[' :: (blank ++ [']'])) (.value (.array []))
  | array {depth : ℕ} {text : List Char} {values : List (Value F)}
      (h : Denotes floats depth text (.elements values)) :
      Denotes floats (depth + 1) ('[' :: (text ++ [']'])) (.value (.array values))
  | emptyObject {depth : ℕ} {blank : List Char} (hblank : Blank blank) :
      Denotes floats (depth + 1) ('{' :: (blank ++ ['}'])) (.value (.object []))
  | object {depth : ℕ} {text : List Char} {values entries : List (List Char × Value F)}
      (h : Denotes floats depth text (.members values)) (hlast : LastWins values entries) :
      Denotes floats (depth + 1) ('{' :: (text ++ ['}'])) (.value (.object entries))
  | element {depth : ℕ} {front token back : List Char} {value : Value F}
      (hfront : Blank front) (h : Denotes floats depth token (.value value))
      (hback : Blank back) :
      Denotes floats depth (front ++ (token ++ back)) (.elements [value])
  | elements {depth : ℕ} {front token back text : List Char} {value : Value F}
      {values : List (Value F)} (hfront : Blank front)
      (h : Denotes floats depth token (.value value)) (hback : Blank back)
      (hrest : Denotes floats depth text (.elements values)) :
      Denotes floats depth (front ++ (token ++ (back ++ ',' :: text)))
        (.elements (value :: values))
  | member {depth : ℕ} {before body key after front token back : List Char} {value : Value F}
      (hbefore : Blank before) (hkey : StringBody body key) (hafter : Blank after)
      (hfront : Blank front) (h : Denotes floats depth token (.value value))
      (hback : Blank back) :
      Denotes floats depth
        (before ++ '"' :: (body ++ '"' :: (after ++ ':' :: (front ++ (token ++ back)))))
        (.members [(key, value)])
  | members {depth : ℕ} {before body key after front token back text : List Char}
      {value : Value F} {values : List (List Char × Value F)}
      (hbefore : Blank before) (hkey : StringBody body key) (hafter : Blank after)
      (hfront : Blank front) (h : Denotes floats depth token (.value value))
      (hback : Blank back) (hrest : Denotes floats depth text (.members values)) :
      Denotes floats depth
        (before ++ '"' :: (body ++ '"' ::
          (after ++ ':' :: (front ++ (token ++ (back ++ ',' :: text))))))
        (.members ((key, value) :: values))

/-- A whole text: one value with whitespace around it. -/
def Document (floats : Floats F) (depth : ℕ) (text : List Char) (value : Value F) : Prop :=
  ∃ front token back, text = front ++ (token ++ back) ∧ Blank front ∧
    Denotes floats depth token (.value value) ∧ Blank back

end DoomFishUtils.Json
