import WordTemplate.Decimal.Literal
import WordTemplate.Json.Value

/-!
# Tokens of JSON

`tokens?` cuts a JSON text into punctuation, strings, numbers and the three words; nothing if some
part of the text is no token.

Strings may not hold control characters, and an escaped surrogate has to be followed by its
partner. Numbers are read as they are by readers that add up digits while these fit 64 bits: an
integer that fits is exact, and any other number is its first digits, as a float, times or divided
by a power of ten. A number too large for a float is no token.
-/

namespace WordTemplate.Json

inductive Token where
  | beginArray
  | endArray
  | beginObject
  | endObject
  | colon
  | comma
  /-- A word, number or string. -/
  | scalar (value : Json)
  deriving BEq, Repr

/-! ## Numbers -/

/-- Digits read as long as the number fits 64 bits, and how many digits were left over. -/
def takeDigits (soFar : Nat) : List Char → Nat × Nat
  | [] => (soFar, 0)
  | c :: cs =>
    let value := soFar * 10 + (c.toNat - '0'.toNat)
    if value < Text.bound64 then takeDigits value cs else (soFar, cs.length + 1)

/-- `10 ^ e` as a float, for `e` up to 308. -/
def powerOfTen (e : Nat) : Float :=
  Float.ofScientific 1 false e

/--
`f · 10 ^ exponent`, dividing by `10 ^ 308` while the exponent is below `-308`; nothing if the
result is too large. A division is repeated at most `fuel` times; three make every float zero.
-/
def scale? (fuel : Nat) (f : Float) (exponent : Int) : Option Float :=
  if f == 0.0 then some f
  else if 308 < exponent then none
  else if 0 ≤ exponent then
    let product := f * powerOfTen exponent.toNat
    if product.isInf then none else some product
  else if -308 ≤ exponent then some (f / powerOfTen (-exponent).toNat)
  else match fuel with
    | 0 => some 0.0
    | fuel + 1 => scale? fuel (f / powerOfTen 308) (exponent + 308)

/-- The float of a number with significand and exponent. -/
def floatOf? (negative : Bool) (significand : Nat) (exponent : Int) : Option Number :=
  (scale? 4 significand.toUInt64.toFloat exponent).map fun f =>
    .float (if negative then -f else f)

/-- The integer with this sign, or a float if it does not fit 64 bits or is a negative zero. -/
def integerOf (negative : Bool) (n : Nat) : Number :=
  if !negative then .integer (Int.ofNat n)
  else if 0 < n ∧ n ≤ Nat.pow 2 63 then .integer (-Int.ofNat n)
  else .float (-n.toUInt64.toFloat)

/-- An exponent: a marker, a sign and at least one digit. The rest of the text follows. -/
def readExponent? (s : List Char) : Option (Option Int × List Char) :=
  match s with
  | c :: rest =>
    if c = 'e' ∨ c = 'E' then
      let (negative, afterSign) := Decimal.splitSign rest
      let (digits, rest) := Decimal.splitDigits afterSign
      if digits = [] then none
      else
        let value := Int.ofNat (Decimal.digitsToNat digits)
        some (some (if negative then -value else value), rest)
    else some (none, s)
  | [] => some (none, [])

/-- A fraction: a point and at least one digit. The rest of the text follows. -/
def readFraction? (s : List Char) : Option (Option (List Char) × List Char) :=
  match s with
  | '.' :: rest =>
    let (digits, rest) := Decimal.splitDigits rest
    if digits = [] then none else some (some digits, rest)
  | _ => some (none, s)

/-- The digits before the point: a zero, or digits that do not begin with one. -/
def readWhole? (s : List Char) : Option (List Char × List Char) :=
  match Decimal.splitDigits s with
  | ([], _) => none
  | ('0' :: _ :: _, _) => none
  | split => some split

/-- The number with these parts. -/
def numberOf? (negative : Bool) (whole : List Char) (fraction : Option (List Char))
    (exponent : Option Int) : Option Number :=
  let (significand, left) := takeDigits 0 whole
  match fraction, exponent with
  | none, none =>
    if left = 0 then some (integerOf negative significand)
    else floatOf? negative significand left
  | _, _ =>
    let digits := fraction.getD []
    let (significand, ignored) := takeDigits significand digits
    let shift := Int.ofNat left - Int.ofNat (digits.length - ignored)
    floatOf? negative significand (shift + exponent.getD 0)

/-- A number at the front of `s`. -/
def readNumber? (s : List Char) : Option (Number × List Char) := do
  let (negative, s) := match s with
    | '-' :: rest => (true, rest)
    | _ => (false, s)
  let (whole, s) ← readWhole? s
  let (fraction, s) ← readFraction? s
  let (exponent, s) ← readExponent? s
  let value ← numberOf? negative whole fraction exponent
  return (value, s)

/-! ## Strings -/

/-- The value of four hexadecimal digits. -/
def hex4? (a b c d : Char) : Option Nat :=
  Text.readDigits? 16 [a, b, c, d]

/-- What a backslash and this character stand for. -/
def simpleEscape? : Char → Option Char
  | '"' => some '"'
  | '\\' => some '\\'
  | '/' => some '/'
  | 'b' => some '\x08'
  | 'f' => some '\x0c'
  | 'n' => some '\n'
  | 'r' => some '\r'
  | 't' => some '\t'
  | _ => none

/-- The rest of a string after its opening quote, and what follows the closing one. -/
def readString? : List Char → Option (List Char × List Char)
  | [] => none
  | '"' :: rest => some ([], rest)
  | '\\' :: 'u' :: a :: b :: c :: d :: rest => do
    let unit ← hex4? a b c d
    if 0xD800 ≤ unit ∧ unit < 0xDC00 then
      match rest with
      | '\\' :: 'u' :: e :: f :: g :: h :: rest =>
        let low ← hex4? e f g h
        if 0xDC00 ≤ low ∧ low < 0xE000 then
          let character ← Text.charOfCode? (0x10000 + (unit - 0xD800) * 0x400 + (low - 0xDC00))
          let (content, rest) ← readString? rest
          return (character :: content, rest)
        else none
      | _ => none
    else
      let character ← Text.charOfCode? unit
      let (content, rest) ← readString? rest
      return (character :: content, rest)
  | '\\' :: c :: rest => do
    let character ← simpleEscape? c
    let (content, rest) ← readString? rest
    return (character :: content, rest)
  | c :: rest =>
    if c.toNat < 0x20 ∨ c = '\\' then none
    else (readString? rest).map fun (content, rest) => (c :: content, rest)

/-! ## Tokens -/

/-- The punctuation marks. -/
def Token.ofMark? : Char → Option Token
  | '[' => some .beginArray
  | ']' => some .endArray
  | '\x7b' => some .beginObject
  | '\x7d' => some .endObject
  | ':' => some .colon
  | ',' => some .comma
  | _ => none

/-- The words. -/
def words : List (List Char × Json) :=
  [("null".toList, .null), ("true".toList, .bool true), ("false".toList, .bool false)]

/-- The token at the front of `s`, which does not begin with a space. -/
def nextToken? (s : List Char) : Option (Token × List Char) :=
  match s with
  | [] => none
  | c :: rest =>
    match Token.ofMark? c with
    | some mark => some (mark, rest)
    | none =>
      if c = '"' then (readString? rest).map fun (content, rest) =>
        (.scalar (.string (String.ofList content)), rest)
      else
        match words.findSome? fun (word, value) =>
            (word.isPrefixOf? s).map fun rest => (Token.scalar value, rest) with
        | some found => some found
        | none => (readNumber? s).map fun (value, rest) => (.scalar (.number value), rest)

/-- The spaces of JSON. -/
def isSpace (c : Char) : Bool :=
  c == ' ' || c == '\t' || c == '\n' || c == '\r'

/-- The tokens of `s`, at most `fuel` of them. -/
def tokensWith? (fuel : Nat) (s : List Char) : Option (List Token) :=
  match s.dropWhile isSpace with
  | [] => some []
  | s => match fuel with
    | 0 => none
    | fuel + 1 => (nextToken? s).bind fun (token, rest) =>
        (tokensWith? fuel rest).map (token :: ·)

/-- The tokens of a text. Each takes at least one character, so there are no more than those. -/
def tokens? (s : List Char) : Option (List Token) :=
  tokensWith? s.length s

end WordTemplate.Json
