import WordTemplate.Decimal.Literal
import WordTemplate.Text.Numeral
import WordTemplate.Text.Pieces
import WordTemplate.Toml.Value

/-!
# Words, numbers and dates of TOML

A number or date is kept as it is written, but only if it is one. Integers fit 128 bits, floats do
not overflow, and dates and times exist in the calendar; the seconds of a time may be left out.
-/

namespace WordTemplate.Toml

/-! ## Numbers -/

/-- Digits, with single underscores among them. -/
def isDigits (isDigit : Char → Bool) (s : List Char) : Bool :=
  (Text.pieces '_' s).all fun group => !group.isEmpty && group.all isDigit

/-- Decimal digits that do not begin with a zero, or a single zero. -/
def isWhole (s : List Char) : Bool :=
  isDigits Char.isDigit s && (s.head? != some '0' || s.length == 1)

def withoutUnderscores (s : List Char) : List Char :=
  s.filter (· ≠ '_')

/-- A decimal integer with or without a sign. -/
def isDecimalInteger (s : List Char) : Bool :=
  let (negative, digits) := Decimal.splitSign s
  let value := Decimal.digitsToNat (withoutUnderscores digits)
  isWhole digits && if negative then value ≤ Nat.pow 2 127 else value < Nat.pow 2 128

/-- Digits of a radix. -/
def isRadixInteger (radix : Nat) (digits : List Char) : Bool :=
  isDigits (fun c => (Text.digitValue? radix c).isSome) digits &&
    (Text.readNatural? radix (Nat.pow 2 128) (withoutUnderscores digits)).isSome

/-- An integer, in one of four radices. -/
def isInteger (s : List Char) : Bool :=
  match s with
  | '0' :: 'x' :: digits => isRadixInteger 16 digits
  | '0' :: 'o' :: digits => isRadixInteger 8 digits
  | '0' :: 'b' :: digits => isRadixInteger 2 digits
  | _ => isDecimalInteger s

/-- A fraction, an exponent or both after a whole number. -/
def isFractional (s : List Char) : Bool :=
  let isMarker (c : Char) : Bool := c == 'e' || c == 'E'
  let mantissa := s.takeWhile (!isMarker ·)
  let exponent := (s.dropWhile (!isMarker ·)).drop 1
  let isExponent := isDigits Char.isDigit (Decimal.splitSign exponent).2
  match Text.cut? ['.'] mantissa with
  | some (whole, fraction) =>
    isWhole whole && isDigits Char.isDigit fraction && (mantissa.length == s.length || isExponent)
  | none => isWhole mantissa && isExponent

def isFloat (s : List Char) : Bool :=
  let magnitude := (Decimal.splitSign s).2
  magnitude == "inf".toList || magnitude == "nan".toList ||
    (isFractional magnitude &&
      (Decimal.readLiteral? (withoutUnderscores magnitude)).any (!Float.isInf ·))

/-! ## Dates and times -/

/-- Whether the digits are a number in a range. -/
def isBetween (low high : Nat) (digits : List Char) : Bool :=
  digits.all Char.isDigit &&
    low ≤ Decimal.digitsToNat digits && Decimal.digitsToNat digits ≤ high

def isLeapYear (year : Nat) : Bool :=
  year % 4 == 0 && (year % 100 != 0 || year % 400 == 0)

def daysInMonth (year month : Nat) : Nat :=
  if month = 2 then if isLeapYear year then 29 else 28
  else if month = 4 ∨ month = 6 ∨ month = 9 ∨ month = 11 then 30
  else 31

/-- What follows the date at the front of `s`. -/
def dropDate? : List Char → Option (List Char)
  | y₁ :: y₂ :: y₃ :: y₄ :: '-' :: m₁ :: m₂ :: '-' :: d₁ :: d₂ :: rest =>
    let year := [y₁, y₂, y₃, y₄]
    let month := [m₁, m₂]
    let days := daysInMonth (Decimal.digitsToNat year) (Decimal.digitsToNat month)
    if isBetween 0 9999 year && isBetween 1 12 month && isBetween 1 days [d₁, d₂] then some rest
    else none
  | _ => none

/-- What follows the fraction of a second at the front of `s`, if there is one. -/
def dropFraction? : List Char → Option (List Char)
  | '.' :: rest =>
    let (digits, rest) := Decimal.splitDigits rest
    if digits.isEmpty then none else some rest
  | s => some s

/-- What follows the time at the front of `s`. -/
def dropTime? : List Char → Option (List Char)
  | h₁ :: h₂ :: ':' :: m₁ :: m₂ :: rest =>
    if isBetween 0 23 [h₁, h₂] && isBetween 0 59 [m₁, m₂] then
      match rest with
      | ':' :: s₁ :: s₂ :: rest => if isBetween 0 60 [s₁, s₂] then dropFraction? rest else none
      | _ => some rest
    else none
  | _ => none

/-- The distance of a time from the meridian, which may be left out. -/
def isOffset : List Char → Bool
  | [] => true
  | [c] => c == 'Z' || c == 'z'
  | [sign, h₁, h₂, ':', m₁, m₂] =>
    (sign == '+' || sign == '-') && isBetween 0 23 [h₁, h₂] && isBetween 0 59 [m₁, m₂]
  | _ => false

/-- A date, a time, or both with an offset. -/
def isDate (s : List Char) : Bool :=
  match dropDate? s with
  | some [] => true
  | some (c :: rest) => (c == 'T' || c == 't' || c == ' ') && (dropTime? rest).any isOffset
  | none => dropTime? s == some []

/-! ## Scalars -/

/-- The value that is written without quotes and brackets. -/
def ofWord? (s : List Char) : Option Toml :=
  if s = "true".toList then some (.boolean true)
  else if s = "false".toList then some (.boolean false)
  else if isInteger s || isFloat s then some (.number (String.ofList s))
  else if isDate s then some (.date (String.ofList s))
  else none

def isWordCharacter (c : Char) : Bool :=
  c.isAlphanum || c == '+' || c == '-' || c == '_' || c == '.' || c == ':'

/-- The word, number or date at the front of `s`. There may be a space between a date and a time. -/
def readScalar? (s : List Char) : Option (Toml × List Char) :=
  let word := s.takeWhile isWordCharacter
  match dropDate? word, s.dropWhile isWordCharacter with
  | some [], ' ' :: digit :: rest =>
    if digit.isDigit then
      (ofWord? (word ++ ' ' :: (digit :: rest).takeWhile isWordCharacter)).map
        fun value => (value, rest.dropWhile isWordCharacter)
    else some (.date (String.ofList word), ' ' :: digit :: rest)
  | _, rest => (ofWord? word).map fun value => (value, rest)

end WordTemplate.Toml
