import WordTemplate.Text.Numeral

/-!
# Reading decimal numbers

A decimal literal has a sign, digits with at most one point among or around them, and an exponent;
all but one digit may be missing. The words `inf`, `infinity` and `nan` are literals in any case.
The value is the nearest float; a number too large for a float is an infinity.
-/

namespace WordTemplate.Decimal

/-- The float nearest to `digits · 10 ^ exponent`. -/
def nearestFloat (digits : Nat) (exponent : Int) : Float :=
  let magnitude := Int.ofNat (Nat.toDigits 10 digits).length + exponent
  if digits = 0 ∨ magnitude < -400 then 0.0
  else if magnitude > 400 then 1.0 / 0.0
  else if 0 ≤ exponent then Float.ofScientific digits false exponent.toNat
  else Float.ofScientific digits true (-exponent).toNat

/-- Splits the digits off the front. -/
def splitDigits (s : List Char) : List Char × List Char :=
  (s.takeWhile Char.isDigit, s.dropWhile Char.isDigit)

/-- The value of a list of digits. -/
def digitsToNat (digits : List Char) : Nat :=
  digits.foldl (fun n c => 10 * n + (c.toNat - '0'.toNat)) 0

/-- The sign of a number, and what follows it. -/
def splitSign : List Char → Bool × List Char
  | '-' :: rest => (true, rest)
  | '+' :: rest => (false, rest)
  | s => (false, s)

/-- The exponent part, which may be missing: the marker `e`, a sign and at least one digit. -/
def readExponent? : List Char → Option Int
  | [] => some 0
  | c :: rest =>
    let (negative, digits) := splitSign rest
    if (c = 'e' ∨ c = 'E') ∧ digits ≠ [] ∧ digits.all Char.isDigit then
      let value := Int.ofNat (digitsToNat digits)
      some (if negative then -value else value)
    else none

/-- A literal without its sign. -/
def readUnsigned? (s : List Char) : Option Float :=
  let word := s.map Char.toLower
  if word = "inf".toList ∨ word = "infinity".toList then some (1.0 / 0.0)
  else if word = "nan".toList then some (0.0 / 0.0)
  else
    let (whole, afterWhole) := splitDigits s
    let (fraction, rest) :=
      match afterWhole with
      | '.' :: afterPoint => splitDigits afterPoint
      | _ => ([], afterWhole)
    if whole = [] ∧ fraction = [] then none
    else
      (readExponent? rest).map fun exponent =>
        nearestFloat (digitsToNat (whole ++ fraction)) (exponent - Int.ofNat fraction.length)

/-- The value of a literal; nothing if `s` is not one. -/
def readLiteral? (s : List Char) : Option Float :=
  let (negative, rest) := splitSign s
  (readUnsigned? rest).map fun value => if negative then -value else value

end WordTemplate.Decimal
