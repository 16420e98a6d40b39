/-!
# Numerals

Reading natural numbers in a radix. A reader says how large a number may be and whether a plus sign
may stand in front; a numeral has at least one digit.
-/

namespace WordTemplate.Text

/-- The value of a digit, letters of both cases counting from ten. -/
def digitValue? (radix : Nat) (c : Char) : Option Nat :=
  let value? :=
    if '0' ≤ c ∧ c ≤ '9' then some (c.toNat - '0'.toNat)
    else if 'a' ≤ c ∧ c ≤ 'z' then some (c.toNat - 'a'.toNat + 10)
    else if 'A' ≤ c ∧ c ≤ 'Z' then some (c.toNat - 'A'.toNat + 10)
    else none
  value?.filter (· < radix)

/-- The number that the digits continue, `soFar` being the value of the digits before them. -/
def digitsValue? (radix : Nat) (soFar : Nat) : List Char → Option Nat
  | [] => some soFar
  | c :: cs => (digitValue? radix c).bind fun d => digitsValue? radix (soFar * radix + d) cs

/-- A numeral of digits only, at least one. -/
def readDigits? (radix : Nat) (s : List Char) : Option Nat :=
  if s.isEmpty then none else digitsValue? radix 0 s

/-- A numeral below `bound`, with or without a plus sign in front. -/
def readNatural? (radix bound : Nat) (s : List Char) : Option Nat :=
  let digits := match s with
    | '+' :: rest => rest
    | _ => s
  (readDigits? radix digits).filter (· < bound)

/-- Numbers below this fit 32 bits. -/
def bound32 : Nat := Nat.pow 2 32

/-- Numbers below this fit 64 bits. -/
def bound64 : Nat := Nat.pow 2 64

/-- The character with this code point, unless the number is a surrogate or too large. -/
def charOfCode? (n : Nat) : Option Char :=
  if h : n.isValidChar then some (Char.ofNatAux n h) else none

end WordTemplate.Text
