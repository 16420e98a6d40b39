import WordTemplate.Decimal.Shortest
import WordTemplate.Json.Value

/-!
# Writing JSON

The compact text of a value: no spaces, object members in the order of their names. In strings only
quotes, backslashes and control characters are escaped.

Floats have the shortest digits that read back. They are written with a point and at least one
digit after it while the first digit stands for a power of ten from -5 to 15, and otherwise with an
exponent that has a sign.
-/

namespace WordTemplate.Json

/-- The powers of ten of a first digit for which a float is written without an exponent. -/
def isPositional (leading : Int) : Bool :=
  -5 ≤ leading && leading ≤ 15

/-- The digits of a natural number. -/
def decimalDigits (n : Nat) : List Char :=
  Nat.toDigits 10 n

/-- A positive number without exponent. -/
def positional (digits : List Char) (exponent : Int) : List Char :=
  let point := Int.ofNat digits.length + exponent
  if 0 ≤ exponent then digits ++ List.replicate exponent.toNat '0' ++ ['.', '0']
  else if 0 < point then digits.take point.toNat ++ '.' :: digits.drop point.toNat
  else '0' :: '.' :: List.replicate (-point).toNat '0' ++ digits

/-- A positive number with one digit before the point, or a single digit, and an exponent. -/
def scientific (digits : List Char) (exponent : Int) : List Char :=
  let leading := Int.ofNat digits.length - 1 + exponent
  let mantissa :=
    match digits with
    | [] => []
    | [c] => [c]
    | c :: cs => c :: '.' :: cs
  let sign := if leading < 0 then '-' else '+'
  mantissa ++ 'e' :: sign :: decimalDigits leading.natAbs

def floatText (x : Float) : String :=
  let sign := if x.toBits ≥ 0x8000000000000000 then ['-'] else []
  let digits :=
    match Decimal.Binary.ofBits? x.toBits with
    | none => "0.0".toList
    | some b =>
      let d := Decimal.shortest b
      let digits := decimalDigits d.digits
      if isPositional (Int.ofNat digits.length - 1 + d.exponent) then positional digits d.exponent
      else scientific digits d.exponent
  String.ofList (sign ++ digits)

def Number.text : Number → String
  | integer i => toString i
  | float x => floatText x

/-- A digit of a hexadecimal number, in lower case. -/
def hexDigit (n : Nat) : Char :=
  Nat.digitChar n

/-- A character as it is written in a string. -/
def escapeCharacter (c : Char) : List Char :=
  if c = '"' then ['\\', '"']
  else if c = '\\' then ['\\', '\\']
  else if c = '\x08' then ['\\', 'b']
  else if c = '\x0c' then ['\\', 'f']
  else if c = '\n' then ['\\', 'n']
  else if c = '\r' then ['\\', 'r']
  else if c = '\t' then ['\\', 't']
  else if c.toNat < 0x20 then
    ['\\', 'u', '0', '0', hexDigit (c.toNat / 16), hexDigit (c.toNat % 16)]
  else [c]

def stringText (s : String) : String :=
  String.ofList ('"' :: s.toList.flatMap escapeCharacter ++ ['"'])

mutual

/-- The compact text of a value. -/
def text : Json → String
  | null => "null"
  | bool true => "true"
  | bool false => "false"
  | number n => n.text
  | string s => stringText s
  | array items => "[" ++ itemsText items ++ "]"
  | object members => "\x7b" ++ membersText members ++ "\x7d"

/-- Items with commas between them. -/
def itemsText : List Json → String
  | [] => ""
  | [item] => item.text
  | item :: next :: items => item.text ++ "," ++ itemsText (next :: items)

/-- Members with commas between them. -/
def membersText : List (String × Json) → String
  | [] => ""
  | [(key, value)] => stringText key ++ ":" ++ value.text
  | (key, value) :: next :: members =>
    stringText key ++ ":" ++ value.text ++ "," ++ membersText (next :: members)

end

end WordTemplate.Json
