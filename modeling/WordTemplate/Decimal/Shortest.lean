/-!
# The shortest digits of a float

A float has an interval of reals around it that round to it. Its shortest decimal is the one with
the fewest digits in that interval; of several with as few digits it is the one nearest to the
float, and of two equally near ones the one with an even last digit.

Everything is computed in natural numbers. For a number of digits, the candidates are the two
neighbours of the float on the grid of decimals with that many digits; seventeen digits always
suffice.
-/

namespace WordTemplate.Decimal

/-- The number `digits · 10 ^ exponent`. -/
structure Value where
  digits : Nat
  exponent : Int
  deriving DecidableEq, Repr

/-- A positive float is `significand · 2 ^ exponent`. -/
structure Binary where
  significand : Nat
  exponent : Int
  /-- Whether the next smaller float is only half as far away as the next larger one. -/
  lowEdge : Bool
  deriving DecidableEq, Repr

/-- The parts of the absolute value of a finite float; nothing for zero. -/
def Binary.ofBits? (bits : UInt64) : Option Binary :=
  let fraction : Nat := bits.toNat % Nat.pow 2 52
  let biased : Nat := bits.toNat / Nat.pow 2 52 % Nat.pow 2 11
  if biased = 0 then
    if fraction = 0 then none else some ⟨fraction, -1074, false⟩
  else some ⟨Nat.pow 2 52 + fraction, Int.ofNat biased - 1075, fraction == 0 && biased != 1⟩

/-- A positive fraction of natural numbers. -/
structure Ratio where
  num : Nat
  den : Nat

/-- `n · base ^ e`, scaled so that numerator and denominator are natural numbers. -/
def scaled (n base : Nat) (e : Int) : Ratio :=
  if 0 ≤ e then ⟨n * base.pow e.toNat, 1⟩ else ⟨n, base.pow (-e).toNat⟩

def Ratio.le (a b : Ratio) : Bool :=
  a.num * b.den ≤ b.num * a.den

/-- The exponent of the first digit: the largest `e` with `10 ^ e ≤ b`. -/
def leadingExponent (b : Binary) : Int :=
  let value := scaled b.significand 2 b.exponent
  let estimate := (Int.ofNat b.significand.log2 + b.exponent) * 30103 / 100000
  if (scaled 1 10 (estimate + 1)).le value then estimate + 1
  else if (scaled 1 10 estimate).le value then estimate
  else estimate - 1

/-- Whether the decimal lies in the interval of reals that round to the float. -/
def roundsTo (b : Binary) (d : Value) : Bool :=
  -- the interval in quarters of the distance to the next larger float
  let decimal := scaled d.digits 10 d.exponent
  let low := scaled (4 * b.significand - if b.lowEdge then 1 else 2) 2 (b.exponent - 2)
  let high := scaled (4 * b.significand + 2) 2 (b.exponent - 2)
  if b.significand % 2 = 0 then low.le decimal && decimal.le high
  else !decimal.le low && !high.le decimal

/-- The better of two decimals with the same exponent, `lower` being one grid step below `upper`,
among those that round to the float. -/
def choose? (b : Binary) (lower upper : Value) : Option Value :=
  match roundsTo b lower, roundsTo b upper with
  | false, false => none
  | true, false => some lower
  | false, true => some upper
  | true, true =>
    let middle := scaled (lower.digits + upper.digits) 10 lower.exponent
    let twice := scaled (2 * b.significand) 2 b.exponent
    match twice.le middle, middle.le twice with
    | true, true => some (if lower.digits % 2 = 0 then lower else upper)
    | true, false => some lower
    | false, _ => some upper

/-- The decimal nearest to the float among those with `count` digits that round to it. -/
def withDigits? (b : Binary) (count : Nat) : Option Value :=
  let exponent := leadingExponent b - Int.ofNat count + 1
  let value := scaled b.significand 2 b.exponent
  let unit := scaled 1 10 exponent
  let below := value.num * unit.den / (value.den * unit.num)
  choose? b ⟨below, exponent⟩ ⟨below + 1, exponent⟩

/-- The decimal without zeros at its end. -/
def Value.normalize (d : Value) : Value :=
  let rec strip : Nat → Value → Value
    | 0, d => d
    | more + 1, d =>
      if d.digits % 10 = 0 then strip more ⟨d.digits / 10, d.exponent + 1⟩ else d
  strip 17 d

/-- The shortest decimal that rounds to the float. -/
def shortest (b : Binary) : Value :=
  (((List.range' 1 17).findSome? (withDigits? b)).getD ⟨b.significand, b.exponent⟩).normalize

end WordTemplate.Decimal
