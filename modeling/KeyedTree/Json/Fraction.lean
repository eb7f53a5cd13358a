import KeyedTree.Numeral

/-! # Fractions

Numbers that are not kept as integers are doubles and shown with the fewest digits that single out
the double. Small and large ones are shown with an exponent. A fraction here is such a digit string:
`digits` times ten to the power of `exponent`.
-/

namespace KeyedTree

/-- A decimal fraction. -/
structure Fraction where
  negative : Bool
  digits : Nat
  exponent : Int
  deriving DecidableEq

namespace Fraction

/-! ### The fewest digits -/

/-- A positive double as a multiple of a power of two. -/
structure Binary where
  mantissa : Nat
  exponent : Int

/-- The smallest mantissa of a double with all its bits. Only the smallest doubles have less. -/
def fullMantissa : Nat := 0x10000000000000

/-- The largest `e` with `10 ^ e ≤ num / den`. -/
def magnitude (num den : Nat) : Int :=
  if den ≤ num then ((Nat.toDigits 10 (num / den)).length : Int) - 1
  else
    Int.negOfNat (Nat.toDigits 10 ((den - 1) / num)).length

/-- The number of `num / den` in units of ten to the power of `unit`, as a quotient. -/
def inUnits (num den : Nat) (unit : Int) : Nat × Nat :=
  if 0 ≤ unit then (num, den * Nat.pow 10 unit.toNat) else (num * Nat.pow 10 (-unit).toNat, den)

/-- Among the two neighbours of `num / den` the one that is nearer and accepted; of equally near
ones the even one. -/
def nearestNeighbour (num den : Nat) (accepts : Nat → Bool) : Option Nat :=
  let below := num / den
  let above := below + 1
  let lowerFirst := 2 * (num % den) < den || (2 * (num % den) == den && below % 2 == 0)
  let order := if lowerFirst then [below, above] else [above, below]
  order.find? accepts

/-- The shortest decimal that rounds to the double, with at most `tries` digits beyond `count`. The
double is `value / den`; what rounds to it lies between `low / den` and `high / den`, ends
included if `closed`. -/
def shortestFrom (low value high den : Nat) (closed : Bool) (count : Nat) : Nat → Nat × Int
  | 0 => (0, 0)
  | tries + 1 =>
      let unit := magnitude value den - (count : Int) + 1
      let (num, scale) := inUnits value den unit
      let (lowNum, lowScale) := inUnits low den unit
      let (highNum, highScale) := inUnits high den unit
      let accepts (n : Nat) : Bool :=
        if closed then lowNum ≤ n * lowScale && n * highScale ≤ highNum
        else lowNum < n * lowScale && n * highScale < highNum
      match nearestNeighbour num scale accepts with
      | some n => (n, unit)
      | none => shortestFrom low value high den closed (count + 1) tries

/-- Digits without zeros at the end. -/
def stripZeros : Nat → Nat × Int → Nat × Int
  | 0, number => number
  | tries + 1, (digits, exponent) =>
      if digits ≠ 0 ∧ digits % 10 = 0 then stripZeros tries (digits / 10, exponent + 1)
      else (digits, exponent)

/-- The shortest decimal that rounds to a positive double. -/
def shortest (double : Binary) : Nat × Int :=
  let mantissa := double.mantissa
  let exponent := double.exponent
  -- Quarter steps, because the double below a power of two is only half as far away.
  let lowerStep := if mantissa = fullMantissa ∧ exponent > -1074 then 1 else 2
  let scaled (quarters : Nat) : Nat :=
    if 0 ≤ exponent then quarters <<< exponent.toNat else quarters
  let den := if 0 ≤ exponent then 4 else 4 <<< (-exponent).toNat
  let found := shortestFrom (scaled (4 * mantissa - lowerStep)) (scaled (4 * mantissa))
    (scaled (4 * mantissa + 2)) den (mantissa % 2 == 0) 1 17
  stripZeros 20 found

/-- The fraction that shows a finite double. -/
def ofDouble (value : Float) : Fraction :=
  let bits := value.toBits
  let negative := bits >>> 63 == 1
  let biased : Nat := ((bits >>> 52) &&& 0x7ff).toNat
  let stored : Nat := (bits &&& 0xfffffffffffff).toNat
  let double : Binary :=
    if biased = 0 then ⟨stored, -1074⟩ else ⟨stored + fullMantissa, (biased : Int) - 1075⟩
  if double.mantissa = 0 then ⟨negative, 0, 0⟩
  else
    let (digits, exponent) := shortest double
    ⟨negative, digits, exponent⟩

/-! ### Writing -/

/-- The text of a fraction without its sign. A fraction below ten to the power of sixteen and not
below a hundred-thousandth is written out and always has a point. All others have an exponent with a
sign. -/
def magnitudeText (digits : Nat) (exponent : Int) : List Char :=
  let shown := Numeral.ofNat digits
  let point := (shown.length : Int) + exponent
  let zeros (n : Int) : List Char := List.replicate n.toNat '0'
  if 0 ≤ exponent ∧ point ≤ 16 then shown ++ zeros exponent ++ ['.', '0']
  else if 0 < point ∧ point ≤ 16 then
    shown.take point.toNat ++ '.' :: shown.drop point.toNat
  else if -5 < point ∧ point ≤ 0 then '0' :: '.' :: zeros (-point) ++ shown
  else
    let power := 'e' :: (if 0 < point then ['+'] else []) ++ Numeral.ofInt (point - 1)
    match shown with
    | [digit] => digit :: power
    | digit :: rest => digit :: '.' :: rest ++ power
    | [] => power

/-- The text of a fraction. -/
def text (fraction : Fraction) : List Char :=
  (if fraction.negative then ['-'] else []) ++ magnitudeText fraction.digits fraction.exponent

/-! ### Reading -/

/-- Ten to a power of at most 308, as a double. -/
def powerOfTen (exponent : Nat) : Float :=
  Float.ofScientific 1 false exponent

/-- A double divided by ten to a power, at most 308 places at a time. -/
def divideByPower (value : Float) (exponent : Nat) : Nat → Float
  | 0 => 0.0
  | tries + 1 =>
      if exponent ≤ 308 then value / powerOfTen exponent
      else divideByPower (value / powerOfTen 308) (exponent - 308) tries

/-- The double nearest to what `significand` times ten to the power of `exponent` comes to in double
arithmetic; nothing if it is out of range. -/
def double? (significand : Nat) (exponent : Int) : Option Float :=
  let value := (UInt64.ofNat significand).toFloat
  if exponent < 0 then some (divideByPower value (-exponent).toNat 3)
  else if exponent ≤ 308 then
    let product := value * powerOfTen exponent.toNat
    if product.isFinite then some product else none
  else if significand = 0 then some value
  else none

/-- The fraction that a number denotes once it is kept as a double. -/
def ofParts? (negative : Bool) (significand : Nat) (exponent : Int) : Option Fraction :=
  (double? significand exponent).map fun value => { ofDouble value with negative }

end Fraction

end KeyedTree
