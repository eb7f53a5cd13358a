/-! # Decimal numerals

Integers are written in decimal with a leading minus sign for the negative ones, and read back from
an optional minus sign followed by at least one digit. Leading zeros are accepted, a plus sign is
not.
-/

namespace KeyedTree

namespace Numeral

/-- The decimal digits of a natural number. -/
def ofNat (n : Nat) : List Char :=
  Nat.toDigits 10 n

/-- The decimal numeral of an integer. -/
def ofInt : Int → List Char
  | .ofNat n => ofNat n
  | .negSucc n => '-' :: ofNat (n + 1)

/-- The natural number that a non-empty run of digits denotes. -/
def toNat? (text : List Char) : Option Nat :=
  if text ≠ [] ∧ text.all Char.isDigit then some (Nat.ofDigitChars 10 text 0) else none

/-- The integer that a numeral denotes. -/
def toInt? : List Char → Option Int
  | '-' :: digits => (toNat? digits).map fun n => -(n : Int)
  | digits => (toNat? digits).map fun n => (n : Int)

/-- Reading a decimal numeral gives the number back. -/
theorem toNat?_ofNat (n : Nat) : toNat? (ofNat n) = some n := by
  have hdigits : (Nat.toDigits 10 n).all Char.isDigit = true :=
    List.all_eq_true.mpr fun c hc => Nat.isDigit_of_mem_toDigits (by decide) (by decide) hc
  simp [toNat?, ofNat, hdigits, Nat.toDigits_ne_nil, Nat.ofDigitChars_ten_toDigits]

/-- A numeral without a sign begins with a digit. -/
theorem ofNat_ne_minus (n : Nat) (rest : List Char) : ofNat n ≠ '-' :: rest := by
  intro h
  have hmem : '-' ∈ Nat.toDigits 10 n := by
    rw [show Nat.toDigits 10 n = '-' :: rest from h]; exact List.mem_cons_self
  exact absurd (Nat.isDigit_of_mem_toDigits (by decide) (by decide) hmem) (by decide)

/-- Reading the numeral of an integer gives the integer back. -/
theorem toInt?_ofInt (n : Int) : toInt? (ofInt n) = some n := by
  cases n with
  | ofNat n =>
      unfold toInt?
      split
      next digits h => exact absurd h (ofNat_ne_minus n digits)
      next => simp [ofInt, toNat?_ofNat]
  | negSucc n => simp [ofInt, toInt?, toNat?_ofNat, Int.negSucc_eq]

/-- Whether an integer fits into 64 bits with a sign. -/
def fitsInt64 (n : Int) : Bool :=
  decide (Int64.minValue.toInt ≤ n ∧ n ≤ Int64.maxValue.toInt)

end Numeral

/-- The text of a 64-bit integer. -/
def decimalText (n : Int64) : String :=
  String.ofList (Numeral.ofInt n.toInt)

end KeyedTree
