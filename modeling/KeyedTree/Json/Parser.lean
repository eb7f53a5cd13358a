import KeyedTree.Blank
import KeyedTree.Json.Basic
import KeyedTree.Reader.Quoted

/-! # Reading JSON text

General JSON text is read into a JSON value. Integers of 64 bits, with or without a sign, stay
exact; every other number becomes the double that double arithmetic makes of its digits, of which as
many are used as 64 bits can hold.
-/

namespace KeyedTree

/-! ### Numbers -/

namespace Number

/-- Adds digits to a significand as long as it fits into 64 bits, and leaves the others. -/
def absorb (significand : Nat) : List Char → Nat × List Char
  | [] => (significand, [])
  | digit :: rest =>
      let longer := 10 * significand + (digit.toNat - '0'.toNat)
      if longer < 2 ^ 64 then absorb longer rest else (significand, digit :: rest)

/-- The digits at the start of a text and what follows them; there must be at least one. -/
def digits? (text : List Char) : Option (List Char × List Char) :=
  let digits := text.takeWhile Char.isDigit
  if digits.isEmpty then none else some (digits, text.dropWhile Char.isDigit)

/-- The digits after a point, if the text goes on with one. -/
def pointDigits? : List Char → Option (List Char × List Char)
  | '.' :: rest => digits? rest
  | text => some ([], text)

/-- The power after an `e`, if the text goes on with one. -/
def power? : List Char → Option (Option Int × List Char)
  | c :: rest =>
      if c = 'e' ∨ c = 'E' then
        let (negative, rest) := match rest with
          | '-' :: rest => (true, rest)
          | '+' :: rest => (false, rest)
          | rest => (false, rest)
        (digits? rest).map fun (digits, rest) =>
          let power : Int := Nat.ofDigitChars 10 digits 0
          (some (if negative then -power else power), rest)
      else some (none, c :: rest)
  | [] => some (none, [])

/-- A number without point and power, if it can be kept as an integer. -/
def whole? (negative : Bool) (significand : Nat) : Option Number :=
  let value : Int := if negative then -significand else significand
  if !negative then some (.integer value)
  else if value ≠ 0 ∧ Numeral.fitsInt64 value then some (.integer value)
  else none

/-- The number at the start of a text without its sign. -/
def unsigned? (negative : Bool) (text : List Char) : Option (Number × List Char) := do
  let (intDigits, rest) ← digits? text
  let (fracDigits, rest) ← pointDigits? rest
  let (power, rest) ← power? rest
  let (significand, skipped) := absorb 0 intDigits
  let exact := if fracDigits.isEmpty && power.isNone && skipped.isEmpty then
      whole? negative significand
    else none
  match exact with
  | some number => return (number, rest)
  | none =>
      let (significand, unused) := absorb significand fracDigits
      let used : Int := fracDigits.length - unused.length
      let fraction ← Fraction.ofParts? negative significand
        (skipped.length - used + power.getD 0)
      return (.fraction fraction, rest)

/-- The number at the start of a text. -/
def read? : List Char → Option (Number × List Char)
  | '-' :: text => unsigned? true text
  | text => unsigned? false text

end Number

/-! ### Values -/

namespace Json

/-- The rest of a quoted text whose first part was read. -/
def readQuoted? (body : Quoted) : List Char → Option (String × List Char)
  | [] => none
  | c :: rest =>
      match body.feed c with
      | .ok (.closed text) => some (text, rest)
      | .ok (.more body) => readQuoted? body rest
      | .error _ => none

mutual

/-- The value at the start of a text, blanks before it skipped. Every nested value takes one of the
`fuel` steps. -/
def readValue? : Nat → List Char → Option (Json × List Char)
  | 0, _ => none
  | fuel + 1, text =>
      match text.dropWhile isBlank with
      | 'n' :: 'u' :: 'l' :: 'l' :: rest => some (.null, rest)
      | 't' :: 'r' :: 'u' :: 'e' :: rest => some (.bool true, rest)
      | 'f' :: 'a' :: 'l' :: 's' :: 'e' :: rest => some (.bool false, rest)
      | '"' :: rest => (readQuoted? {} rest).map fun (value, rest) => (.string value, rest)
      | '[' :: rest =>
          match rest.dropWhile isBlank with
          | ']' :: rest => some (.array [], rest)
          | rest => (readItems? fuel [] rest).map fun (items, rest) => (.array items, rest)
      | '{' :: rest =>
          match rest.dropWhile isBlank with
          | '}' :: rest => some (.object [], rest)
          | rest => (readMembers? fuel [] rest).map fun (members, rest) => (.object members, rest)
      | text => (Number.read? text).map fun (value, rest) => (.number value, rest)

/-- The items of an array up to its closing bracket, after those in `done`, the last one first. -/
def readItems? : Nat → List Json → List Char → Option (List Json × List Char)
  | 0, _, _ => none
  | fuel + 1, done, text =>
      match readValue? fuel text with
      | none => none
      | some (item, rest) =>
          match rest.dropWhile isBlank with
          | ',' :: rest => readItems? fuel (item :: done) rest
          | ']' :: rest => some ((item :: done).reverse, rest)
          | _ => none

/-- The members of an object up to its closing brace, after those in `done`, the last one first. -/
def readMembers? :
    Nat → List (String × Json) → List Char → Option (List (String × Json) × List Char)
  | 0, _, _ => none
  | fuel + 1, done, text =>
      match text.dropWhile isBlank with
      | '"' :: rest =>
          match readQuoted? {} rest with
          | none => none
          | some (key, rest) =>
              match rest.dropWhile isBlank with
              | ':' :: rest =>
                  match readValue? fuel rest with
                  | none => none
                  | some (value, rest) =>
                      match rest.dropWhile isBlank with
                      | ',' :: rest => readMembers? fuel ((key, value) :: done) rest
                      | '}' :: rest => some (((key, value) :: done).reverse, rest)
                      | _ => none
              | _ => none
      | _ => none

end

/-- The value that a text denotes. -/
def parse? (text : String) : Option Json :=
  let chars := text.toList
  match readValue? (chars.length + 1) chars with
  | some (value, rest) => if rest.all isBlank then some value else none
  | none => none

end Json

end KeyedTree
